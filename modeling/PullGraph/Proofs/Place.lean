import PullGraph.Proofs.Mapping

/-!
# The inputs of a program

A program has inputs under labels and in its nodes. Both are made from lists of names, and then they
change by what is set.

* `Place`: where inputs are. `Workspace.inputs?` are the inputs there.
* `Deed`: what a step does to the inputs of a place, if it succeeds: they are made, copied from
  another place, or a name is set. `Machine.deed?` is the deed of the next move.
* `declared`, `settings`: the names of the inputs of a place and what was set there, by the deeds of
  a run.
* `Comes`: how inputs come about by a deed. `Edit.comes` and `Machine.comes` say that there is no
  other way: steps that fail, reads, computes and deaths leave all inputs alone.
* `Run.keyed`: the inputs of every run are maps from the names that were declared to what was set
  last, whatever else happened in between.
-/

namespace PullGraph

/-- Where a program has inputs: under a label, or in a node. -/
inductive Place where
  | label (name : String)
  | node (id : NodeId)
  deriving DecidableEq

/-- The inputs at a place. -/
def Workspace.inputs? (w : Workspace) : Place → Option Inputs
  | .label name => w.handles.inputs.get? name
  | .node id => (w.graph.node? id).map (·.inputs)

/-- What a step does to the inputs of a place. -/
inductive Deed where
  /-- They are made, with all names unconnected. -/
  | make (names : List String)
  /-- They become a copy of those at another place. -/
  | copy (source : Place)
  /-- A name is set. -/
  | set (setting : Setting)

/-- The place of the inputs that a reference stands for. -/
def Scope.place (scope : Scope) (w : Workspace) : InputsRef → Except StepError Place
  | .label name => .ok (.label name)
  | .ofNode node => .node <$> scope.node w node

/-- What an edit does to inputs if it succeeds, and where. -/
def Edit.deed? (scope : Scope) (w : Workspace) : Edit → Option (Place × Deed)
  | .create _ _ logic => some (.node w.graph.nextId, .make logic.inputNames)
  | .newInputs label _ names => some (.label label, .make names)
  | .copyInputs i label => do
    let source ← (scope.place w i).toOption
    return (.label label, .copy source)
  | .connect node key s => do
    let s ← (scope.socket w s).toOption
    let id ← (scope.node w node).toOption
    return (.node id, .set ⟨key, some s, w.graph.alive⟩)
  | .setInput node key s => do
    let s ← (scope.socket? w s).toOption
    let id ← (scope.node w node).toOption
    return (.node id, .set ⟨key, s, w.graph.alive⟩)
  | .disconnect node key => do
    let id ← (scope.node w node).toOption
    return (.node id, .set ⟨key, none, w.graph.alive⟩)
  | .bindInput label key s => do
    let s ← (scope.socket? w s).toOption
    return (.label label, .set ⟨key, s, w.graph.alive⟩)
  | .bindDynamic label key _ s => do
    let s ← (scope.socket? w s).toOption
    return (.label label, .set ⟨key, s, w.graph.alive⟩)
  | _ => none

/-- What an edit does to the inputs of one place if it succeeds. -/
def Edit.deedAt? (scope : Scope) (w : Workspace) (p : Place) (e : Edit) : Option Deed :=
  (e.deed? scope w).bind fun (q, deed) => if p = q then some deed else none

/-- What the next move does to the inputs of a place. -/
def Machine.deed? (m : Machine) (p : Place) : Option Deed :=
  match m.control, m.task.todo with
  | .running, .act (.edit e) _ :: _ =>
    if (e.apply m.scope m.workspace).isOk then e.deedAt? m.scope m.workspace p else none
  | _, _ => none

/-- The names of the inputs at a place, by the steps of a run. -/
def declared (p : Place) : List Machine → List String
  | [] => []
  | m :: past =>
    match m.deed? p with
    | some (.make names) => names
    | some (.copy source) => declared source past
    | some (.set _) => declared p past
    | none => declared p past

/-- What was set on the inputs at a place since they were made, by the steps of a run, the latest
setting first. -/
def settings (p : Place) : List Machine → List Setting
  | [] => []
  | m :: past =>
    match m.deed? p with
    | some (.make _) => []
    | some (.copy source) => settings source past
    | some (.set s) => s :: settings p past
    | none => settings p past

/-! ## Inputs within a workspace -/

namespace Workspace

variable {w : Workspace} {p : Place}

theorem inputs?_setGraph {g : Graph}
    (h : ∀ id, (g.node? id).map (·.inputs) = (w.graph.node? id).map (·.inputs)) :
    (w.setGraph g).inputs? p = w.inputs? p := by
  cases p with
  | label => rfl
  | node id => exact h id

@[simp] theorem inputs?_keepNode (label : String) (id : NodeId) :
    (w.keepNode label id).inputs? p = w.inputs? p := by cases p <;> rfl

@[simp] theorem inputs?_dropNode (label : String) :
    (w.dropNode label).inputs? p = w.inputs? p := by cases p <;> rfl

@[simp] theorem inputs?_keepSocket (label : String) (s : Socket) :
    (w.keepSocket label s).inputs? p = w.inputs? p := by cases p <;> rfl

@[simp] theorem inputs?_dropSocket (label : String) :
    (w.dropSocket label).inputs? p = w.inputs? p := by cases p <;> rfl

@[simp] theorem inputs?_keepId (label : String) (id : NodeId) :
    (w.keepId label id).inputs? p = w.inputs? p := by cases p <;> rfl

@[simp] theorem inputs?_fill (s : Socket) (v : Value) :
    (w.setGraph (w.graph.fill s v)).inputs? p = w.inputs? p :=
  inputs?_setGraph fun id => Graph.map_node?_update (fun _ => by rfl) id

@[simp] theorem inputs?_enter (id : NodeId) :
    (w.setGraph (w.graph.enter id)).inputs? p = w.inputs? p :=
  inputs?_setGraph fun other => Graph.map_node?_update (fun _ => by rfl) other

@[simp] theorem inputs?_leave (id : NodeId) :
    (w.setGraph (w.graph.leave id)).inputs? p = w.inputs? p :=
  inputs?_setGraph fun other => Graph.map_node?_update (fun _ => by rfl) other

@[simp] theorem inputs?_release (others : List NodeId) :
    (w.release others).inputs? p = w.inputs? p :=
  inputs?_setGraph fun id => w.graph.map_node?_release (fun _ => by rfl) _ id

theorem inputs?_keepInputs (label : String) (inputs : Inputs) :
    (w.keepInputs label inputs).inputs? p =
      if p = .label label then some inputs else w.inputs? p := by
  cases p with
  | node => rfl
  | label name =>
    change (w.handles.inputs.insert label inputs).get? name = _
    by_cases hn : name = label
    · subst hn
      rw [Table.get?_insert_self, if_pos rfl]
    · rw [Table.get?_insert_of_ne _ _ hn, if_neg fun e => hn (Place.label.inj e)]
      rfl

theorem inputs?_of_dropInputs {label : String} {inputs : Inputs}
    (h : (w.dropInputs label).inputs? p = some inputs) : w.inputs? p = some inputs := by
  cases p with
  | node => exact h
  | label name =>
    by_cases hn : name = label
    · subst hn
      exact absurd ((Table.get?_erase_self _ _).symm.trans h) (by simp)
    · exact (Table.get?_erase_of_ne _ hn).symm.trans h

theorem inputs?_push (node : Option Node) :
    (w.setGraph (w.graph.push node)).inputs? p =
      if p = .node w.graph.nextId then node.map (·.inputs) else w.inputs? p := by
  cases p with
  | label => rfl
  | node id =>
    change ((w.graph.push node).node? id).map (·.inputs) = _
    rw [Graph.node?_push]
    simp only [Place.node.injEq]
    split <;> rfl

theorem inputs?_rewire (id : NodeId) (inputs : Inputs) :
    (w.setGraph (w.graph.rewire id inputs)).inputs? p =
      if p = .node id then (w.inputs? p).map fun _ => inputs else w.inputs? p := by
  cases p with
  | label => rfl
  | node other =>
    change ((w.graph.rewire id inputs).node? other).map (·.inputs) = _
    rw [Graph.rewire, Graph.node?_update]
    simp only [Place.node.injEq, Workspace.inputs?]
    split
    · next e =>
      subst e
      simp [Function.comp_def]
    · rfl

/-- The inputs of a node that has a record. -/
theorem inputs?_node {id : NodeId} {inputs : Inputs} (h : w.inputs? (.node id) = some inputs) :
    w.graph.inputs id = inputs := by
  rw [Graph.inputs, show (w.graph.node? id).map (·.inputs) = some inputs from h]
  rfl

theorem exists_inputs?_node {id : NodeId} (h : w.graph.alive id = true) :
    w.inputs? (.node id) = some (w.graph.inputs id) := by
  rw [Graph.alive] at h
  rw [Workspace.inputs?, Graph.inputs]
  cases hn : w.graph.node? id with
  | none => simp [hn] at h
  | some node => rfl

end Workspace

/-! ## One step -/

/-- How the inputs of a place come about by a step, given its deed there. -/
inductive Comes (w : Workspace) (p : Place) (inputs : Inputs) : Option Deed → Prop
  | made {policy : NamePolicy} {names : List String} :
      Inputs.ofNames policy names = .ok inputs → Comes w p inputs (some (.make names))
  | copied {source : Place} :
      w.inputs? source = some inputs → Comes w p inputs (some (.copy source))
  | set {old : Inputs} {s : Setting} : w.inputs? p = some old →
      old.set s.alive s.key s.socket = .ok inputs → Comes w p inputs (some (.set s))
  | kept : w.inputs? p = some inputs → Comes w p inputs none

section Step

variable {scope : Scope} {w w' : Workspace} {p q : Place} {inputs : Inputs} {e : Edit} {deed : Deed}

/-- An edit has its deed at one place and leaves the others alone. -/
theorem Comes.of_deed? {new : Option Inputs} (h : e.deed? scope w = some (q, deed))
    (hw : w'.inputs? p = if p = q then new else w.inputs? p) (hp : w'.inputs? p = some inputs)
    (hself : p = q → new = some inputs → Comes w p inputs (some deed)) :
    Comes w p inputs (e.deedAt? scope w p) := by
  rw [Edit.deedAt?, h]
  change Comes w p inputs (if p = q then some deed else none)
  rw [hw] at hp
  split
  · next hq =>
    rw [if_pos hq] at hp
    exact hself hq hp
  · next hq =>
    rw [if_neg hq] at hp
    exact .kept hp

theorem Comes.of_deed?_eq_none (h : e.deed? scope w = none) (hp : w.inputs? p = some inputs) :
    Comes w p inputs (e.deedAt? scope w p) := by
  rw [Edit.deedAt?, h]
  exact .kept hp

/-- Inputs of a node that are set. -/
theorem Comes.of_rewire {id : NodeId} {s : Setting} {new : Inputs}
    (h : e.deed? scope w = some (.node id, .set s))
    (hs : (w.graph.inputs id).set s.alive s.key s.socket = .ok new)
    (hp : (w.setGraph (w.graph.rewire id new)).inputs? p = some inputs) :
    Comes w p inputs (e.deedAt? scope w p) := by
  refine .of_deed? h (Workspace.inputs?_rewire id new) hp fun hq hnew => ?_
  obtain ⟨old, ho, rfl⟩ := Option.map_eq_some_iff.mp hnew
  subst hq
  exact .set ho (Workspace.inputs?_node ho ▸ hs)

/-- Inputs that are kept under a label. -/
theorem Comes.of_keepInputs {label : String} {new : Inputs}
    (h : e.deed? scope w = some (.label label, deed))
    (hnew : Comes w (.label label) new (some deed))
    (hp : (w.keepInputs label new).inputs? p = some inputs) :
    Comes w p inputs (e.deedAt? scope w p) := by
  refine .of_deed? h (Workspace.inputs?_keepInputs label new) hp fun hq ho => ?_
  cases ho
  exact hq ▸ hnew

/-- References to inputs lead to places. -/
theorem Scope.exists_place (hw : ∀ id, scope.Holds w id → w.graph.alive id = true) {i : InputsRef}
    (h : scope.inputs w i = .ok inputs) :
    ∃ source, scope.place w i = .ok source ∧ w.inputs? source = some inputs := by
  cases i with
  | label name => exact ⟨.label name, rfl, Table.find_eq_ok.mp h⟩
  | ofNode node =>
    obtain ⟨id, hid, hi⟩ := bind_eq_ok.mp h
    cases pure_eq_ok.mp hi
    exact ⟨.node id, map_eq_ok.mpr ⟨id, hid, rfl⟩,
      Workspace.exists_inputs?_node (hw id (Scope.holds_of_node hid))⟩

/-- Inputs come about by the deed of an edit that succeeds, and not otherwise. -/
theorem Edit.comes (hw : ∀ id, scope.Holds w id → w.graph.alive id = true) {reply : Reply}
    {records : List Record} (h : e.apply scope w = .ok (reply, w', records))
    (hp : w'.inputs? p = some inputs) : Comes w p inputs (e.deedAt? scope w p) := by
  -- An edit with a deed has changed the inputs at one place; elsewhere, and after any other edit,
  -- they are what they were.
  cases e with
  | create label policy logic =>
    obtain ⟨⟨id, g, records⟩, hc, h⟩ := bind_eq_ok.mp h
    cases pure_eq_ok.mp h
    obtain ⟨hi, -, -, rfl⟩ := Graph.create_eq_ok (StepError.ofGraph_eq_ok.mp hc)
    rw [Workspace.inputs?_keepNode] at hp
    refine .of_deed? rfl (Workspace.inputs?_push _) hp fun _ ho => ?_
    cases ho
    exact .made (bind_eq_ok.mpr ⟨(), hi, rfl⟩)
  | freshId label =>
    cases h
    rw [Workspace.inputs?_keepId, Workspace.inputs?_push] at hp
    refine .of_deed?_eq_none rfl ?_
    -- What is pushed is no node, so that there are no inputs at the new place.
    split at hp
    · cases hp
    · exact hp
  | copyNode node label =>
    obtain ⟨id, -, h⟩ := bind_eq_ok.mp h
    cases pure_eq_ok.mp h
    exact .of_deed?_eq_none rfl (by simpa using hp)
  | dropNode label =>
    cases h
    exact .of_deed?_eq_none rfl (by simpa using hp)
  | setOutput node name source =>
    obtain ⟨id, -, h⟩ := bind_eq_ok.mp h
    obtain ⟨g, hg, h⟩ := bind_eq_ok.mp h
    cases pure_eq_ok.mp h
    obtain ⟨-, -, rfl⟩ := Graph.setOutput_eq_ok (StepError.ofGraph_eq_ok.mp hg)
    exact .of_deed?_eq_none rfl (by simpa using hp)
  | setSum node name left right =>
    obtain ⟨id, -, h⟩ := bind_eq_ok.mp h
    cases hsum : (scope.register left).add? (scope.register right) with
    | none => simp only [hsum] at h; cases h
    | some sum =>
      simp only [hsum] at h
      obtain ⟨g, hg, h⟩ := bind_eq_ok.mp h
      cases pure_eq_ok.mp h
      obtain ⟨-, -, rfl⟩ := Graph.setOutput_eq_ok (StepError.ofGraph_eq_ok.mp hg)
      exact .of_deed?_eq_none rfl (by simpa using hp)
  | connect node key r =>
    obtain ⟨s, hs, h⟩ := bind_eq_ok.mp h
    obtain ⟨id, hid, h⟩ := bind_eq_ok.mp h
    obtain ⟨⟨g, records⟩, hg, h⟩ := bind_eq_ok.mp h
    cases pure_eq_ok.mp h
    obtain ⟨new, hi, rfl⟩ := Graph.connect_eq_ok (StepError.ofGraph_eq_ok.mp hg)
    have hd : deed? scope w (.connect node key r) =
        some (.node id, .set ⟨key, some s, w.graph.alive⟩) := by
      simp [deed?, hs, hid, Except.toOption]
    exact .of_rewire hd hi hp
  | setInput node key r =>
    obtain ⟨s, hs, h⟩ := bind_eq_ok.mp h
    obtain ⟨id, hid, h⟩ := bind_eq_ok.mp h
    obtain ⟨⟨g, records⟩, hg, h⟩ := bind_eq_ok.mp h
    cases pure_eq_ok.mp h
    obtain ⟨new, hi, rfl⟩ := Graph.setInput_eq_ok (StepError.ofGraph_eq_ok.mp hg)
    have hd : deed? scope w (.setInput node key r) =
        some (.node id, .set ⟨key, s, w.graph.alive⟩) := by
      simp [deed?, hs, hid, Except.toOption]
    exact .of_rewire hd hi hp
  | disconnect node key =>
    obtain ⟨id, hid, h⟩ := bind_eq_ok.mp h
    obtain ⟨⟨g, records⟩, hg, h⟩ := bind_eq_ok.mp h
    cases pure_eq_ok.mp h
    obtain ⟨new, hi, rfl⟩ := Graph.setInput_eq_ok (StepError.ofGraph_eq_ok.mp hg)
    have hd : deed? scope w (.disconnect node key) =
        some (.node id, .set ⟨key, none, w.graph.alive⟩) := by
      simp [deed?, hid, Except.toOption]
    exact .of_rewire hd hi hp
  | keepOutput node name label =>
    obtain ⟨id, -, h⟩ := bind_eq_ok.mp h
    obtain ⟨s, -, h⟩ := bind_eq_ok.mp h
    cases pure_eq_ok.mp h
    exact .of_deed?_eq_none rfl (by simpa using hp)
  | dropSocket label =>
    cases h
    exact .of_deed?_eq_none rfl (by simpa using hp)
  | setValue r writer source =>
    obtain ⟨s, -, h⟩ := bind_eq_ok.mp h
    obtain ⟨id, -, h⟩ := bind_eq_ok.mp h
    obtain ⟨g, hg, h⟩ := bind_eq_ok.mp h
    cases pure_eq_ok.mp h
    obtain ⟨-, rfl⟩ := Graph.setValue_eq_ok (StepError.ofGraph_eq_ok.mp hg)
    exact .of_deed?_eq_none rfl (by simpa using hp)
  | keepOwner r label =>
    obtain ⟨s, -, h⟩ := bind_eq_ok.mp h
    split at h
    · cases pure_eq_ok.mp h
      exact .of_deed?_eq_none rfl (by simpa using hp)
    · cases pure_eq_ok.mp h
      exact .of_deed?_eq_none rfl hp
  | newInputs label policy names =>
    obtain ⟨new, hi, h⟩ := bind_eq_ok.mp h
    cases pure_eq_ok.mp h
    exact .of_keepInputs rfl (.made (StepError.ofGraph_eq_ok.mp hi)) hp
  | copyInputs i label =>
    obtain ⟨new, hi, h⟩ := bind_eq_ok.mp h
    cases pure_eq_ok.mp h
    obtain ⟨source, hs, hi⟩ := Scope.exists_place hw hi
    exact .of_keepInputs (by simp [deed?, hs, Except.toOption]) (.copied hi) hp
  | dropInputs label =>
    cases h
    exact .of_deed?_eq_none rfl (Workspace.inputs?_of_dropInputs hp)
  | keepFeeder i name label =>
    obtain ⟨old, -, h⟩ := bind_eq_ok.mp h
    obtain ⟨id?, -, h⟩ := bind_eq_ok.mp h
    split at h
    · cases pure_eq_ok.mp h
      exact .of_deed?_eq_none rfl (by simpa using hp)
    · cases pure_eq_ok.mp h
      exact .of_deed?_eq_none rfl hp
  | bindInput label key r =>
    obtain ⟨s, hs, h⟩ := bind_eq_ok.mp h
    obtain ⟨old, ho, h⟩ := bind_eq_ok.mp h
    obtain ⟨new, hi, h⟩ := bind_eq_ok.mp h
    cases pure_eq_ok.mp h
    have hd : deed? scope w (.bindInput label key r) =
        some (.label label, .set ⟨key, s, w.graph.alive⟩) := by
      simp [deed?, hs, Except.toOption]
    exact .of_keepInputs hd (.set (Table.find_eq_ok.mp ho) (StepError.ofGraph_eq_ok.mp hi)) hp
  | bindDynamic label key type r =>
    obtain ⟨s, hs, h⟩ := bind_eq_ok.mp h
    obtain ⟨old, ho, h⟩ := bind_eq_ok.mp h
    obtain ⟨new, hi, h⟩ := bind_eq_ok.mp h
    cases pure_eq_ok.mp h
    have hd : deed? scope w (.bindDynamic label key type r) =
        some (.label label, .set ⟨key, s, w.graph.alive⟩) := by
      simp [deed?, hs, Except.toOption]
    exact .of_keepInputs hd (.set (Table.find_eq_ok.mp ho)
      (Inputs.setAny_eq_ok (StepError.ofGraph_eq_ok.mp hi))) hp

end Step

/-! ## One move -/

namespace Machine

variable {past : List Machine} {m : Machine} {p : Place} {inputs : Inputs}

theorem inputs?_conclude (action : Action) (attempt : Bool) (result : Result) :
    (m.conclude action attempt result).workspace.inputs? p = m.workspace.inputs? p := by
  cases result with
  | ok reply =>
    rw [conclude_ok]
    exact congrArg (Workspace.inputs? · p) (workspace_setTask _ _)
  | error e =>
    obtain h | ⟨-, err, f, rest, -, -, h⟩ := m.conclude_error action attempt e
    · rw [h]
      exact congrArg (Workspace.inputs? · p) (workspace_setTask _ _)
    · rw [h]
      exact Workspace.inputs?_leave f.node

theorem inputs?_demand (s : Socket) :
    (m.demand s).workspace.inputs? p = m.workspace.inputs? p := by
  cases ha : m.graph.answer? s with
  | some outcome =>
    obtain ⟨trace, h⟩ := demand_of_answer ha
    rw [h]
  | none =>
    rw [demand_of_no_answer ha, workspace_enter]
    exact Workspace.inputs?_enter s.owner

@[simp] theorem inputs?_settle : m.settle.workspace.inputs? p = m.workspace.inputs? p :=
  Workspace.inputs?_release _

theorem inputs?_setTask (t : Task) : (m.setTask t).workspace.inputs? p = m.workspace.inputs? p := by
  rw [workspace_setTask]

theorem deed?_of_returned {outcome : Except GraphError Value} (hc : m.control = .returned outcome) :
    m.deed? p = none := by
  simp only [deed?, hc]

theorem deed?_of_idle (hi : m.idle = true) : m.deed? p = none := by
  obtain ⟨hc, hf, ht⟩ := idle_cases hi
  simp only [deed?, hc, task_of_nil hf, ht]

/-- An outcome that arrives at a step is no deed. -/
theorem inputs?_move_of_returned {outcome : Except GraphError Value}
    (hc : m.control = .returned outcome) :
    m.move.workspace.inputs? p = m.workspace.inputs? p := by
  by_cases ht : ∃ action attempt rest, m.task.todo = .act action attempt :: rest
  · obtain ⟨action, attempt, rest, ht⟩ := ht
    cases outcome with
    | error e => rw [move_of_failure hc ht, inputs?_settle, inputs?_conclude]
    | ok v =>
      obtain ⟨t, hk⟩ := exists_keep (m := m) action v
      rw [move_of_value hc ht, inputs?_settle, inputs?_conclude, hk, inputs?_setTask]
  · rw [move_of_unawaited hc ht, inputs?_settle]
    exact inputs?_setTask _

/-- Neither is the end of a task. -/
theorem inputs?_move_of_nil (hr : m.control = .running) (ht : m.task.todo = []) :
    m.move.workspace.inputs? p = m.workspace.inputs? p := by
  cases hf : m.frames with
  | nil =>
    have hi : m.idle = true := by simp [idle, hr, hf, task_of_nil hf ▸ ht]
    rw [move_of_idle hi, inputs?_settle]
  | cons f frames =>
    obtain ⟨trace, e⟩ := complete_eq (m := m) f frames
    rw [move_of_complete hr ht hf, inputs?_settle, e]
    exact Workspace.inputs?_leave f.node

/-- A step that is over by itself is an edit, or it leaves the workspace alone. -/
theorem edit_or_eq_of_begin {action : Action} {scope : Scope} {w w' : Workspace} {reply : Reply}
    {records : List Record} (hb : action.begin scope w = .ok (.done reply w' records)) :
    (∃ e, action = .edit e ∧ e.apply scope w = .ok (reply, w', records)) ∨
      (∀ e, action ≠ .edit e) ∧ w' = w := by
  cases action with
  | demand d into =>
    obtain ⟨⟨s, holding⟩, -, hb⟩ := bind_eq_ok.mp hb
    cases s with
    | none =>
      cases pure_eq_ok.mp hb
      exact .inr ⟨fun _ h => (by cases h), rfl⟩
    | some s => cases pure_eq_ok.mp hb
  | query q =>
    obtain ⟨⟨r, records⟩, -, hb⟩ := bind_eq_ok.mp hb
    cases pure_eq_ok.mp hb
    exact .inr ⟨fun _ h => (by cases h), rfl⟩
  | edit e =>
    obtain ⟨⟨r, w, records⟩, ha, hb⟩ := bind_eq_ok.mp hb
    cases pure_eq_ok.mp hb
    exact .inl ⟨e, rfl, ha⟩
  | fail message =>
    obtain ⟨id, -, hb⟩ := bind_eq_ok.mp hb
    cases hb

section Act

variable {action : Action} {attempt : Bool} {rest : List Instr} (hr : m.control = .running)
  (ht : m.task.todo = .act action attempt :: rest)

include hr ht

/-- A step that does not succeed as an edit is no deed. -/
theorem deed?_of_not_edit
    (h : ∀ e, action = .edit e → ∀ done, e.apply m.scope m.workspace ≠ .ok done) :
    m.deed? p = none := by
  cases action with
  | edit e =>
    simp only [deed?, hr, ht]
    cases ha : e.apply m.scope m.workspace with
    | error err => rfl
    | ok done => exact absurd ha (h e rfl done)
  | demand d into => simp only [deed?, hr, ht]
  | query q => simp only [deed?, hr, ht]
  | fail message => simp only [deed?, hr, ht]

theorem deed?_of_error {err : StepError} (hb : action.begin m.scope m.workspace = .error err) :
    m.deed? p = none := by
  refine deed?_of_not_edit hr ht fun e he done ha => ?_
  subst he
  rw [Action.begin, ha] at hb
  cases hb

theorem deed?_of_demand {s : Socket} {holding : Option NodeId}
    (hb : action.begin m.scope m.workspace = .ok (.demand s holding)) : m.deed? p = none := by
  refine deed?_of_not_edit hr ht fun e he done ha => ?_
  subst he
  rw [Action.begin, ha] at hb
  cases hb

end Act

/-- Inputs come about by the deed of a move, and not otherwise. -/
theorem comes (h : Run past m) (hp : m.move.workspace.inputs? p = some inputs) :
    Comes m.workspace p inputs (m.deed? p) := by
  cases hc : m.control with
  | returned outcome =>
    rw [deed?_of_returned hc]
    exact .kept (inputs?_move_of_returned hc ▸ hp)
  | running =>
    rcases ht : m.task.todo with _ | ⟨⟨action, attempt⟩ | ⟨register, is, yes, no⟩, rest⟩
    · have hd : m.deed? p = none := by simp only [deed?, hc, ht]
      rw [hd]
      exact .kept (inputs?_move_of_nil hc ht ▸ hp)
    · cases hb : action.begin m.scope m.workspace with
      | error e =>
        rw [deed?_of_error hc ht hb]
        rw [move_of_error hc ht hb, inputs?_settle, inputs?_conclude] at hp
        exact .kept hp
      | ok progress =>
        cases progress with
        | demand s holding =>
          rw [deed?_of_demand hc ht hb]
          rw [move_of_demands (demands_of_begin hc ht hb), inputs?_settle, inputs?_demand,
            inputs?_setTask] at hp
          exact .kept hp
        | done reply w records =>
          rw [move_of_done hc ht hb, inputs?_settle, inputs?_conclude, tellAll_eq] at hp
          obtain ⟨e, rfl, ha⟩ | ⟨hn, rfl⟩ := edit_or_eq_of_begin hb
          · have hd : m.deed? p = e.deedAt? m.scope m.workspace p := by
              simp only [deed?, hc, ht, ha]
              rfl
            rw [hd]
            -- A copy of the inputs of a node is of a record that exists, as a run only holds living nodes.
            refine Edit.comes (fun id hid => ?_) ha hp
            exact (firm h).alive_of_holds (fun _ => mem_holds_of_self) hid
          · rw [deed?_of_not_edit hc ht fun e he => absurd he (hn e)]
            exact .kept hp
    · have hd : m.deed? p = none := by simp only [deed?, hc, ht]
      rw [hd]
      rw [move_of_branch hc ht, inputs?_settle, inputs?_setTask] at hp
      exact .kept hp

end Machine

/-! ## Runs -/

open Machine

variable {past : List Machine} {m : Machine} {p : Place} {inputs : Inputs}

/-- The inputs of a run map the names that were declared to what was set last. -/
theorem Run.maps (h : Run past m) (hp : m.workspace.inputs? p = some inputs) :
    inputs.Maps (declared p past) (settings p past) := by
  induction h generalizing p inputs with
  | start => cases p <;> cases hp
  | @move past m h ih =>
    have hcomes := comes h hp
    rw [declared, settings]
    cases hd : m.deed? p with
    | none =>
      rw [hd] at hcomes
      cases hcomes with
      | kept hold => exact ih hold
    | some deed =>
      rw [hd] at hcomes
      cases hcomes with
      | made hi => exact Inputs.maps_of_ofNames hi
      | copied hs => exact ih hs
      | set hold hs => exact (ih hold).set hs
  | @load past m action _ hi ih =>
    rw [declared, settings, deed?_of_idle hi]
    exact ih hp

/-- To a program, all of its inputs are maps with fixed keys. -/
theorem Run.keyed (h : Run past m) (hp : m.workspace.inputs? p = some inputs) :
    inputs.Keyed (declared p past) (settings p past) :=
  (h.maps hp).keyed

end PullGraph
