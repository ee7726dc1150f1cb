import PullGraph.Proofs.Binding
import PullGraph.Proofs.Halting

/-!
# How deep a read goes

A compute may rewire the graph, drop handles and swallow failures on its way, but only a step that
creates a node brings one to life. Without such steps the nodes that a read may set to work are those
that were idle when it began, each at most once at a time.

* `Instr.Creates`, `Logic.Creates`: a step, at any depth of its branches, or a compute with such a
  step creates a node.
* `Machine.plans`: the steps that the computes in progress have left. `Machine.replans_move` says what
  a move makes of them.
* `Machine.Sterile`: no node creates nodes, nor does a compute above a given depth. A move at such a
  depth keeps it (`Machine.Sterile.move`), and so no node comes to life (`Machine.Sterile.barren`).
* `Machine.length_frames_le`: the computes above a read are of nodes that were idle when it began.
* `Run.bounded`: so reads come to an end, and do not go deeper than there are such nodes.
-/

namespace PullGraph

/-! ## Creation of nodes -/

/-- The step creates a node, or some step in one of its branches does. -/
inductive Instr.Creates : Instr → Prop
  | create {label : String} {policy : NamePolicy} {logic : Logic} {attempt : Bool} :
      Creates (.act (.edit (.create label policy logic)) attempt)
  | yes {register : String} {is : Value} {yes no : List Instr} {i : Instr} :
      i ∈ yes → Creates i → Creates (.branch register is yes no)
  | no {register : String} {is : Value} {yes no : List Instr} {i : Instr} :
      i ∈ no → Creates i → Creates (.branch register is yes no)

/-- Some compute of the kind has a step that creates a node. -/
def Logic.Creates (logic : Logic) : Prop := ∃ call, ∃ i ∈ logic.program call, i.Creates

theorem Logic.not_creates_of_not_script {logic : Logic} (h : logic.isScript = false) :
    ¬ logic.Creates := by
  rintro ⟨call, i, hi, hc⟩
  cases logic with
  | value v =>
    obtain rfl := List.mem_singleton.mp hi
    cases hc
  | add =>
    simp only [program, List.mem_cons, List.not_mem_nil, or_false] at hi
    rcases hi with rfl | rfl | rfl <;> cases hc
  | bare | sink | hollow => cases hi
  | script => cases h

/-- No edit but a creation brings a node to life. -/
theorem Edit.alive_of_apply {scope : Scope} {w w' : Workspace} {e : Edit} {reply : Reply}
    {records : List Record} (hn : ∀ label policy logic, e ≠ .create label policy logic)
    (h : e.apply scope w = .ok (reply, w', records)) {id : NodeId}
    (ha : w'.graph.alive id = true) : w.graph.alive id = true := by
  have hfill (s : Socket) (v : Value) (ha : (w.graph.fill s v).alive id = true) :
      w.graph.alive id = true := by rwa [Graph.alive_fill] at ha
  have hrewire (k : NodeId) (inputs : Inputs) (ha : (w.graph.rewire k inputs).alive id = true) :
      w.graph.alive id = true := by rwa [Graph.alive_rewire] at ha
  -- What is left fills a cell, rewires a node, takes an identity or changes handles.
  cases e with
  | create label policy logic => exact absurd rfl (hn label policy logic)
  | freshId label =>
    cases h
    change (Graph.push _ _).alive id = true at ha
    rw [Graph.alive_push] at ha
    split at ha
    · cases ha
    · exact ha
  | setOutput node name source =>
    obtain ⟨k, -, h⟩ := bind_eq_ok.mp h
    obtain ⟨g, hg, h⟩ := bind_eq_ok.mp h
    cases pure_eq_ok.mp h
    obtain ⟨-, -, rfl⟩ := Graph.setOutput_eq_ok (StepError.ofGraph_eq_ok.mp hg)
    exact hfill _ _ ha
  | setSum node name left right =>
    obtain ⟨k, -, h⟩ := bind_eq_ok.mp h
    cases hsum : (scope.register left).add? (scope.register right) with
    | none => simp only [hsum] at h; cases h
    | some sum =>
      simp only [hsum] at h
      obtain ⟨g, hg, h⟩ := bind_eq_ok.mp h
      cases pure_eq_ok.mp h
      obtain ⟨-, -, rfl⟩ := Graph.setOutput_eq_ok (StepError.ofGraph_eq_ok.mp hg)
      exact hfill _ _ ha
  | setValue s writer source =>
    obtain ⟨t, -, h⟩ := bind_eq_ok.mp h
    obtain ⟨k, -, h⟩ := bind_eq_ok.mp h
    obtain ⟨g, hg, h⟩ := bind_eq_ok.mp h
    cases pure_eq_ok.mp h
    obtain ⟨-, rfl⟩ := Graph.setValue_eq_ok (StepError.ofGraph_eq_ok.mp hg)
    exact hfill _ _ ha
  | connect node name s =>
    obtain ⟨t, -, h⟩ := bind_eq_ok.mp h
    obtain ⟨k, -, h⟩ := bind_eq_ok.mp h
    obtain ⟨⟨g, records⟩, hg, h⟩ := bind_eq_ok.mp h
    cases pure_eq_ok.mp h
    obtain ⟨inputs, -, rfl⟩ := Graph.connect_eq_ok (StepError.ofGraph_eq_ok.mp hg)
    exact hrewire _ _ ha
  | setInput node name s =>
    obtain ⟨t, -, h⟩ := bind_eq_ok.mp h
    obtain ⟨k, -, h⟩ := bind_eq_ok.mp h
    obtain ⟨⟨g, records⟩, hg, h⟩ := bind_eq_ok.mp h
    cases pure_eq_ok.mp h
    obtain ⟨inputs, -, rfl⟩ := Graph.setInput_eq_ok (StepError.ofGraph_eq_ok.mp hg)
    exact hrewire _ _ ha
  | disconnect node name =>
    obtain ⟨k, -, h⟩ := bind_eq_ok.mp h
    obtain ⟨⟨g, records⟩, hg, h⟩ := bind_eq_ok.mp h
    cases pure_eq_ok.mp h
    obtain ⟨inputs, -, rfl⟩ := Graph.setInput_eq_ok (StepError.ofGraph_eq_ok.mp hg)
    exact hrewire _ _ ha
  | dropNode label | dropSocket label | dropInputs label => cases h; exact ha
  | copyNode node label | copyInputs i label =>
    obtain ⟨_, -, h⟩ := bind_eq_ok.mp h
    cases pure_eq_ok.mp h
    exact ha
  | newInputs label policy names =>
    obtain ⟨_, -, h⟩ := bind_eq_ok.mp h
    cases pure_eq_ok.mp h
    exact ha
  | keepOutput node name label =>
    obtain ⟨_, -, h⟩ := bind_eq_ok.mp h
    obtain ⟨_, -, h⟩ := bind_eq_ok.mp h
    cases pure_eq_ok.mp h
    exact ha
  | keepOwner s label =>
    obtain ⟨_, -, h⟩ := bind_eq_ok.mp h
    split at h
    · cases pure_eq_ok.mp h; exact ha
    · cases pure_eq_ok.mp h; exact ha
  | keepFeeder i name label =>
    obtain ⟨_, -, h⟩ := bind_eq_ok.mp h
    obtain ⟨_, -, h⟩ := bind_eq_ok.mp h
    split at h
    · cases pure_eq_ok.mp h; exact ha
    · cases pure_eq_ok.mp h; exact ha
  | bindInput label name s | bindDynamic label name type s =>
    obtain ⟨_, -, h⟩ := bind_eq_ok.mp h
    obtain ⟨_, -, h⟩ := bind_eq_ok.mp h
    obtain ⟨_, -, h⟩ := bind_eq_ok.mp h
    cases pure_eq_ok.mp h
    exact ha

/-! ## Steps that are left -/

namespace Machine

variable {past : List Machine} {m n : Machine}

/-- The computes in progress, the innermost first, each with the steps that it has left. -/
def plans (m : Machine) : List (NodeId × List Instr) := m.frames.map fun f => (f.node, f.task.todo)

/-- What a move makes of the steps that are left. -/
inductive Replans (m : Machine) : List (NodeId × List Instr) → Prop
  | same : Replans m m.plans
  /-- A step is over. -/
  | next : Replans m (m.plans.modifyHead fun plan => (plan.1, plan.2.tail))
  /-- A branch is taken. -/
  | branch {id : NodeId} {register : String} {is : Value} {yes no chosen steps : List Instr}
      {rest : List (NodeId × List Instr)} :
      m.plans = (id, .branch register is yes no :: steps) :: rest → chosen = yes ∨ chosen = no →
        Replans m ((id, chosen ++ steps) :: rest)
  /-- A compute begins. -/
  | enter {s : Socket} {holding : Option NodeId} : m.Demands s holding →
      m.graph.answer? s = none → Replans m
        ((s.owner, (m.graph.logic s.owner).program (m.graph.calls s.owner + 1)) :: m.plans)
  /-- A compute is over. -/
  | leave : Replans m m.plans.tail

theorem stack_eq_map_plans (m : Machine) : m.stack = m.plans.map (·.1) := by
  simp only [stack, wanted, plans, List.map_map]
  rfl

theorem plans_setTask (t : Task) :
    (m.setTask t).plans = m.plans.modifyHead fun plan => (plan.1, t.todo) := by
  obtain ⟨w, base, frames, control, trace⟩ := m
  cases frames <;> rfl

theorem plans_of_cons {f : Frame} {rest : List Frame} (h : m.frames = f :: rest) :
    m.plans = (f.node, m.task.todo) :: rest.map fun f => (f.node, f.task.todo) := by
  rw [plans, h, task_of_cons h, List.map_cons]

theorem plans_setTask_of_todo {t : Task} (ht : t.todo = m.task.todo) :
    (m.setTask t).plans = m.plans := by
  obtain ⟨w, base, frames, control, trace⟩ := m
  cases frames with
  | nil => rfl
  | cons f rest => exact congrArg (fun todo => (f.node, todo) :: _) ht

theorem plans_setTask_of_tail {t : Task} (ht : t.todo = m.task.todo.tail) :
    (m.setTask t).plans = m.plans.modifyHead fun plan => (plan.1, plan.2.tail) := by
  obtain ⟨w, base, frames, control, trace⟩ := m
  cases frames with
  | nil => rfl
  | cons f rest => exact congrArg (fun todo => (f.node, todo) :: _) ht

/-- A step that is concluded leaves the rest of its task, or ends the compute that it is part of. -/
theorem plans_conclude (action : Action) (attempt : Bool) (result : Result) :
    (m.conclude action attempt result).plans =
        m.plans.modifyHead (fun plan => (plan.1, plan.2.tail)) ∨
      (m.conclude action attempt result).plans = m.plans.tail := by
  have hnext : (m.setTask { m.task with todo := m.task.todo.tail, holding := none }).plans = _ :=
    plans_setTask_of_tail rfl
  cases result with
  | ok reply =>
    rw [conclude_ok]
    exact .inl hnext
  | error e =>
    obtain hc | ⟨-, err, f, rest, -, hf, hc⟩ := conclude_error (m := m) action attempt e
    · rw [hc]
      exact .inl hnext
    · rw [hc, plans_of_cons hf]
      exact .inr rfl

theorem replans_conclude (hn : n.plans = m.plans) (action : Action) (attempt : Bool)
    (result : Result) : m.Replans (n.conclude action attempt result).plans := by
  obtain h | h := plans_conclude (m := n) action attempt result
  · rw [h, hn]
    exact .next
  · rw [h, hn]
    exact .leave

theorem Demands.not_creates_head {s : Socket} {holding : Option NodeId}
    (h : m.Demands s holding) : ∀ i ∈ m.task.todo.head?, ¬ i.Creates := by
  obtain ⟨-, d, into, attempt, rest, ht, -⟩ := h
  rw [ht]
  rintro i ⟨⟩
  exact nofun

/-- A read that begins leaves the steps as they are, or adds those of a compute. -/
theorem Demands.plans_move {s : Socket} {holding : Option NodeId} (h : m.Demands s holding) :
    m.move.plans = m.plans ∨ m.graph.answer? s = none ∧ m.move.plans =
      (s.owner, (m.graph.logic s.owner).program (m.graph.calls s.owner + 1)) :: m.plans := by
  have hhold : (m.setTask { m.task with holding := holding }).plans = m.plans :=
    plans_setTask_of_todo rfl
  rw [move_of_demands h]
  cases ha : m.graph.answer? s with
  | some outcome =>
    obtain ⟨trace, e⟩ := demand_of_answer
      (m := m.setTask { m.task with holding := holding }) (by simpa using ha)
    rw [e]
    exact .inl hhold
  | none =>
    rw [demand_of_no_answer (by simpa using ha)]
    refine .inr ⟨rfl, ?_⟩
    change (s.owner, _) :: (m.setTask { m.task with holding := holding }).plans = _
    rw [hhold, graph_setTask]

theorem replans_perform {action : Action} {attempt : Bool} {rest : List Instr}
    (hr : m.control = .running) (ht : m.task.todo = .act action attempt :: rest) :
    m.Replans m.move.plans := by
  cases hb : action.begin m.scope m.workspace with
  | error e =>
    rw [move_of_error hr ht hb]
    exact replans_conclude rfl _ _ _
  | ok progress =>
    cases progress with
    | done reply w records =>
      rw [move_of_done hr ht hb]
      exact replans_conclude (by rw [tellAll_eq]; rfl) _ _ _
    | demand s holding =>
      have hd := demands_of_begin hr ht hb
      obtain h | ⟨ha, h⟩ := hd.plans_move
      · exact h ▸ .same
      · exact h ▸ .enter hd ha

theorem replans_move (m : Machine) : m.Replans m.move.plans := by
  cases hc : m.control with
  | returned outcome =>
    -- The outcome concludes the step that waits for it; where no step waits, it is passed over.
    by_cases hact : ∃ action attempt rest, m.task.todo = .act action attempt :: rest
    · obtain ⟨action, attempt, rest, ht⟩ := hact
      cases outcome with
      | error e =>
        rw [move_of_failure hc ht]
        exact replans_conclude rfl _ _ _
      | ok v =>
        obtain ⟨t, hk⟩ := exists_keep (m := m) action v
        have htodo : t.todo = m.task.todo := by
          rw [← todo_keep (m := m) action v, hk, task_setTask]
        rw [move_of_value hc ht, hk]
        exact replans_conclude (plans_setTask_of_todo htodo) _ _ _
    · have hnext : (m.setTask { m.task with todo := m.task.todo.tail, holding := none }).plans = _ :=
        plans_setTask_of_tail rfl
      rw [move_of_unawaited hc hact]
      change m.Replans (m.setTask _).plans
      rw [hnext]
      exact .next
  | running =>
    cases ht : m.task.todo with
    | nil =>
      cases hf : m.frames with
      | nil =>
        have hm : m.move = m.settle := by simp only [move, hc, advance, ht, hf]
        exact hm ▸ .same
      | cons f rest =>
        obtain ⟨trace, e⟩ := complete_eq (m := m) f rest
        have hp : m.move.plans = m.plans.tail := by
          rw [move_of_complete hc ht hf, e, plans_of_cons hf]
          rfl
        exact hp ▸ .leave
    | cons i steps =>
      cases i with
      | act action attempt => exact replans_perform hc ht
      | branch register is yes no =>
        rw [move_of_branch hc ht]
        change m.Replans (m.setTask _).plans
        rw [plans_setTask]
        cases hf : m.frames with
        | nil =>
          have hp : m.plans = [] := by rw [plans, hf, List.map_nil]
          have hs := Replans.same (m := m)
          rw [hp] at hs ⊢
          exact hs
        | cons f rest =>
          have hp := plans_of_cons hf
          rw [ht] at hp
          rw [hp]
          exact .branch hp (by split <;> simp)

/-! ## No node comes to life -/

theorem alive_conclude (action : Action) (attempt : Bool) (result : Result) (id : NodeId) :
    (m.conclude action attempt result).graph.alive id = m.graph.alive id := by
  cases result with
  | ok reply =>
    rw [conclude_ok]
    exact congrArg (·.graph.alive id) (m.workspace_setTask _)
  | error e =>
    obtain hc | ⟨-, err, f, rest, -, -, hc⟩ := conclude_error (m := m) action attempt e
    · rw [hc]
      exact congrArg (·.graph.alive id) (m.workspace_setTask _)
    · rw [hc]
      exact Graph.alive_leave _ _ _

/-- A step that is over by itself brings no node to life unless it creates one. -/
theorem alive_of_begin {scope : Scope} {w w' : Workspace} {action : Action} {attempt : Bool}
    {reply : Reply} {records : List Record} {id : NodeId}
    (hn : ¬ (Instr.act action attempt).Creates)
    (hb : action.begin scope w = .ok (.done reply w' records)) (ha : w'.graph.alive id = true) :
    w.graph.alive id = true := by
  cases action with
  | demand d into =>
    obtain ⟨⟨o, h'⟩, -, hb⟩ := bind_eq_ok.mp hb
    cases o with
    | none => cases pure_eq_ok.mp hb; exact ha
    | some t => cases pure_eq_ok.mp hb
  | query q =>
    obtain ⟨⟨r, rs⟩, -, hb⟩ := bind_eq_ok.mp hb
    cases pure_eq_ok.mp hb
    exact ha
  | edit e =>
    obtain ⟨⟨r, w'', rs⟩, hap, hb⟩ := bind_eq_ok.mp hb
    cases pure_eq_ok.mp hb
    exact Edit.alive_of_apply (by rintro label policy logic rfl; exact hn .create) hap ha
  | fail message => obtain ⟨a, -, hb⟩ := bind_eq_ok.mp hb; cases hb

theorem alive_demand (s : Socket) (id : NodeId) :
    (m.demand s).graph.alive id = m.graph.alive id := by
  cases ha : m.graph.answer? s with
  | some outcome =>
    obtain ⟨trace, e⟩ := demand_of_answer ha
    rw [e]
    rfl
  | none =>
    rw [demand_of_no_answer ha]
    exact Graph.alive_enter _ _ _

/-- A move brings no node to life unless the step at the head creates one. -/
theorem alive_of_alive_move {id : NodeId} (hn : ∀ i ∈ m.task.todo.head?, ¬ i.Creates)
    (ha : m.move.graph.alive id = true) : m.graph.alive id = true := by
  -- Deaths come last in a move, so a node that is alive after them was alive before.
  have hsettle {n : Machine} (e : m.move = n.settle) : n.graph.alive id = true := by
    rw [e] at ha
    exact Graph.alive_of_alive_release _ ha
  cases hc : m.control with
  | returned outcome =>
    by_cases hact : ∃ action attempt rest, m.task.todo = .act action attempt :: rest
    · obtain ⟨action, attempt, rest, ht⟩ := hact
      cases outcome with
      | error e => exact (alive_conclude _ _ _ _).symm.trans (hsettle (move_of_failure hc ht))
      | ok v =>
        obtain ⟨t, hk⟩ := exists_keep (m := m) action v
        have hkeep := (alive_conclude _ _ _ _).symm.trans (hsettle (move_of_value hc ht))
        rw [hk, graph_setTask] at hkeep
        exact hkeep
    · exact (congrArg (·.graph.alive id) (m.workspace_setTask _)).symm.trans
        (hsettle (move_of_unawaited hc hact))
  | running =>
    cases ht : m.task.todo with
    | nil =>
      cases hf : m.frames with
      | nil => exact hsettle (by simp only [move, hc, advance, ht, hf])
      | cons f rest =>
        obtain ⟨trace, e⟩ := complete_eq (m := m) f rest
        have hcomplete := hsettle (move_of_complete hc ht hf)
        rw [e] at hcomplete
        exact (Graph.alive_leave _ _ _).symm.trans hcomplete
    | cons i steps =>
      cases i with
      | branch register is yes no =>
        have hbranch := hsettle (move_of_branch hc ht)
        rwa [graph_setTask] at hbranch
      | act action attempt =>
        cases hb : action.begin m.scope m.workspace with
        | error e => exact (alive_conclude _ _ _ _).symm.trans (hsettle (move_of_error hc ht hb))
        | ok progress =>
          cases progress with
          | done reply w records =>
            have hdone := (alive_conclude _ _ _ _).symm.trans (hsettle (move_of_done hc ht hb))
            rw [tellAll_eq] at hdone
            exact alive_of_begin (hn _ (by rw [ht]; rfl)) hb hdone
          | demand s holding =>
            have hd := hsettle (move_of_demands (demands_of_begin hc ht hb))
            rwa [alive_demand, graph_setTask] at hd

/-- A kind that creates nodes is given to a node only when that is created. -/
theorem not_creates_move (hn : ∀ i ∈ m.task.todo.head?, ¬ i.Creates)
    (hlogic : ∀ id, m.graph.alive id = true → ¬ (m.graph.logic id).Creates) {id : NodeId}
    (ha : m.move.graph.alive id = true) : ¬ (m.move.graph.logic id).Creates := by
  have ha' := alive_of_alive_move hn ha
  obtain ⟨node, hnode⟩ : ∃ node, m.graph.node? id = some node := by
    cases hnode : m.graph.node? id with
    | none => simp [Graph.alive, hnode] at ha'
    | some node => exact ⟨node, rfl⟩
  have hkept : m.move.graph.logic id = m.graph.logic id := by
    obtain ⟨node', hn', e⟩ := Option.map_eq_some_iff.mp (shape?_move (Graph.shape?_of_node? hnode))
    simp only [Prod.mk.injEq] at e
    simp [Graph.logic, hnode, hn', e.1]
  rw [hkept]
  exact hlogic id ha'

/-! ## Reads without creations -/

/-- No living node creates nodes, and neither do the computes in progress but for the outermost
`depth` ones. -/
structure Sterile (m : Machine) (depth : Nat) : Prop where
  logic : ∀ id, m.graph.alive id = true → ¬ (m.graph.logic id).Creates
  plans : ∃ inner outer, m.plans = inner ++ outer ∧ outer.length = depth ∧
    ∀ plan ∈ inner, ∀ i ∈ plan.2, ¬ i.Creates

theorem length_plans (m : Machine) : m.plans.length = m.frames.length := List.length_map _

/-- What a move makes of computes that create no nodes, if the new ones create none. -/
theorem Replans.not_creates {plans inner outer : List (NodeId × List Instr)} (h : m.Replans plans)
    (hp : m.plans = inner ++ outer) (hne : inner ≠ [])
    (hin : ∀ plan ∈ inner, ∀ i ∈ plan.2, ¬ i.Creates)
    (hlogic : ∀ id, m.graph.alive id = true → ¬ (m.graph.logic id).Creates) :
    ∃ inner', plans = inner' ++ outer ∧ ∀ plan ∈ inner', ∀ i ∈ plan.2, ¬ i.Creates := by
  obtain ⟨⟨id, steps⟩, inner, rfl⟩ := List.exists_cons_of_ne_nil hne
  have hrest : ∀ plan ∈ inner, ∀ i ∈ plan.2, ¬ i.Creates :=
    fun plan hm => hin plan (List.mem_cons_of_mem _ hm)
  have hsteps : ∀ i ∈ steps, ¬ i.Creates := hin _ List.mem_cons_self
  cases h with
  | same => exact ⟨_, hp, hin⟩
  | next =>
    rw [hp]
    refine ⟨(id, steps.tail) :: inner, rfl, List.forall_mem_cons.mpr ⟨fun i hi => ?_, hrest⟩⟩
    exact hsteps i (List.mem_of_mem_tail hi)
  | branch hb hchosen =>
    -- A step of the chosen branch would make the branch itself one that creates.
    rw [hp, List.cons_append] at hb
    cases hb
    refine ⟨_ :: inner, rfl, List.forall_mem_cons.mpr ⟨fun i hi hc => ?_, hrest⟩⟩
    rcases List.mem_append.mp hi with hi | hi
    · refine hsteps _ List.mem_cons_self ?_
      rcases hchosen with rfl | rfl
      · exact .yes hi hc
      · exact .no hi hc
    · exact hsteps i (List.mem_cons_of_mem _ hi) hc
  | enter hd ha =>
    rw [hp]
    refine ⟨_ :: (id, steps) :: inner, rfl, List.forall_mem_cons.mpr ⟨fun i hi hc => ?_, hin⟩⟩
    exact hlogic _ (Graph.answer?_eq_none_iff.mp ha).2.1 ⟨_, i, hi, hc⟩
  | leave => exact ⟨inner, by rw [hp]; rfl, hrest⟩

namespace Sterile

variable {depth : Nat}

theorem head (h : m.Sterile depth) (hlt : depth < m.frames.length) :
    ∀ i ∈ m.task.todo.head?, ¬ i.Creates := by
  obtain ⟨inner, outer, hp, hlen, hin⟩ := h.plans
  obtain ⟨f, rest, hf⟩ := List.exists_cons_of_length_pos (Nat.zero_lt_of_lt hlt)
  rw [plans_of_cons hf] at hp
  cases inner with
  | nil =>
    have hl := congrArg List.length hp
    rw [hf] at hlt
    simp at hl hlt
    omega
  | cons plan inner =>
    obtain ⟨rfl, -⟩ := List.cons.inj hp
    exact fun i hi => hin _ List.mem_cons_self i (List.mem_of_mem_head? hi)

/-- A move above the depth keeps all sterile. -/
theorem move (h : m.Sterile depth) (hlt : depth < m.frames.length) : m.move.Sterile depth := by
  refine ⟨fun id ha => not_creates_move (h.head hlt) h.logic ha, ?_⟩
  obtain ⟨inner, outer, hp, hlen, hin⟩ := h.plans
  have hne : inner ≠ [] := by
    rintro rfl
    rw [← m.length_plans, hp] at hlt
    simp [hlen] at hlt
  obtain ⟨inner', hp', hin'⟩ := m.replans_move.not_creates hp hne hin h.logic
  exact ⟨inner', outer, hp', hlen, hin'⟩

theorem leads (h : m.Sterile depth) (hl : Leads (fun n => depth < n.frames.length) m n) :
    n.Sterile depth := by
  induction hl with
  | refl => exact h
  | move hlt _ ih => exact ih (h.move hlt)

/-- So no node comes to life. -/
theorem barren (h : m.Sterile depth) : m.Barren depth := fun _ hl hlt _ ha =>
  alive_of_alive_move ((h.leads hl).head hlt) ha

end Sterile

/-- A read by a living node begins without a creation. -/
theorem Demands.sterile {s : Socket} {holding : Option NodeId} (h : m.Demands s holding)
    (hlogic : ∀ id, m.graph.alive id = true → ¬ (m.graph.logic id).Creates) :
    m.move.Sterile m.frames.length := by
  refine ⟨fun id ha => not_creates_move h.not_creates_head hlogic ha, ?_⟩
  obtain hp | ⟨ha, hp⟩ := h.plans_move
  · exact ⟨[], m.plans, hp, m.length_plans, nofun⟩
  · refine ⟨[_], m.plans, hp, m.length_plans, List.forall_mem_singleton.mpr fun i hi hc => ?_⟩
    exact hlogic _ (Graph.answer?_eq_none_iff.mp ha).2.1 ⟨_, i, hi, hc⟩

/-! ## Computes above a read -/

theorem length_stack (m : Machine) : m.stack.length = m.frames.length := by
  simp [stack, wanted]

/-- Moves above some computes leave them in progress. -/
theorem Leads.exists_stack_eq {outer : List NodeId}
    (h : Leads (fun n => outer.length < n.frames.length) m n) (hm : ∃ inner, m.stack = inner ++ outer) :
    ∃ inner, n.stack = inner ++ outer := by
  induction h with
  | refl => exact hm
  | @move m n hlt _ ih =>
    obtain ⟨inner, hs⟩ := hm
    refine ih ?_
    obtain ⟨-, -, -, ⟨-, e, -⟩ | ⟨s, -, -, e, -⟩ | ⟨s, -, e, -⟩⟩ := m.move_cases
    · exact ⟨inner, e.trans hs⟩
    · exact ⟨s.owner :: inner, by rw [e, hs, List.cons_append]⟩
    · rw [hs] at e
      cases inner with
      | nil =>
        rw [← m.length_stack, hs] at hlt
        exact absurd hlt (Nat.lt_irrefl _)
      | cons id inner => exact ⟨inner, (List.cons.inj e).2.symm⟩

/-- The computes that are in progress during a read are those before it and others of living nodes
that were not computing. -/
theorem length_frames_le (h : Run past m) {s : Socket} {holding : Option NodeId}
    (hd : m.Demands s holding)
    (hlogic : ∀ id, m.graph.alive id = true → ¬ (m.graph.logic id).Creates)
    (hl : Leads (fun n => m.frames.length < n.frames.length) m.move n) :
    n.frames.length ≤ m.frames.length + m.graph.spare := by
  have hstack : ∃ inner, m.move.stack = inner ++ m.stack := by
    rw [stack_eq_map_plans, stack_eq_map_plans]
    obtain hp | ⟨-, hp⟩ := hd.plans_move
    · exact ⟨[], by rw [hp, List.nil_append]⟩
    · exact ⟨[s.owner], by rw [hp, List.map_cons, List.singleton_append]⟩
  obtain ⟨inner, hs⟩ := Leads.exists_stack_eq (by simpa only [length_stack] using hl) hstack
  obtain ⟨past', hrun, -⟩ := h.move.leads hl
  have hmir := mirrored hrun
  -- No node computes twice at a time, so the new computes are of others than those before the read.
  have hnd := List.nodup_append.mp (hs ▸ hmir.nodup)
  have hinner : inner ⊆ m.graph.living.filter fun id => !m.graph.computing id := by
    intro id hid
    have ha : m.graph.alive id = true := by
      refine alive_of_alive_move hd.not_creates_head ?_
      refine (hd.sterile hlogic).barren.alive_of_leads hl ?_
      exact hmir.alive id (hs ▸ List.mem_append_left _ hid)
    refine List.mem_filter.mpr ⟨m.graph.mem_living.mpr ha, ?_⟩
    cases hc : m.graph.computing id with
    | false => rfl
    | true => exact absurd rfl (hnd.2.2 id hid id (((mirrored h).computing id).mp hc))
  have hle := (List.subperm_of_subset hnd.1 hinner).length_le
  rw [← n.length_stack, hs, List.length_append, m.length_stack, Nat.add_comm]
  exact Nat.add_le_add_left hle _

end Machine

/-! ## Runs -/

open Machine

variable {past : List Machine} {m : Machine}

/-- Reads come to an end, and do not go deeper than there are living nodes that are not computing. -/
structure Bounded (m : Machine) : Prop where
  /-- A read that begins, in a compute or at the top level, has an outcome. -/
  returns : ∀ s holding, m.Demands s holding → ∃ outcome k, m.Reads s outcome k
  /-- Until it has, no more computes are nested in it than such nodes were there when it began. -/
  depth : ∀ s holding, m.Demands s holding →
    ∀ n, Leads (fun n => m.frames.length < n.frames.length) m.move n →
      n.frames.length ≤ m.frames.length + m.graph.spare
  /-- Every read that a program makes is over within some limit on the moves. -/
  exec : m.idle = true → ∀ d into, ∃ (entry : Entry) (k : Machine) (limit : Nat),
    ∀ more, limit ≤ more → m.exec more (.demand d into) = some (entry, k)

/-- Where the computes of living nodes create no nodes, every read comes to an end, whatever the
wiring. -/
theorem Run.bounded (h : Run past m)
    (hn : ∀ id, m.graph.alive id = true → ¬ (m.graph.logic id).Creates) : Bounded m where
  returns s holding hd := hd.exists_reads h (hd.sterile hn).barren
  depth s holding hd n hl := length_frames_le h hd hn hl
  exec hi d into := by
    by_cases ht : ∃ s holding, d.target ⟨none, 0, .empty⟩ m.workspace = .ok (some s, holding)
    · obtain ⟨s, holding, ht⟩ := ht
      have hd : (m.load (.demand d into)).Demands s holding := demands_of_load hi ht
      obtain ⟨outcome, n, hr⟩ := hd.exists_reads (h.load _ hi) (hd.sterile hn).barren
      obtain ⟨-, -, entry, -, limit, hexec⟩ := exists_exec_of_reads hi hr
      exact ⟨entry, _, limit, hexec⟩
    · obtain ⟨-, -, entry, -, limit, hexec⟩ :=
        exists_exec_of_unread hi into fun s holding e => ht ⟨s, holding, e⟩
      exact ⟨entry, _, limit, hexec⟩

/-- Two sums that read each other, one of which reads itself too. -/
theorem Run.bounded_loops :
    ∃ past m, Run past m ∧ (∀ id, m.graph.alive id = true → ¬ (m.graph.logic id).Creates) ∧
      Bounded m ∧ m.Demands ⟨⟨0⟩, "v"⟩ (some ⟨0⟩) ∧ m.frames.length = 0 ∧ m.graph.spare = 2 ∧
        ∃ n, Leads (fun n => m.frames.length < n.frames.length) m.move n ∧ n.frames.length = 2 := by
  have h₁ := Run.start.load (.edit (.create "a" .identifier .add)) rfl
  have h₂ := h₁.move.load (.edit (.create "b" .identifier .add)) rfl
  have h₃ := h₂.move.load (.edit (.connect (.label "a") "v1" (.output (.label "b") "v"))) rfl
  have h₄ := h₃.move.load (.edit (.connect (.label "a") "v2" (.output (.label "a") "v"))) rfl
  have h₅ := h₄.move.load (.edit (.connect (.label "b") "v1" (.output (.label "a") "v"))) rfl
  have h := h₅.move.load (.demand (.output (.label "a") "v") none) rfl
  refine ⟨_, _, h, ?_⟩
  refine (fun hn => ⟨hn, h.bounded hn, ⟨rfl, _, _, _, _, rfl, rfl⟩, rfl, rfl, _,
    .move Nat.zero_lt_one (.refl _), rfl⟩) fun id ha => Logic.not_creates_of_not_script ?_
  obtain ⟨k⟩ := id
  have hk : k < 2 := Graph.alive_lt _ ha
  rcases k with _ | _ | k
  · rfl
  · rfl
  · omega

end PullGraph
