import PullGraph.Proofs.Binding
import PullGraph.Proofs.Evaluation

/-!
# What a read computes

A read computes what it needs and nothing else.

* `Graph.Draws`: an input of the first node is bound to an unset socket of the second one.
* `ReadsThenSets`, `Logic.Thorough`: steps and nodes that read all their inputs and then set all their
  outputs.
* `Graph.Complete`: the outputs of a node are set, and so is what its inputs are bound to.
* `Evaluates.once`: where thorough nodes come to a value, each of them computes once and is complete
  afterwards.
* `Run.confined`: a read computes nodes within its reach only and changes nothing but their cells; and
  if they are thorough and it yields a value, each of them computes exactly once.
-/

namespace PullGraph

open Relation

/-! ## Thorough nodes -/

/-- A step that sets an output, or fails. -/
inductive Instr.Sets (name : String) : Instr → Prop
  | setOutput {source : Source} {attempt : Bool} :
      Sets name (.act (.edit (.setOutput .self name source)) attempt)
  | setSum {left right : String} : Sets name (.act (.edit (.setSum .self name left right)) false)

/-- Reads of these inputs, none of them an attempt, and then writes of these outputs. -/
inductive ReadsThenSets : List String → List String → List Instr → Prop
  | read {name : String} {inputs outputs : List String} {into : Option String} {rest : List Instr} :
      ReadsThenSets inputs outputs rest →
      ReadsThenSets (name :: inputs) outputs (.act (.demand (.input .self name) into) false :: rest)
  | set {name : String} {outputs : List String} {i : Instr} {rest : List Instr} : i.Sets name →
      ReadsThenSets [] outputs rest → ReadsThenSets [] (name :: outputs) (i :: rest)
  | nil : ReadsThenSets [] [] []

/-- A kind that reads all its inputs in each compute and then sets all its outputs. -/
def Logic.Thorough (logic : Logic) : Prop :=
  ∀ call, ∃ inputs outputs, logic.inputNames ⊆ inputs ∧ logic.outputNames ⊆ outputs ∧
    ReadsThenSets inputs outputs (logic.program call)

theorem ReadsThenSets.own {inputs outputs : List String} {steps : List Instr}
    (h : ReadsThenSets inputs outputs steps) : ∀ i ∈ steps, i.Own fun _ => True := by
  induction h with
  | read _ ih => exact List.forall_mem_cons.mpr ⟨.input trivial, ih⟩
  | set hi _ ih =>
    refine List.forall_mem_cons.mpr ⟨?_, ih⟩
    cases hi with
    | setOutput => exact .setOutput
    | setSum => exact .setSum
  | nil => exact nofun

theorem Logic.Thorough.ownInput {logic : Logic} (h : logic.Thorough) :
    logic.OwnInput fun _ => True := by
  intro call
  obtain ⟨inputs, outputs, -, -, hsteps⟩ := h call
  exact hsteps.own

theorem Logic.thorough_value (v : Value) : (Logic.value v).Thorough := fun _ =>
  ⟨[], ["v"], List.Subset.refl _, List.Subset.refl _, .set .setOutput .nil⟩

theorem Logic.thorough_add : Logic.add.Thorough := fun _ =>
  ⟨["v1", "v2"], ["v"], List.Subset.refl _, List.Subset.refl _, .read (.read (.set .setSum .nil))⟩

/-- A write that is over has filled its cell. -/
theorem Instr.Sets.exists_fill {name : String} {action : Action} {attempt : Bool} {id : NodeId}
    {call : Nat} {registers : Table Value} {w w' : Workspace} {reply : Reply} {records : List Record}
    (h : Instr.Sets name (.act action attempt))
    (hb : action.begin ⟨some id, call, registers⟩ w = .ok (.done reply w' records)) :
    ∃ v, w.graph.Declares ⟨id, name⟩ ∧ w' = w.setGraph (w.graph.fill ⟨id, name⟩ v) := by
  -- A write of an undeclared output is refused, so it would not be over.
  by_cases hd : w.graph.Declares ⟨id, name⟩
  · cases h with
    | setOutput =>
      rw [Action.begin_setOutput (s := ⟨id, name⟩) hd] at hb
      cases hb
      exact ⟨_, hd, rfl⟩
    | @setSum left right =>
      cases hsum : (Scope.register ⟨some id, call, registers⟩ left).add?
          (Scope.register ⟨some id, call, registers⟩ right) with
      | none => rw [Action.begin_setSum_of_none hsum] at hb; cases hb
      | some sum =>
        rw [Action.begin_setSum (s := ⟨id, name⟩) hd hsum] at hb
        cases hb
        exact ⟨_, hd, rfl⟩
  · cases h with
    | setOutput =>
      rw [Action.begin_setOutput_of_not_declares (s := ⟨id, name⟩) hd] at hb
      cases hb
    | @setSum left right =>
      cases hsum : (Scope.register ⟨some id, call, registers⟩ left).add?
          (Scope.register ⟨some id, call, registers⟩ right) with
      | none => rw [Action.begin_setSum_of_none hsum] at hb; cases hb
      | some sum =>
        rw [Action.begin_setSum_of_not_declares (s := ⟨id, name⟩) hd hsum] at hb
        cases hb

/-- An attempt at a write is in vain only if the node does not declare the output. -/
theorem Instr.Sets.not_declares_of_error {name : String} {action : Action} {id : NodeId}
    {call : Nat} {registers : Table Value} {w : Workspace} {e : StepError}
    (h : Instr.Sets name (.act action true))
    (hb : action.begin ⟨some id, call, registers⟩ w = .error e) :
    ¬ w.graph.Declares ⟨id, name⟩ := by
  intro hd
  cases h with
  | setOutput =>
    rw [Action.begin_setOutput (s := ⟨id, name⟩) hd] at hb
    cases hb

namespace Graph

variable (g : Graph)

/-- An input of the first node is bound to an unset socket of the second one, which is alive. -/
def Draws (id other : NodeId) : Prop :=
  ∃ name s, (g.inputs id).get name = .ok (some s) ∧ g.cell? s = none ∧ g.alive s.owner = true ∧
    s.owner = other

/-- All outputs of the node are set, and so is whatever its inputs are bound to. -/
structure Complete (id : NodeId) : Prop where
  inputs : ∀ name s, (g.inputs id).get name = .ok (some s) → g.cell? s ≠ none
  outputs : ∀ name, g.Declares ⟨id, name⟩ → g.cell? ⟨id, name⟩ ≠ none

/-- The node is complete after these steps, if they come to a value. -/
def Completes (id : NodeId) (steps : List Instr) : Prop :=
  ∃ inputs outputs, ReadsThenSets inputs outputs steps ∧
    (∀ name s, (g.inputs id).get name = .ok (some s) → name ∈ inputs ∨ g.cell? s ≠ none) ∧
    ∀ name, g.Declares ⟨id, name⟩ → name ∈ outputs ∨ g.cell? ⟨id, name⟩ ≠ none

end Graph

variable {w w₁ w' : Workspace} {log log' : List NodeId} {id : NodeId} {s : Socket}

/-- The node is of a thorough kind, and has the inputs of that kind. -/
structure Workspace.Thorough (w : Workspace) (id : NodeId) : Prop where
  logic : (w.graph.logic id).Thorough
  names_eq : (w.graph.inputs id).names = (w.graph.logic id).inputNames

theorem Workspace.Grows.thorough (h : w.Grows w') (ht : w.Thorough id) : w'.Thorough id where
  logic := h.logic_eq id ▸ ht.logic
  names_eq := by rw [h.inputs_eq, h.logic_eq, ht.names_eq]

theorem Workspace.Thorough.completes (h : w.Thorough id) (hw : w.Wired) (call : Nat) :
    w.graph.Completes id ((w.graph.logic id).program call) := by
  obtain ⟨inputs, outputs, hi, ho, hsteps⟩ := h.logic call
  refine ⟨inputs, outputs, hsteps, fun name s hg => .inl (hi ?_), fun name hd => .inl (ho ?_)⟩
  · obtain ⟨slot, hs, rfl, -⟩ := Inputs.exists_slot_of_get hg
    exact h.names_eq ▸ List.mem_map_of_mem hs
  · exact hw.names_eq id ▸ Graph.declares_iff.mp hd

theorem Workspace.Grows.complete (h : w.Grows w') (hc : w.graph.Complete id) :
    w'.graph.Complete id where
  inputs name s hg := fun e => hc.inputs name s (h.inputs_eq id ▸ hg) (h.unset s e)
  outputs name hd := fun e => hc.outputs name (h.declares_iff.mp hd) (h.unset _ e)

/-- Each node of the list computed once, and is complete now. -/
structure Once (w : Workspace) (log : List NodeId) (w' : Workspace) : Prop where
  nodup : log.Nodup
  fresh : ∀ id ∈ log, w.graph.busy id = false ∧ ¬ w.graph.Complete id
  complete : ∀ id ∈ log, w'.graph.Complete id

namespace Once

theorem nil (w w' : Workspace) : Once w [] w' := ⟨List.nodup_nil, nofun, nofun⟩

/-- What happens later. -/
theorem append (h : Once w log w₁) (h' : Once w₁ log' w') (ha : w.Advances [] log w₁)
    (hg : w₁.Grows w') : Once w (log ++ log') w' where
  nodup := by
    -- A node that is complete has nothing unset that a read could compute it for.
    refine List.nodup_append.mpr ⟨h.nodup, h'.nodup, fun id hl id' hl' e => ?_⟩
    exact (h'.fresh id' hl').2 (e ▸ h.complete id hl)
  fresh id hid := by
    obtain hl | hl := List.mem_append.mp hid
    · exact h.fresh id hl
    · obtain ⟨hb, hc⟩ := h'.fresh id hl
      refine ⟨?_, fun hcw => hc (ha.grows.complete hcw)⟩
      rw [← hb]
      exact (Bool.eq_iff_iff.mpr (ha.busy_iff_of_read id)).symm
  complete id hid := by
    obtain hl | hl := List.mem_append.mp hid
    · exact hg.complete (h.complete id hl)
    · exact h'.complete id hl

/-- The compute that a read starts is none of those that it waits for. -/
theorem of_compute (h : Once (w.setGraph (w.graph.enter s.owner)) log w')
    (ha : w.graph.answer? s = none) (hd : w.graph.Declares s) (hc : w'.graph.Complete s.owner) :
    Once w (s.owner :: log) w' := by
  have hbusy (id : NodeId) : (w.graph.enter s.owner).busy id =
      (decide (id = s.owner) || w.graph.busy id) :=
    Graph.busy_enter (Graph.answer?_eq_none_iff.mp ha).2.1
  refine ⟨List.nodup_cons.mpr ⟨fun hl => ?_, h.nodup⟩, List.forall_mem_cons.mpr ⟨⟨?_, fun hcw => ?_⟩,
    fun id hl => ⟨?_, fun hcw => ?_⟩⟩, List.forall_mem_cons.mpr ⟨hc, h.complete⟩⟩
  · have hb := (hbusy s.owner).symm.trans (h.fresh _ hl).1
    rw [decide_eq_true rfl] at hb
    cases hb
  · exact Graph.busy_eq_false_of_answer? ha
  · exact hcw.outputs s.name hd (Graph.answer?_eq_none_iff.mp ha).1
  · exact (Bool.or_eq_false_iff.mp ((hbusy id).symm.trans (h.fresh id hl).1)).2
  · exact (h.fresh id hl).2 (((Workspace.Grows.refl w).enter s.owner).complete hcw)

/-- What a step does by itself. -/
theorem of_grows (h : Once w₁ log w') (hg : w.Grows w₁)
    (hb : ∀ id, w₁.graph.busy id = w.graph.busy id) : Once w log w' where
  nodup := h.nodup
  fresh id hl := ⟨hb id ▸ (h.fresh id hl).1, fun hc => (h.fresh id hl).2 (hg.complete hc)⟩
  complete := h.complete

end Once

namespace Graph.Completes

variable {todo : List Instr}

theorem complete (h : w.graph.Completes id []) : w.graph.Complete id := by
  obtain ⟨inputs, outputs, hsteps, hin, hout⟩ := h
  cases hsteps with
  | nil =>
    exact ⟨fun name s hg => (hin name s hg).resolve_left List.not_mem_nil,
      fun name hd => (hout name hd).resolve_left List.not_mem_nil⟩

/-- A read that has yielded a value leaves one input less to read. -/
theorem of_read {name : String} {into : Option String} {t : Socket}
    (h : w.graph.Completes id (.act (.demand (.input .self name) into) false :: todo))
    (hget : (w.graph.inputs id).get name = .ok (some t)) (hg : w.Grows w₁)
    (ht : w₁.graph.cell? t ≠ none) : w₁.graph.Completes id todo := by
  obtain ⟨inputs, outputs, hsteps, hin, hout⟩ := h
  cases hsteps with
  | set hi => cases hi
  | @read name inputs outputs into rest hrest =>
    refine ⟨inputs, outputs, hrest, fun other s ho => ?_, fun other hd => ?_⟩
    · rw [hg.inputs_eq] at ho
      obtain hm | hs := hin other s ho
      · obtain rfl | hm := List.mem_cons.mp hm
        · cases hget.symm.trans ho
          exact .inr ht
        · exact .inl hm
      · exact .inr fun e => hs (hg.unset s e)
    · exact (hout other (hg.declares_iff.mp hd)).imp_right fun hs e => hs (hg.unset _ e)

section Steps

variable {action : Action} {call : Nat} {registers : Table Value}

/-- A write leaves one output less to set, and changes nothing but a cell. -/
theorem of_done {attempt : Bool} {reply : Reply} {records : List Record}
    (h : w.graph.Completes id (.act action attempt :: todo))
    (hb : action.begin ⟨some id, call, registers⟩ w = .ok (.done reply w₁ records)) :
    w₁.graph.Completes id todo ∧ w.Grows w₁ ∧ ∀ other, w₁.graph.busy other = w.graph.busy other := by
  obtain ⟨inputs, outputs, hsteps, hin, hout⟩ := h
  cases hsteps with
  | @read input =>
    rw [Action.begin_input] at hb
    rcases hg : (w.graph.inputs id).get input with e | _ | t <;> rw [hg] at hb <;> cases hb
  | @set name outputs _ _ hi hrest =>
    obtain ⟨v, hd, rfl⟩ := hi.exists_fill hb
    have hg := (Workspace.Grows.refl w).fill hd v
    refine ⟨⟨[], outputs, hrest, fun input s ho => ?_, fun output ho => ?_⟩, hg,
      fun other => Graph.busy_fill _ _⟩
    · rw [hg.inputs_eq] at ho
      exact (hin input s ho).imp_right fun hs e => hs (hg.unset s e)
    · obtain hm | hs := hout output (hg.declares_iff.mp ho)
      · obtain rfl | hm := List.mem_cons.mp hm
        · refine .inr ?_
          change (w.graph.fill ⟨id, output⟩ v).cell? ⟨id, output⟩ ≠ none
          rw [Graph.cell?_fill _ _ hd, if_pos rfl]
          exact Option.some_ne_none v
        · exact .inl hm
      · exact .inr fun e => hs (hg.unset _ e)

/-- A write that is in vain was not needed. -/
theorem of_skip {e : StepError} (h : w.graph.Completes id (.act action true :: todo))
    (hb : action.begin ⟨some id, call, registers⟩ w = .error e) : w.graph.Completes id todo := by
  obtain ⟨inputs, outputs, hsteps, hin, hout⟩ := h
  cases hsteps with
  | @set name outputs _ _ hi hrest =>
    refine ⟨[], outputs, hrest, hin, fun output ho => (hout output ho).imp_left fun hm => ?_⟩
    obtain rfl | hm := List.mem_cons.mp hm
    · exact absurd ho (hi.not_declares_of_error hb)
    · exact hm

theorem of_demand {d : Demand} {into : Option String} {attempt : Bool}
    (h : w.graph.Completes id (.act (.demand d into) attempt :: todo)) :
    attempt = false ∧ ∃ name, d = .input .self name := by
  obtain ⟨inputs, outputs, hsteps, -⟩ := h
  cases hsteps with
  | read => exact ⟨rfl, _, rfl⟩
  | set hi => cases hi

end Steps

end Graph.Completes

/-! ## Reads of thorough nodes -/

/-- All computes of the job are complete, and so is the node that it is over with. -/
def Finishes (w : Workspace) (job : Job) (log : List NodeId) (w' : Workspace) : Prop :=
  match job with
  | .read s => w.graph.Declares s → Once w log w'
  | .steps s _ _ todo => w.graph.Completes s.owner todo →
    Once w log w' ∧ w'.graph.Complete s.owner

/-- Where all computes are of thorough nodes and the outcome is a value, no node computes twice. -/
theorem Evaluates.once {job : Job} {outcome : Except GraphError Value}
    (h : Evaluates w job log outcome w') (hv : ∃ v, outcome = .ok v) (hw : w.Wired)
    (ht : ∀ id ∈ log, w.Thorough id) : Finishes w job log w' := by
  -- Along the steps of a compute those that are left set whatever is still unset, so that at the
  -- end the node is complete. Branches and attempts do not occur in such steps.
  induction h with
  | answer => exact fun _ => .nil _ _
  | @compute w w' s log outcome ha he ih =>
    intro hd
    have hg := (Workspace.Grows.refl w).enter s.owner
    obtain ⟨hself, hlog⟩ := List.forall_mem_cons.mp ht
    have hcompletes := (hg.thorough hself).completes (hg.wired hw) (w.graph.calls s.owner + 1)
    rw [hg.logic_eq] at hcompletes
    obtain ⟨honce, hcomplete⟩ := ih hv (hg.wired hw) (fun id hid => hg.thorough (hlog id hid))
      hcompletes
    exact honce.of_compute ha hd hcomplete
  | @finish w s =>
    exact fun hc => ⟨.nil _ _, ((Workspace.Grows.refl w).leave s.owner).complete hc.complete⟩
  | branch =>
    rintro ⟨inputs, outputs, hsteps, -⟩
    cases hsteps with
    | set hi => cases hi
  | done hb he ih =>
    intro hc
    obtain ⟨hc', hg, hbusy⟩ := hc.of_done hb.begin_eq
    obtain ⟨honce, hcomplete⟩ := ih hv (hg.wired hw) (fun id hid => hg.thorough (ht id hid)) hc'
    exact ⟨honce.of_grows hg hbusy, hcomplete⟩
  | skip hb _ ih => exact fun hc => ih hv hw ht (hc.of_skip hb.begin_eq)
  | stop | fail =>
    obtain ⟨v, hv⟩ := hv
    cases hv
  | value hb he he' ih ih' =>
    intro hc
    obtain ⟨rfl, input, rfl⟩ := hc.of_demand
    obtain ⟨hlog, hlog'⟩ := List.forall_mem_append.mp ht
    have hget := Action.get_of_begin hb.begin_eq
    have hg := he.advances.grows
    have honce := ih ⟨_, rfl⟩ hw hlog (hw.bound _ _ (Inputs.mem_values_of_get hget))
    obtain ⟨honce', hcomplete⟩ := ih' hv (hg.wired hw) (fun id hid => hg.thorough (hlog' id hid))
      (hc.of_read hget hg (he.cell?_eq ▸ Option.some_ne_none _))
    exact ⟨honce.append honce' he.advances he'.advances.grows, hcomplete⟩
  | swallow =>
    intro hc
    obtain ⟨hattempt, -⟩ := hc.of_demand
    cases hattempt

theorem Evaluates.mem_log {outcome : Except GraphError Value}
    (h : Evaluates w (.read s) log outcome w') (ha : w.graph.answer? s = none) : s.owner ∈ log := by
  cases h with
  | answer hans => cases ha.symm.trans hans
  | compute => exact List.mem_cons_self

/-- Where a node computed, everything that it draws from did. -/
theorem Once.mem_of_draws (h : Once w log w') (ha : w.Advances [] log w') {root : NodeId}
    (hroot : root ∈ log) (hr : ReflTransGen w.graph.Draws root id) : id ∈ log := by
  induction hr with
  | refl => exact hroot
  | tail _ hdraws ih =>
    obtain ⟨name, t, hg, hc, -, rfl⟩ := hdraws
    -- Otherwise the socket is unset still, though the node that draws from it is complete.
    by_contra hn
    exact (h.complete _ ih).inputs name t (ha.grows.inputs_eq _ ▸ hg)
      ((ha.cell?_eq t List.not_mem_nil hn).trans hc)

/-! ## Runs -/

open Machine

variable {past : List Machine} {m : Machine}

/-- What a node draws from is alive if the node is. -/
theorem Graph.alive_of_draws {g : Graph} {root : NodeId} (ha : g.alive root = true)
    (hr : ReflTransGen g.Draws root id) : g.alive id = true := by
  obtain rfl | ⟨_, -, name, s, -, -, hs, rfl⟩ := hr.cases_tail
  · exact ha
  · exact hs

/-- What a node draws from is closed under dependencies. -/
theorem closed_of_draws {root : NodeId}
    (ho : ∀ id, w.graph.alive id = true → (w.graph.logic id).OwnInput fun _ => True)
    (ha : w.graph.alive root = true) : w.Closed fun id => ReflTransGen w.graph.Draws root id where
  own id hr := ho id (Graph.alive_of_draws ha hr)
  bound _ name s hr hg hc hs := hr.tail ⟨name, s, hg, hc, hs, rfl⟩

/-- A read about a socket of `root` computes the nodes that `root` draws from, and nothing else
changes. -/
structure Confined (m : Machine) (root : NodeId) (entry : Entry) (k : Machine) : Prop where
  calls_eq : ∀ id, ¬ ReflTransGen m.graph.Draws root id → k.graph.calls id = m.graph.calls id
  cell?_eq : ∀ s : Socket, ¬ ReflTransGen m.graph.Draws root s.owner →
    k.graph.cell? s = m.graph.cell? s
  inputs_eq : ∀ id, k.graph.inputs id = m.graph.inputs id
  alive_eq : ∀ id, k.graph.alive id = m.graph.alive id
  handles_eq : k.workspace.handles = m.workspace.handles
  nextId_eq : k.graph.nextId = m.graph.nextId
  busy_eq : ∀ id, k.graph.busy id = m.graph.busy id
  /-- If these nodes are thorough and the read yields a value, each of them computes once. -/
  once : (∀ id, ReflTransGen m.graph.Draws root id → (m.graph.logic id).Thorough) →
    (∃ v, entry.result = .ok (.value v)) →
      ∀ id, ReflTransGen m.graph.Draws root id → k.graph.calls id = m.graph.calls id + 1

/-- While all living nodes have own steps only, the read of an unset socket of a living node computes
what that node draws from, and nothing else. -/
theorem Run.confined (h : Run past m) (hi : m.idle = true)
    (ho : ∀ id, m.graph.alive id = true → (m.graph.logic id).OwnInput fun _ => True) {d : Demand}
    (into : Option String) {s : Socket} {holding : Option NodeId}
    (ht : d.target ⟨none, 0, .empty⟩ m.workspace = .ok (some s, holding))
    (hc : m.graph.cell? s = none) (ha : m.graph.alive s.owner = true) :
    ∃ (entry : Entry) (k : Machine),
      (∃ limit, ∀ more, limit ≤ more → m.exec more (.demand d into) = some (entry, k)) ∧
        Confined m s.owner entry k := by
  obtain ⟨log, outcome, w', he, hlog⟩ :=
    (closed_of_draws (w := m.workspace) ho ha).yields_read (s := s) fun _ => .refl
  obtain ⟨entry, k, hentry, -, -, rfl, hexec⟩ := exists_exec_of_evaluates h hi into ht he
  have hadv := he.advances
  refine ⟨entry, k, hexec, fun id hid => ?_, fun t hid => ?_, hadv.grows.inputs_eq,
    hadv.grows.alive_eq, hadv.grows.handles_eq, congrArg NodeId.mk hadv.size_eq,
    fun id => Bool.eq_iff_iff.mpr (hadv.busy_iff_of_read id), fun hthorough ⟨v, hv⟩ id hid => ?_⟩
  · exact (hadv.calls_eq id).trans (by rw [List.count_eq_zero_of_not_mem (mt (hlog id) hid)]; rfl)
  · exact hadv.cell?_eq t List.not_mem_nil (mt (hlog t.owner) hid)
  · have hok : ∃ v, outcome = .ok v := by
      cases outcome with
      | ok u => exact ⟨u, rfl⟩
      | error e => rw [hentry] at hv; cases hv
    have hd : (m.load (.demand d into)).Demands s holding := demands_of_load hi ht
    have honce : Once m.workspace log k.workspace := he.once hok (wired h)
      (fun id hl => ⟨hthorough id (hlog id hl),
        (names_inputs_eq h (Graph.alive_of_draws ha (hlog id hl))).1⟩)
      (hd.declares (wired (h.load _ hi)))
    have hroot : s.owner ∈ log := he.mem_log
      (Graph.answer?_eq_none_iff.mpr ⟨hc, ha, computing_of_idle h hi s.owner⟩)
    -- No node computes twice, and all that the root draws from does compute, as the root does.
    refine (hadv.calls_eq id).trans (congrArg (m.graph.calls id + ·) ?_)
    exact List.count_eq_one_of_mem honce.nodup (honce.mem_of_draws hadv hroot hid)

/-- A sum of two sums that read one constant: each of the four nodes computes once. -/
theorem Run.confined_diamond :
    ∃ past m, Run past m ∧ m.idle = true ∧
      ∃ (entry : Entry) (k : Machine),
        (∃ limit, ∀ more, limit ≤ more →
          m.exec more (.demand (.output (.label "top") "v") none) = some (entry, k)) ∧
        Confined m ⟨3⟩ entry k ∧ entry.result = .ok (.value (.ofInt 20)) ∧
        (m.graph.calls ⟨0⟩ = 0 ∧ k.graph.calls ⟨0⟩ = 1) ∧
        (m.graph.calls ⟨3⟩ = 0 ∧ k.graph.calls ⟨3⟩ = 1) := by
  have h₁ := Run.start.load (.edit (.create "five" .identifier (.value (.ofInt 5)))) rfl
  have h₂ := h₁.move.load (.edit (.create "left" .identifier .add)) rfl
  have h₃ := h₂.move.load (.edit (.create "right" .identifier .add)) rfl
  have h₄ := h₃.move.load (.edit (.create "top" .identifier .add)) rfl
  have h₅ := h₄.move.load (.edit (.connect (.label "left") "v1" (.output (.label "five") "v"))) rfl
  have h₆ := h₅.move.load (.edit (.connect (.label "left") "v2" (.output (.label "five") "v"))) rfl
  have h₇ := h₆.move.load (.edit (.connect (.label "right") "v1" (.output (.label "five") "v"))) rfl
  have h₈ := h₇.move.load (.edit (.connect (.label "right") "v2" (.output (.label "five") "v"))) rfl
  have h₉ := h₈.move.load (.edit (.connect (.label "top") "v1" (.output (.label "left") "v"))) rfl
  have h := (h₉.move.load
    (.edit (.connect (.label "top") "v2" (.output (.label "right") "v"))) rfl).move
  have ht := h.forall_alive (P := Logic.Thorough) fun k hk => by
    have hk : k < 4 := hk
    rcases k with _ | _ | _ | _ | k
    · exact Logic.thorough_value _
    · exact Logic.thorough_add
    · exact Logic.thorough_add
    · exact Logic.thorough_add
    · omega
  obtain ⟨entry, k, ⟨limit, hexec⟩, hconfined⟩ := h.confined rfl
    (fun id ha => (ht id ha).ownInput) (d := .output (.label "top") "v") none
    (s := ⟨⟨3⟩, "v"⟩) rfl rfl rfl
  have hresult : entry.result = .ok (.value (.ofInt 20)) :=
    result_eq_of_exec 60 (hexec limit (Nat.le_refl _)) rfl
  have honce := hconfined.once (fun id hr => ht id (Graph.alive_of_draws rfl hr))
    ⟨_, hresult⟩
  refine ⟨_, _, h, rfl, entry, k, ⟨limit, hexec⟩, hconfined, hresult, ⟨rfl, honce ⟨0⟩ ?_⟩, rfl,
    honce ⟨3⟩ .refl⟩
  exact .tail (.single ⟨"v1", ⟨⟨1⟩, "v"⟩, rfl, rfl, rfl, rfl⟩)
    ⟨"v1", ⟨⟨0⟩, "v"⟩, rfl, rfl, rfl, rfl⟩

end PullGraph
