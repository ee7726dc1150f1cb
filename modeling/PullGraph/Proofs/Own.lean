import PullGraph.Proofs.Wiring

/-!
# Steps that leave the wiring alone

A node that reads its own inputs and writes its own outputs, and does nothing else, changes no
binding and no life.

* `Instr.Own`, `Logic.OwnInput`: steps and nodes of that kind.
* `Instr.Own.begin_cases`: how such a step begins. It is refused, or it fills a cell of the node, or
  it reads a socket that an input of the node is bound to. `Instr.Own.begin_agree` adds that all of
  this depends on the record of the node.
* `Workspace.Grows`: a workspace in which only cells were filled since.
-/

namespace PullGraph

/-! ## Own steps -/

/-- A step that reads an input of the computing node, one of `reads`, or writes an output of that
node, or a choice between such steps. -/
inductive Instr.Own (reads : String → Prop) : Instr → Prop
  | input {name : String} {into : Option String} {attempt : Bool} : reads name →
      Own reads (.act (.demand (.input .self name) into) attempt)
  | optionalInput {name : String} {into : Option String} {attempt : Bool} : reads name →
      Own reads (.act (.demand (.optionalInput .self name) into) attempt)
  | setOutput {name : String} {source : Source} {attempt : Bool} :
      Own reads (.act (.edit (.setOutput .self name source)) attempt)
  | setSum {name left right : String} {attempt : Bool} :
      Own reads (.act (.edit (.setSum .self name left right)) attempt)
  | branch {register : String} {is : Value} {yes no : List Instr} :
      (∀ i ∈ yes, Own reads i) → (∀ i ∈ no, Own reads i) →
      Own reads (.branch register is yes no)

/-- All steps of all computes of the kind are own steps. -/
def Logic.OwnInput (reads : String → Prop) (logic : Logic) : Prop :=
  ∀ call, ∀ i ∈ logic.program call, i.Own reads

theorem Instr.Own.mono {reads reads' : String → Prop} {i : Instr} (h : i.Own reads)
    (hr : ∀ name, reads name → reads' name) : i.Own reads' := by
  induction h with
  | input hn => exact .input (hr _ hn)
  | optionalInput hn => exact .optionalInput (hr _ hn)
  | setOutput => exact .setOutput
  | setSum => exact .setSum
  | branch _ _ hyes hno => exact .branch hyes hno

namespace Logic

/-- All kinds but scripts have own steps, which read declared inputs. -/
theorem ownInput_of_not_script {logic : Logic} (h : logic.isScript = false) :
    logic.OwnInput (· ∈ logic.inputNames) := by
  intro call i hi
  cases logic with
  | value v =>
    obtain rfl := List.mem_singleton.mp hi
    exact .setOutput
  | add =>
    simp only [program, List.mem_cons, List.not_mem_nil, or_false] at hi
    rcases hi with rfl | rfl | rfl
    · exact .input List.mem_cons_self
    · exact .input (List.mem_cons_of_mem _ List.mem_cons_self)
    · exact .setSum
  | bare | sink | hollow => cases hi
  | script => cases h

/-- So has a script if all its steps are own steps. -/
theorem ownInput_script {reads : String → Prop} {inputs outputs : List String} {typeName : String}
    {programs : List (List Instr)} (h : ∀ steps ∈ programs, ∀ i ∈ steps, i.Own reads) :
    (Logic.script inputs outputs typeName programs).OwnInput reads := by
  intro call i hi
  simp only [program] at hi
  cases hc : programs[call - 1]? with
  | some steps =>
    rw [hc] at hi
    exact h steps (List.mem_of_getElem? hc) i hi
  | none =>
    rw [hc] at hi
    cases hl : programs.getLast? with
    | none => rw [hl] at hi; cases hi
    | some steps =>
      rw [hl] at hi
      exact h steps (List.mem_of_getLast? hl) i hi

end Logic

/-! ## How own steps begin -/

theorem Graph.setOutput_of_not_declares {g : Graph} {s : Socket} (h : ¬ g.Declares s) {v : Value} :
    g.setOutput s.owner s.name v = .error (.unknownKey s.name) := by
  have ho : g.output s.owner s.name = .error (.unknownKey s.name) := by
    rw [Graph.declares_iff, ← Outputs.isSome_find?_iff] at h
    simp only [Graph.output, h]
    rfl
  rw [Graph.setOutput, ho]
  rfl

namespace Action

variable {id : NodeId} {s : Socket} {call : Nat} {registers : Table Value} {w : Workspace}

/-- How the read of an input begins inside a compute. -/
theorem begin_input {input : String} {into : Option String} :
    (Action.demand (.input .self input) into).begin ⟨some id, call, registers⟩ w =
      match (w.graph.inputs id).get input with
      | .error e => .error (.graph e)
      | .ok none => .error (.graph (.unconnectedInput id input))
      | .ok (some t) => .ok (.demand t (some id)) := by
  simp only [Action.begin, Demand.target, Scope.node, Scope.current, bind, Except.bind]
  rcases (w.graph.inputs id).get input with e | _ | t <;> rfl

theorem get_of_begin {input : String} {into : Option String} {t : Socket} {holding : Option NodeId}
    (hb : (Action.demand (.input .self input) into).begin ⟨some id, call, registers⟩ w =
      .ok (.demand t holding)) : (w.graph.inputs id).get input = .ok (some t) := by
  rw [begin_input] at hb
  rcases hg : (w.graph.inputs id).get input with e | _ | u <;> rw [hg] at hb <;> cases hb
  rfl

/-- An optional input without a binding is no failure. -/
theorem begin_optionalInput {input : String} {into : Option String} :
    (Action.demand (.optionalInput .self input) into).begin ⟨some id, call, registers⟩ w =
      match (w.graph.inputs id).get input with
      | .error e => .error (.graph e)
      | .ok none => .ok (.done .nothing w [])
      | .ok (some t) => .ok (.demand t (some id)) := by
  simp only [Action.begin, Demand.target, Scope.node, Scope.current, bind, Except.bind]
  rcases (w.graph.inputs id).get input with e | _ | t <;> rfl

/-- How the write of an output begins inside a compute. -/
theorem begin_setOutput {source : Source} (hd : w.graph.Declares s) :
    (Action.edit (.setOutput .self s.name source)).begin ⟨some s.owner, call, registers⟩ w =
      .ok (.done .nothing (w.setGraph (w.graph.fill s
        (Scope.source ⟨some s.owner, call, registers⟩ source))) []) := by
  simp only [Action.begin, Edit.apply, Scope.node, Scope.current, bind, Except.bind,
    Graph.setOutput_of_declares hd]
  rfl

theorem begin_setOutput_of_not_declares {source : Source} (hd : ¬ w.graph.Declares s) :
    (Action.edit (.setOutput .self s.name source)).begin ⟨some s.owner, call, registers⟩ w =
      .error (.graph (.unknownKey s.name)) := by
  simp only [Action.begin, Edit.apply, Scope.node, Scope.current, bind, Except.bind,
    Graph.setOutput_of_not_declares hd]
  rfl

section Sum

variable {name left right : String}

/-- How the write of a sum begins inside a compute. -/
theorem begin_setSum (hd : w.graph.Declares s) {sum : Value}
    (hsum : (Scope.register ⟨some s.owner, call, registers⟩ left).add?
      (Scope.register ⟨some s.owner, call, registers⟩ right) = some sum) :
    (Action.edit (.setSum .self s.name left right)).begin ⟨some s.owner, call, registers⟩ w =
      .ok (.done .nothing (w.setGraph (w.graph.fill s sum)) []) := by
  simp only [Action.begin, Edit.apply, Scope.node, Scope.current, bind, Except.bind, hsum,
    Graph.setOutput_of_declares hd]
  rfl

theorem begin_setSum_of_not_declares (hd : ¬ w.graph.Declares s) {sum : Value}
    (hsum : (Scope.register ⟨some s.owner, call, registers⟩ left).add?
      (Scope.register ⟨some s.owner, call, registers⟩ right) = some sum) :
    (Action.edit (.setSum .self s.name left right)).begin ⟨some s.owner, call, registers⟩ w =
      .error (.graph (.unknownKey s.name)) := by
  simp only [Action.begin, Edit.apply, Scope.node, Scope.current, bind, Except.bind, hsum,
    Graph.setOutput_of_not_declares hd]
  rfl

theorem begin_setSum_of_none
    (hsum : (Scope.register ⟨some id, call, registers⟩ left).add?
      (Scope.register ⟨some id, call, registers⟩ right) = none) :
    (Action.edit (.setSum .self name left right)).begin ⟨some id, call, registers⟩ w =
      .error (.graph (.computeFailed id
        ("cannot add " ++ (Scope.register ⟨some id, call, registers⟩ left).text ++ " and " ++
          (Scope.register ⟨some id, call, registers⟩ right).text))) := by
  simp only [Action.begin, Edit.apply, Scope.node, Scope.current, bind, Except.bind, hsum]
  rfl

end Sum

end Action

namespace Instr.Own

variable {reads : String → Prop} {attempt : Bool} {id : NodeId} {call : Nat}
  {registers : Table Value} {w w' : Workspace}

theorem of_branch {register : String} {is : Value} {yes no : List Instr}
    (h : Instr.Own reads (.branch register is yes no)) :
    (∀ i ∈ yes, i.Own reads) ∧ ∀ i ∈ no, i.Own reads := by
  cases h with
  | branch hyes hno => exact ⟨hyes, hno⟩

/-- The steps after a choice are own steps. -/
theorem of_chosen {register : String} {is : Value} {yes no todo : List Instr}
    (h : Instr.Own reads (.branch register is yes no)) (ht : ∀ i ∈ todo, i.Own reads) (c : Bool) :
    ∀ i ∈ (if c then yes else no) ++ todo, i.Own reads := by
  obtain ⟨hyes, hno⟩ := h.of_branch
  intro i hi
  rcases List.mem_append.mp hi with hi | hi
  · cases c with
    | true => exact hyes i hi
    | false => exact hno i hi
  · exact ht i hi

/-- A read of an own step is about a bound input. -/
theorem exists_get {d : Demand} {into : Option String} {s : Socket} {holding : Option NodeId}
    (h : Instr.Own reads (.act (.demand d into) attempt))
    (ht : d.target ⟨some id, call, registers⟩ w = .ok (some s, holding)) :
    ∃ name, reads name ∧ (w.graph.inputs id).get name = .ok (some s) := by
  cases h with
  | @input name _ _ hn =>
    obtain ⟨k, hk, ht⟩ := bind_eq_ok.mp ht
    cases hk
    obtain ⟨t, hg, ht⟩ := bind_eq_ok.mp ht
    cases t with
    | none => cases ht
    | some t => cases pure_eq_ok.mp ht; exact ⟨name, hn, StepError.ofGraph_eq_ok.mp hg⟩
  | @optionalInput name _ _ hn =>
    obtain ⟨k, hk, ht⟩ := bind_eq_ok.mp ht
    cases hk
    obtain ⟨t, hg, ht⟩ := bind_eq_ok.mp ht
    cases pure_eq_ok.mp ht
    exact ⟨name, hn, StepError.ofGraph_eq_ok.mp hg⟩

/-- It is refused at once if the input is not declared, or not connected. -/
theorem exists_get_of_error {d : Demand} {into : Option String} {e : GraphError}
    (h : Instr.Own reads (.act (.demand d into) attempt))
    (ht : d.target ⟨some id, call, registers⟩ w = .error (.graph e)) :
    ∃ name, reads name ∧ ((w.graph.inputs id).get name = .error e ∨
      (w.graph.inputs id).get name = .ok none ∧ e = .unconnectedInput id name) := by
  cases h with
  | @input name _ _ hn =>
    refine ⟨name, hn, ?_⟩
    simp only [Demand.target, Scope.node, Scope.current, bind, Except.bind] at ht
    rcases hg : (w.graph.inputs id).get name with err | _ | t
    · rw [hg] at ht; cases ht; exact .inl rfl
    · rw [hg] at ht; cases ht; exact .inr ⟨rfl, rfl⟩
    · rw [hg] at ht; cases ht
  | @optionalInput name _ _ hn =>
    refine ⟨name, hn, ?_⟩
    simp only [Demand.target, Scope.node, Scope.current, bind, Except.bind] at ht
    rcases hg : (w.graph.inputs id).get name with err | t
    · rw [hg] at ht; cases ht; exact .inl rfl
    · rw [hg] at ht; cases ht

/-- A write of an own step fills a cell of the node. -/
theorem exists_fill {action : Action} {reply : Reply} {records : List Record}
    (h : Instr.Own reads (.act action attempt))
    (hb : action.begin ⟨some id, call, registers⟩ w = .ok (.done reply w' records)) :
    w' = w ∨ ∃ s v, s.owner = id ∧ w.graph.Declares s ∧ w' = w.setGraph (w.graph.fill s v) := by
  cases h with
  | input | optionalInput =>
    obtain ⟨⟨t, holding⟩, -, hb⟩ := bind_eq_ok.mp hb
    cases t with
    | none => cases pure_eq_ok.mp hb; exact .inl rfl
    | some t => cases pure_eq_ok.mp hb
  | @setOutput name source =>
    obtain ⟨⟨r, w'', rs⟩, ha, hb⟩ := bind_eq_ok.mp hb
    cases pure_eq_ok.mp hb
    obtain ⟨k, hk, ha⟩ := bind_eq_ok.mp ha
    cases hk
    obtain ⟨g, hg, ha⟩ := bind_eq_ok.mp ha
    cases pure_eq_ok.mp ha
    obtain ⟨-, hd, rfl⟩ := Graph.setOutput_eq_ok (StepError.ofGraph_eq_ok.mp hg)
    exact .inr ⟨⟨id, name⟩, _, rfl, hd, rfl⟩
  | @setSum name left right =>
    obtain ⟨⟨r, w'', rs⟩, ha, hb⟩ := bind_eq_ok.mp hb
    cases pure_eq_ok.mp hb
    obtain ⟨k, hk, ha⟩ := bind_eq_ok.mp ha
    cases hk
    cases hsum : (Scope.register ⟨some id, call, registers⟩ left).add?
        (Scope.register ⟨some id, call, registers⟩ right) with
    | none => simp only [hsum] at ha; cases ha
    | some sum =>
      simp only [hsum] at ha
      obtain ⟨g, hg, ha⟩ := bind_eq_ok.mp ha
      cases pure_eq_ok.mp ha
      obtain ⟨-, hd, rfl⟩ := Graph.setOutput_eq_ok (StepError.ofGraph_eq_ok.mp hg)
      exact .inr ⟨⟨id, name⟩, _, rfl, hd, rfl⟩

theorem setOutput_eq_error {g : Graph} {name : String} {v : Value} {e : StepError}
    (h : StepError.ofGraph (g.setOutput id name v) = .error e) : e = .graph (.unknownKey name) := by
  by_cases hd : g.Declares ⟨id, name⟩
  · rw [show g.setOutput id name v = _ from Graph.setOutput_of_declares hd v] at h
    cases h
  · rw [show g.setOutput id name v = _ from Graph.setOutput_of_not_declares hd] at h
    cases h
    rfl

/-- A write of an own step is refused for its name or for its operands. -/
theorem eq_of_error {action : Action} {e : GraphError}
    (h : Instr.Own reads (.act action attempt)) (hn : ∀ d into, action ≠ .demand d into)
    (hb : action.begin ⟨some id, call, registers⟩ w = .error (.graph e)) :
    (∃ key, e = .unknownKey key) ∨ ∃ message, e = .computeFailed id message := by
  cases h with
  | input | optionalInput => exact absurd rfl (hn _ _)
  | @setOutput name source =>
    simp only [Action.begin, Edit.apply, Scope.node, Scope.current, bind, Except.bind] at hb
    cases hs : StepError.ofGraph
        (w.graph.setOutput id name (Scope.source ⟨some id, call, registers⟩ source)) with
    | error err =>
      obtain rfl := setOutput_eq_error hs
      rw [hs] at hb
      cases hb
      exact .inl ⟨name, rfl⟩
    | ok g => rw [hs] at hb; cases hb
  | @setSum name left right =>
    simp only [Action.begin, Edit.apply, Scope.node, Scope.current, bind, Except.bind] at hb
    cases hsum : (Scope.register ⟨some id, call, registers⟩ left).add?
        (Scope.register ⟨some id, call, registers⟩ right) with
    | none => rw [hsum] at hb; cases hb; exact .inr ⟨_, rfl⟩
    | some sum =>
      simp only [hsum] at hb
      cases hs : StepError.ofGraph (w.graph.setOutput id name sum) with
      | error err =>
        obtain rfl := setOutput_eq_error hs
        rw [hs] at hb
        cases hb
        exact .inl ⟨name, rfl⟩
      | ok g => rw [hs] at hb; cases hb

/-- How an own step begins depends on the record of its node only: it is refused, or it is over and
has filled a cell of the node or nothing, or it reads a bound input. -/
theorem begin_agree {action : Action} (h : Instr.Own reads (.act action attempt))
    (hn : w'.graph.node? id = w.graph.node? id) (call : Nat) (registers : Table Value) :
    (∃ e, action.begin ⟨some id, call, registers⟩ w = .error (.graph e) ∧
      action.begin ⟨some id, call, registers⟩ w' = .error (.graph e)) ∨
    (action.begin ⟨some id, call, registers⟩ w = .ok (.done .nothing w []) ∧
      action.begin ⟨some id, call, registers⟩ w' = .ok (.done .nothing w' [])) ∨
    (∃ s v, s.owner = id ∧ w.graph.Declares s ∧
      action.begin ⟨some id, call, registers⟩ w =
        .ok (.done .nothing (w.setGraph (w.graph.fill s v)) []) ∧
      action.begin ⟨some id, call, registers⟩ w' =
        .ok (.done .nothing (w'.setGraph (w'.graph.fill s v)) [])) ∨
    ∃ d into name t, action = .demand d into ∧ reads name ∧
      (w.graph.inputs id).get name = .ok (some t) ∧
      action.begin ⟨some id, call, registers⟩ w = .ok (.demand t (some id)) ∧
      action.begin ⟨some id, call, registers⟩ w' = .ok (.demand t (some id)) := by
  have hin : w'.graph.inputs id = w.graph.inputs id := by simp only [Graph.inputs, hn]
  have hdecl (name : String) : w'.graph.Declares ⟨id, name⟩ ↔ w.graph.Declares ⟨id, name⟩ :=
    Graph.declares_congr (by simp only [Graph.outputs, hn])
  -- An own step looks at registers, the inputs of its node and the names of its outputs only.
  cases h with
  | @input name into _ hname =>
    rw [Action.begin_input, Action.begin_input, hin]
    rcases hg : (w.graph.inputs id).get name with e | _ | t
    · exact .inl ⟨_, rfl, rfl⟩
    · exact .inl ⟨_, rfl, rfl⟩
    · exact .inr (.inr (.inr ⟨_, _, name, t, rfl, hname, hg, rfl, rfl⟩))
  | @optionalInput name into _ hname =>
    rw [Action.begin_optionalInput, Action.begin_optionalInput, hin]
    rcases hg : (w.graph.inputs id).get name with e | _ | t
    · exact .inl ⟨_, rfl, rfl⟩
    · exact .inr (.inl ⟨rfl, rfl⟩)
    · exact .inr (.inr (.inr ⟨_, _, name, t, rfl, hname, hg, rfl, rfl⟩))
  | @setOutput name source =>
    by_cases hd : w.graph.Declares ⟨id, name⟩
    · exact .inr (.inr (.inl ⟨⟨id, name⟩, _, rfl, hd,
        Action.begin_setOutput (s := ⟨id, name⟩) hd,
        Action.begin_setOutput (s := ⟨id, name⟩) ((hdecl name).mpr hd)⟩))
    · exact .inl ⟨_, Action.begin_setOutput_of_not_declares (s := ⟨id, name⟩) hd,
        Action.begin_setOutput_of_not_declares (s := ⟨id, name⟩) (mt (hdecl name).mp hd)⟩
  | @setSum name left right =>
    cases hsum : (Scope.register ⟨some id, call, registers⟩ left).add?
        (Scope.register ⟨some id, call, registers⟩ right) with
    | none => exact .inl ⟨_, Action.begin_setSum_of_none hsum, Action.begin_setSum_of_none hsum⟩
    | some sum =>
      by_cases hd : w.graph.Declares ⟨id, name⟩
      · exact .inr (.inr (.inl ⟨⟨id, name⟩, _, rfl, hd,
          Action.begin_setSum (s := ⟨id, name⟩) hd hsum,
          Action.begin_setSum (s := ⟨id, name⟩) ((hdecl name).mpr hd) hsum⟩))
      · exact .inl ⟨_, Action.begin_setSum_of_not_declares (s := ⟨id, name⟩) hd hsum,
          Action.begin_setSum_of_not_declares (s := ⟨id, name⟩) (mt (hdecl name).mp hd) hsum⟩

/-- An own step is refused, or it fills a cell of the node, or it reads a bound input. -/
theorem begin_cases {action : Action} (h : Instr.Own reads (.act action attempt)) (w : Workspace)
    (id : NodeId) (call : Nat) (registers : Table Value) :
    (∃ e, action.begin ⟨some id, call, registers⟩ w = .error (.graph e)) ∨
    (∃ reply w' records, action.begin ⟨some id, call, registers⟩ w = .ok (.done reply w' records) ∧
      (w' = w ∨ ∃ s v, s.owner = id ∧ w.graph.Declares s ∧ w' = w.setGraph (w.graph.fill s v))) ∨
    ∃ d into name t, action = .demand d into ∧ reads name ∧
      (w.graph.inputs id).get name = .ok (some t) ∧
      action.begin ⟨some id, call, registers⟩ w = .ok (.demand t (some id)) := by
  obtain ⟨e, hb, -⟩ | ⟨hb, -⟩ | ⟨s, v, hs, hd, hb, -⟩ | ⟨d, into, name, t, ha, hn, hg, hb, -⟩ :=
    h.begin_agree (w := w) (show w.graph.node? id = _ from rfl) call registers
  · exact .inl ⟨e, hb⟩
  · exact .inr (.inl ⟨_, _, _, hb, .inl rfl⟩)
  · exact .inr (.inl ⟨_, _, _, hb, .inr ⟨s, v, hs, hd, rfl⟩⟩)
  · exact .inr (.inr ⟨d, into, name, t, ha, hn, hg, hb⟩)

end Instr.Own

/-! ## What has been filled since -/

/-- The second workspace is the first one with some more cells filled. -/
structure Workspace.Grows (w₀ w : Workspace) : Prop where
  handles_eq : w.handles = w₀.handles
  alive_eq : ∀ id, w.graph.alive id = w₀.graph.alive id
  inputs_eq : ∀ id, w.graph.inputs id = w₀.graph.inputs id
  logic_eq : ∀ id, w.graph.logic id = w₀.graph.logic id
  names_eq : ∀ id, (w.graph.outputs id).names = (w₀.graph.outputs id).names
  unset : ∀ s, w.graph.cell? s = none → w₀.graph.cell? s = none

namespace Workspace.Grows

variable {w₀ w : Workspace} {s : Socket}

theorem refl (w : Workspace) : w.Grows w :=
  ⟨rfl, fun _ => rfl, fun _ => rfl, fun _ => rfl, fun _ => rfl, fun _ h => h⟩

theorem trans {w' : Workspace} (h : w₀.Grows w) (h' : w.Grows w') : w₀.Grows w' where
  handles_eq := h'.handles_eq.trans h.handles_eq
  alive_eq id := (h'.alive_eq id).trans (h.alive_eq id)
  inputs_eq id := (h'.inputs_eq id).trans (h.inputs_eq id)
  logic_eq id := (h'.logic_eq id).trans (h.logic_eq id)
  names_eq id := (h'.names_eq id).trans (h.names_eq id)
  unset s hs := h.unset s (h'.unset s hs)

theorem setGraph (h : w₀.Grows w) {g : Graph} (ha : ∀ id, g.alive id = w.graph.alive id)
    (hi : ∀ id, g.inputs id = w.graph.inputs id) (hl : ∀ id, g.logic id = w.graph.logic id)
    (ho : ∀ id, (g.outputs id).names = (w.graph.outputs id).names)
    (hu : ∀ s, g.cell? s = none → w.graph.cell? s = none) : w₀.Grows (w.setGraph g) where
  handles_eq := h.handles_eq
  alive_eq id := (ha id).trans (h.alive_eq id)
  inputs_eq id := (hi id).trans (h.inputs_eq id)
  logic_eq id := (hl id).trans (h.logic_eq id)
  names_eq id := (ho id).trans (h.names_eq id)
  unset s hs := h.unset s (hu s hs)

theorem enter (h : w₀.Grows w) (id : NodeId) : w₀.Grows (w.setGraph (w.graph.enter id)) :=
  h.setGraph (by simp) (by simp) (by simp) (by simp) (by simp)

theorem leave (h : w₀.Grows w) (id : NodeId) : w₀.Grows (w.setGraph (w.graph.leave id)) :=
  h.setGraph (by simp) (by simp) (by simp) (by simp) (by simp)

theorem fill (h : w₀.Grows w) (hd : w.graph.Declares s) (v : Value) :
    w₀.Grows (w.setGraph (w.graph.fill s v)) := by
  refine h.setGraph (by simp) (by simp) (by simp) (by simp) fun t ht => ?_
  rw [Graph.cell?_fill _ _ hd] at ht
  split at ht
  · cases ht
  · exact ht

theorem declares_iff (h : w₀.Grows w) : w.graph.Declares s ↔ w₀.graph.Declares s :=
  Graph.declares_congr (h.names_eq s.owner)

theorem wired (h : w₀.Grows w) (hw : w₀.Wired) : w.Wired where
  names_eq id := by rw [h.names_eq, h.logic_eq, hw.names_eq]
  bound id s hs := h.declares_iff.mpr (hw.bound id s (h.inputs_eq id ▸ hs))
  stored inputs hi s hs := h.declares_iff.mpr (hw.stored inputs (h.handles_eq ▸ hi) s hs)
  kept s hs := h.declares_iff.mpr (hw.kept s (h.handles_eq ▸ hs))

/-- Where handles and bindings held every living node, they still do. -/
theorem unheld_eq (h : w₀.Grows w) (h₀ : w₀.graph.unheld w₀.handles.holds = [])
    (others : List NodeId) : w.graph.unheld (w.handles.holds ++ others) = [] := by
  rw [h.handles_eq]
  exact Graph.unheld_eq_nil_of_congr h.alive_eq h.inputs_eq
    (Graph.unheld_eq_nil_of_subset h₀ (List.subset_append_left _ _))

/-- So nothing dies. -/
theorem release_eq (h : w₀.Grows w) (h₀ : w₀.graph.unheld w₀.handles.holds = [])
    (others : List NodeId) : w.release others = w := by
  rw [Workspace.release, w.graph.release_eq_self (h.unheld_eq h₀ others)]
  rfl

theorem settle_eq {m : Machine} (h : w₀.Grows m.workspace)
    (h₀ : w₀.graph.unheld w₀.handles.holds = []) : m.settle = m :=
  Machine.settle_eq_self (h.unheld_eq h₀ m.holds)

end Workspace.Grows

end PullGraph
