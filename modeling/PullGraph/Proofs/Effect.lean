import PullGraph.Step

/-!
# What a change comes to

`Edit.apply` has a case for each of its many forms; a proof about all of them needs only what they
come to.

* `Write`: a value that is offered to a socket under an identity. `Edit.write?` is the write that an
  edit makes, if it makes one.
* `Scope.Holds`, `Scope.Sees`, `Workspace.Knows`: the nodes, the inputs and the sockets that a step
  can get at.
* `Effect`: what an edit does to a workspace, tied to the write that it makes. `Edit.effect_of_apply`
  says that it does nothing else.
* `Edit.apply_of_foreign`, `Edit.not_own_of_apply`: the write of an edit is refused if it is foreign,
  and only then.
-/

namespace PullGraph

/-! ## Results -/

theorem bind_eq_ok {ε α β : Type} {x : Except ε α} {f : α → Except ε β} {b : β} :
    x >>= f = .ok b ↔ ∃ a, x = .ok a ∧ f a = .ok b := by
  cases x <;> simp [bind, Except.bind]

theorem map_eq_ok {ε α β : Type} {x : Except ε α} {f : α → β} {b : β} :
    f <$> x = .ok b ↔ ∃ a, x = .ok a ∧ f a = b := by
  cases x <;> simp [Functor.map, Except.map]

theorem pure_eq_ok {ε α : Type} {a b : α} : (pure a : Except ε α) = .ok b ↔ a = b := by
  simp [pure, Except.pure]

theorem StepError.ofGraph_eq_ok {α : Type} {r : Except GraphError α} {a : α} :
    StepError.ofGraph r = .ok a ↔ r = .ok a := by
  cases r with
  | error e => exact ⟨nofun, nofun⟩
  | ok b =>
    constructor
    · rintro ⟨⟩
      rfl
    · rintro ⟨⟩
      rfl

theorem Table.find_eq_ok {α : Type} {t : Table α} {label : String} {a : α} :
    t.find label = .ok a ↔ t.get? label = some a := by
  unfold Table.find
  cases t.get? label <;> simp

theorem Table.mem_values_of_get? {α : Type} {t : Table α} {label : String} {a : α}
    (h : t.get? label = some a) : a ∈ t.values := by
  obtain ⟨l₁, l₂, e, -⟩ := List.lookup_eq_some_iff.mp h
  exact List.mem_map.mpr ⟨(label, a), by simp [e], rfl⟩

/-! ## What is within reach -/

/-- A step can refer to the node. -/
def Scope.Holds (scope : Scope) (w : Workspace) (id : NodeId) : Prop :=
  scope.self = some id ∨ id ∈ w.handles.nodes.values

/-- A step can refer to the inputs. -/
def Scope.Sees (scope : Scope) (w : Workspace) (inputs : Inputs) : Prop :=
  inputs ∈ w.handles.inputs.values ∨ ∃ id, scope.Holds w id ∧ inputs = w.graph.inputs id

/-- A step can refer to the socket. -/
def Workspace.Knows (w : Workspace) (s : Socket) : Prop :=
  w.graph.Declares s ∨ s ∈ w.handles.sockets.values

variable {scope : Scope} {w w' : Workspace}

theorem Scope.holds_of_node {n : NodeRef} {id : NodeId} (h : scope.node w n = .ok id) :
    scope.Holds w id := by
  cases n with
  | self =>
    cases hs : scope.self with
    | none => simp [Scope.node, Scope.current, hs] at h
    | some k => simp only [Scope.node, Scope.current, hs, Except.ok.injEq] at h; exact .inl (h ▸ hs)
  | label name => exact .inr (Table.mem_values_of_get? (Table.find_eq_ok.mp h))

theorem Scope.sees_of_inputs {i : InputsRef} {inputs : Inputs} (h : scope.inputs w i = .ok inputs) :
    scope.Sees w inputs := by
  cases i with
  | label name => exact .inl (Table.mem_values_of_get? (Table.find_eq_ok.mp h))
  | ofNode n =>
    obtain ⟨id, hid, e⟩ := bind_eq_ok.mp h
    exact .inr ⟨id, holds_of_node hid, (pure_eq_ok.mp e).symm⟩

theorem Scope.knows_of_socket {r : SocketRef} {s : Socket} (h : scope.socket w r = .ok s) :
    w.Knows s := by
  cases r with
  | label name => exact .inr (Table.mem_values_of_get? (Table.find_eq_ok.mp h))
  | output n name =>
    obtain ⟨id, -, ho⟩ := bind_eq_ok.mp h
    exact .inl (Graph.output_eq_ok.mp (StepError.ofGraph_eq_ok.mp ho)).2

theorem Scope.knows_of_socket? {r : Option SocketRef} {s : Option Socket}
    (h : scope.socket? w r = .ok s) : ∀ t, s = some t → w.Knows t := by
  rintro t rfl
  cases r with
  | none => simp [Scope.socket?] at h
  | some r =>
    obtain ⟨u, hu, e⟩ := map_eq_ok.mp h
    cases e
    exact knows_of_socket hu

/-! ## Writes -/

/-- A value that is offered to a socket under an identity. -/
structure Write where
  socket : Socket
  writer : NodeId
  value : Value

/-- The write is made under the identity of the owner. -/
def Write.Own (write : Write) : Prop := write.writer = write.socket.owner

instance (write : Write) : Decidable write.Own :=
  inferInstanceAs (Decidable (write.writer = write.socket.owner))

/-- The write that an edit makes, once all that it refers to is there. -/
def Edit.write? (scope : Scope) (w : Workspace) : Edit → Option Write
  | .setOutput node name source => do
    let id ← (scope.node w node).toOption
    let s ← (w.graph.output id name).toOption
    return ⟨s, id, scope.source source⟩
  | .setSum node name left right => do
    let id ← (scope.node w node).toOption
    let sum ← (scope.register left).add? (scope.register right)
    let s ← (w.graph.output id name).toOption
    return ⟨s, id, sum⟩
  | .setValue s writer source => do
    let s ← (scope.socket w s).toOption
    let id ← (scope.writer w writer).toOption
    return ⟨s, id, scope.source source⟩
  | _ => none

/-! ## Effects -/

/-- What an edit does to a workspace, given the write that it makes. -/
inductive Effect (scope : Scope) (w : Workspace) : Option Write → Workspace → Prop
  | nothing : Effect scope w none w
  | refused {write : Write} : ¬ write.Own → Effect scope w (some write) w
  | filled {write : Write} : write.Own → w.Knows write.socket →
      Effect scope w (some write) (w.setGraph (w.graph.fill write.socket write.value))
  | created {policy : NamePolicy} {logic : Logic} {label : String} :
      policy.checkAll logic.inputNames = .ok () → policy.checkAll logic.outputNames = .ok () →
      Effect scope w none ((w.setGraph (w.graph.push
        (some (.fresh logic (.unconnected logic.inputNames))))).keepNode label w.graph.nextId)
  | numbered {label : String} :
      Effect scope w none ((w.setGraph (w.graph.push none)).keepId label w.graph.nextId)
  | bound {id : NodeId} {key : String} {s : Option Socket} {inputs : Inputs} :
      scope.Holds w id → (∀ t, s = some t → w.Knows t) →
      (w.graph.inputs id).set w.graph.alive key s = .ok inputs →
      Effect scope w none (w.setGraph (w.graph.rewire id inputs))
  | keptNode {label : String} {id : NodeId} :
      scope.Holds w id ∨ w.graph.alive id = true ∨
        (∃ inputs, scope.Sees w inputs ∧ id ∈ inputs.feeders) →
      Effect scope w none (w.keepNode label id)
  | droppedNode {label : String} : Effect scope w none (w.dropNode label)
  | keptSocket {label : String} {s : Socket} : w.graph.Declares s →
      Effect scope w none (w.keepSocket label s)
  | droppedSocket {label : String} : Effect scope w none (w.dropSocket label)
  | keptInputs {label : String} {inputs : Inputs} :
      scope.Sees w inputs ∨ (∃ policy names, Inputs.ofNames policy names = .ok inputs) ∨
        (∃ old ∈ w.handles.inputs.values, ∃ key s, (∀ t, s = some t → w.Knows t) ∧
          old.set w.graph.alive key s = .ok inputs) →
      Effect scope w none (w.keepInputs label inputs)
  | droppedInputs {label : String} : Effect scope w none (w.dropInputs label)

/-! ## What the operations of the graph come to -/

namespace Graph

variable {g g' : Graph} {records : List Record}

theorem create_eq_ok {policy : NamePolicy} {logic : Logic} {id : NodeId}
    (h : g.create policy logic = .ok (id, g', records)) :
    policy.checkAll logic.inputNames = .ok () ∧ policy.checkAll logic.outputNames = .ok () ∧
      id = g.nextId ∧ g' = g.push (some (.fresh logic (.unconnected logic.inputNames))) := by
  obtain ⟨inputs, hi, h⟩ := bind_eq_ok.mp h
  obtain ⟨⟨⟩, hc, hi⟩ := bind_eq_ok.mp hi
  obtain ⟨⟨⟩, ho, h⟩ := bind_eq_ok.mp h
  cases pure_eq_ok.mp hi
  cases pure_eq_ok.mp h
  exact ⟨hc, ho, rfl, rfl⟩

theorem setInput_eq_ok {id : NodeId} {key : String} {s : Option Socket}
    (h : g.setInput id key s = .ok (g', records)) :
    ∃ inputs, (g.inputs id).set g.alive key s = .ok inputs ∧
      g' = g.rewire id inputs := by
  obtain ⟨old, -, h⟩ := bind_eq_ok.mp h
  obtain ⟨inputs, hi, h⟩ := bind_eq_ok.mp h
  cases pure_eq_ok.mp h
  exact ⟨inputs, hi, rfl⟩

theorem connect_eq_ok {id : NodeId} {key : String} {s : Socket}
    (h : g.connect id key s = .ok (g', records)) :
    ∃ inputs, (g.inputs id).set g.alive key (some s) = .ok inputs ∧
      g' = g.rewire id inputs := by
  obtain ⟨⟨g₁, warning⟩, hs, h⟩ := bind_eq_ok.mp h
  cases pure_eq_ok.mp h
  exact setInput_eq_ok hs

theorem setValue_eq_ok {s : Socket} {writer : NodeId} {v : Value}
    (h : g.setValue s writer v = .ok g') : writer = s.owner ∧ g' = g.fill s v := by
  unfold setValue at h
  split at h
  · next e => cases h; exact ⟨e, rfl⟩
  · cases h

theorem setOutput_eq_ok {id : NodeId} {name : String} {v : Value}
    (h : g.setOutput id name v = .ok g') :
    g.output id name = .ok ⟨id, name⟩ ∧ g.Declares ⟨id, name⟩ ∧ g' = g.fill ⟨id, name⟩ v := by
  obtain ⟨s, hs, h⟩ := bind_eq_ok.mp h
  obtain ⟨rfl, hd⟩ := output_eq_ok.mp hs
  exact ⟨hs, hd, (setValue_eq_ok h).2⟩

end Graph

theorem Inputs.setAny_eq_ok {inputs inputs' : Inputs} {alive : NodeId → Bool} {key : String}
    {type : DynamicType} {s : Option Socket}
    (h : inputs.setAny alive key (type.make s) = .ok inputs') :
    inputs.set alive key s = .ok inputs' := by
  cases type <;> cases s <;> simp only [DynamicType.make, setAny] at h
  case socket.some | optional.none | optional.some => exact h
  all_goals obtain ⟨b, -, h⟩ := bind_eq_ok.mp h; cases h

/-! ## What an edit comes to -/

/-- An edit that is not refused has its effect on the workspace, and no other. -/
theorem Edit.effect_of_apply {e : Edit} {reply : Reply} {records : List Record}
    (h : e.apply scope w = .ok (reply, w', records)) :
    Effect scope w (e.write? scope w) w' := by
  -- Every edit resolves its references first, so what they stand for is within reach. What the
  -- operation then makes of the graph has a lemma of its own.
  cases e with
  | create label policy logic =>
    obtain ⟨⟨id, g, records⟩, hc, h⟩ := bind_eq_ok.mp h
    cases pure_eq_ok.mp h
    obtain ⟨hi, ho, rfl, rfl⟩ := Graph.create_eq_ok (StepError.ofGraph_eq_ok.mp hc)
    exact .created hi ho
  | freshId label => cases h; exact .numbered
  | copyNode node label =>
    obtain ⟨id, hid, h⟩ := bind_eq_ok.mp h
    cases pure_eq_ok.mp h
    exact .keptNode (.inl (Scope.holds_of_node hid))
  | dropNode label => cases h; exact .droppedNode
  | setOutput node name source =>
    obtain ⟨id, hid, h⟩ := bind_eq_ok.mp h
    obtain ⟨g, hg, h⟩ := bind_eq_ok.mp h
    cases pure_eq_ok.mp h
    obtain ⟨hs, hd, rfl⟩ := Graph.setOutput_eq_ok (StepError.ofGraph_eq_ok.mp hg)
    -- The output is one of the node itself, so the write is that of its owner.
    have hw : (Edit.setOutput node name source).write? scope w =
        some ⟨⟨id, name⟩, id, scope.source source⟩ := by
      simp [write?, hid, hs, Except.toOption]
    rw [hw]
    exact .filled rfl (.inl hd)
  | setSum node name left right =>
    obtain ⟨id, hid, h⟩ := bind_eq_ok.mp h
    cases hsum : (scope.register left).add? (scope.register right) with
    | none => simp only [hsum] at h; cases h
    | some sum =>
      simp only [hsum] at h
      obtain ⟨g, hg, h⟩ := bind_eq_ok.mp h
      cases pure_eq_ok.mp h
      obtain ⟨hs, hd, rfl⟩ := Graph.setOutput_eq_ok (StepError.ofGraph_eq_ok.mp hg)
      have hw : (Edit.setSum node name left right).write? scope w =
          some ⟨⟨id, name⟩, id, sum⟩ := by
        simp [write?, hid, hs, hsum, Except.toOption]
      rw [hw]
      exact .filled rfl (.inl hd)
  | connect node name s =>
    obtain ⟨t, ht, h⟩ := bind_eq_ok.mp h
    obtain ⟨id, hid, h⟩ := bind_eq_ok.mp h
    obtain ⟨⟨g, records⟩, hg, h⟩ := bind_eq_ok.mp h
    cases pure_eq_ok.mp h
    obtain ⟨inputs, hi, rfl⟩ := Graph.connect_eq_ok (StepError.ofGraph_eq_ok.mp hg)
    refine .bound (Scope.holds_of_node hid) (fun u e => ?_) hi
    cases e
    exact Scope.knows_of_socket ht
  | setInput node name s =>
    obtain ⟨t, ht, h⟩ := bind_eq_ok.mp h
    obtain ⟨id, hid, h⟩ := bind_eq_ok.mp h
    obtain ⟨⟨g, records⟩, hg, h⟩ := bind_eq_ok.mp h
    cases pure_eq_ok.mp h
    obtain ⟨inputs, hi, rfl⟩ := Graph.setInput_eq_ok (StepError.ofGraph_eq_ok.mp hg)
    exact .bound (Scope.holds_of_node hid) (Scope.knows_of_socket? ht) hi
  | disconnect node name =>
    obtain ⟨id, hid, h⟩ := bind_eq_ok.mp h
    obtain ⟨⟨g, records⟩, hg, h⟩ := bind_eq_ok.mp h
    cases pure_eq_ok.mp h
    obtain ⟨inputs, hi, rfl⟩ := Graph.setInput_eq_ok (StepError.ofGraph_eq_ok.mp hg)
    exact .bound (Scope.holds_of_node hid) (fun u e => by cases e) hi
  | keepOutput node name label =>
    obtain ⟨id, -, h⟩ := bind_eq_ok.mp h
    obtain ⟨s, hs, h⟩ := bind_eq_ok.mp h
    cases pure_eq_ok.mp h
    exact .keptSocket (Graph.output_eq_ok.mp (StepError.ofGraph_eq_ok.mp hs)).2
  | dropSocket label => cases h; exact .droppedSocket
  | setValue s writer source =>
    obtain ⟨t, ht, h⟩ := bind_eq_ok.mp h
    obtain ⟨id, hid, h⟩ := bind_eq_ok.mp h
    obtain ⟨g, hg, h⟩ := bind_eq_ok.mp h
    cases pure_eq_ok.mp h
    obtain ⟨ho, rfl⟩ := Graph.setValue_eq_ok (StepError.ofGraph_eq_ok.mp hg)
    have hw : (Edit.setValue s writer source).write? scope w =
        some ⟨t, id, scope.source source⟩ := by
      simp [write?, ht, hid, Except.toOption]
    rw [hw]
    exact .filled ho (Scope.knows_of_socket ht)
  | keepOwner s label =>
    obtain ⟨t, -, h⟩ := bind_eq_ok.mp h
    -- The owner of a socket may be dead, and then there is nothing to keep.
    split at h
    · next ha => cases pure_eq_ok.mp h; exact .keptNode (.inr (.inl ha))
    · cases pure_eq_ok.mp h; exact .nothing
  | newInputs label policy names =>
    obtain ⟨inputs, hi, h⟩ := bind_eq_ok.mp h
    cases pure_eq_ok.mp h
    exact .keptInputs (.inr (.inl ⟨policy, names, StepError.ofGraph_eq_ok.mp hi⟩))
  | copyInputs i label =>
    obtain ⟨inputs, hi, h⟩ := bind_eq_ok.mp h
    cases pure_eq_ok.mp h
    exact .keptInputs (.inl (Scope.sees_of_inputs hi))
  | dropInputs label => cases h; exact .droppedInputs
  | keepFeeder i name label =>
    obtain ⟨inputs, hi, h⟩ := bind_eq_ok.mp h
    obtain ⟨id?, hf, h⟩ := bind_eq_ok.mp h
    split at h
    · next id =>
      cases pure_eq_ok.mp h
      refine .keptNode (.inr (.inr ⟨inputs, Scope.sees_of_inputs hi, ?_⟩))
      exact Inputs.mem_feeders_of_feeder (StepError.ofGraph_eq_ok.mp hf)
    · cases pure_eq_ok.mp h; exact .nothing
  | bindInput label name s =>
    obtain ⟨t, ht, h⟩ := bind_eq_ok.mp h
    obtain ⟨old, ho, h⟩ := bind_eq_ok.mp h
    obtain ⟨inputs, hi, h⟩ := bind_eq_ok.mp h
    cases pure_eq_ok.mp h
    exact .keptInputs (.inr (.inr ⟨old, Table.mem_values_of_get? (Table.find_eq_ok.mp ho), name, t,
      Scope.knows_of_socket? ht, StepError.ofGraph_eq_ok.mp hi⟩))
  | bindDynamic label name type s =>
    obtain ⟨t, ht, h⟩ := bind_eq_ok.mp h
    obtain ⟨old, ho, h⟩ := bind_eq_ok.mp h
    obtain ⟨inputs, hi, h⟩ := bind_eq_ok.mp h
    cases pure_eq_ok.mp h
    exact .keptInputs (.inr (.inr ⟨old, Table.mem_values_of_get? (Table.find_eq_ok.mp ho), name, t,
      Scope.knows_of_socket? ht, Inputs.setAny_eq_ok (StepError.ofGraph_eq_ok.mp hi)⟩))

/-- An edit that makes a write does nothing else. -/
theorem Edit.apply_of_write? {e : Edit} {write : Write} (h : e.write? scope w = some write) :
    e.apply scope w = (fun g => (.nothing, w.setGraph g, [])) <$>
      StepError.ofGraph (w.graph.setValue write.socket write.writer write.value) := by
  have houtput {id : NodeId} {name : String} {s : Socket} (v : Value)
      (hs : w.graph.output id name = .ok s) :
      w.graph.setOutput id name v = w.graph.setValue s id v := by
    simp [Graph.setOutput, hs, bind, Except.bind]
  -- There is a write only if all references lead somewhere; one that does not contradicts `h`.
  cases e with
  | setOutput node name source =>
    cases hid : scope.node w node with
    | error e => simp [write?, hid, Except.toOption] at h
    | ok id =>
      cases hs : w.graph.output id name with
      | error e => simp [write?, hid, hs, Except.toOption] at h
      | ok s =>
        simp only [write?, hid, hs, Except.toOption, Option.pure_def, Option.bind_eq_bind,
          Option.bind_some, Option.some.injEq] at h
        subst h
        simp only [apply, hid, bind, Except.bind, houtput _ hs]
        rfl
  | setSum node name left right =>
    cases hid : scope.node w node with
    | error e => simp [write?, hid, Except.toOption] at h
    | ok id =>
      cases hsum : (scope.register left).add? (scope.register right) with
      | none => simp [write?, hid, hsum, Except.toOption] at h
      | some sum =>
        cases hs : w.graph.output id name with
        | error e => simp [write?, hid, hs, hsum, Except.toOption] at h
        | ok s =>
          simp only [write?, hid, hs, hsum, Except.toOption, Option.pure_def, Option.bind_eq_bind,
            Option.bind_some, Option.some.injEq] at h
          subst h
          simp only [apply, hid, hsum, bind, Except.bind, houtput _ hs]
          rfl
  | setValue r writer source =>
    cases hs : scope.socket w r with
    | error e => simp [write?, hs, Except.toOption] at h
    | ok s =>
      cases hid : scope.writer w writer with
      | error e => simp [write?, hs, hid, Except.toOption] at h
      | ok id =>
        simp only [write?, hid, hs, Except.toOption, Option.pure_def, Option.bind_eq_bind,
          Option.bind_some, Option.some.injEq] at h
        subst h
        simp only [apply, hid, hs, bind, Except.bind]
        rfl
  | _ => simp [write?] at h

/-- A write under a foreign identity is refused, whatever the state of the socket. -/
theorem Edit.apply_of_foreign {e : Edit} {write : Write} (h : e.write? scope w = some write)
    (hf : ¬ write.Own) :
    e.apply scope w = .error (.graph (.ownershipViolation write.socket write.writer)) := by
  have hv : w.graph.setValue write.socket write.writer write.value =
      .error (.ownershipViolation write.socket write.writer) := if_neg hf
  rw [apply_of_write? h, hv]
  rfl

/-- A write that an edit makes is refused only if it is foreign. -/
theorem Edit.not_own_of_apply {e : Edit} {write : Write} {err : StepError}
    (h : e.write? scope w = some write) (he : e.apply scope w = .error err) : ¬ write.Own := by
  intro ho
  have hv : w.graph.setValue write.socket write.writer write.value =
      .ok (w.graph.fill write.socket write.value) := if_pos ho
  rw [apply_of_write? h, hv] at he
  cases he

end PullGraph
