import PullGraph.Proofs.Hold

/-!
# Bindings and declarations

A binding has a socket and, beside it, the node that it holds, and a node has its sockets beside the
names that its kind declares. Nothing in their types makes them agree, but they do.

* `Graph.shape?`: the kind of a node with the names of its inputs and outputs. It is given once
  (`Effect.shape?_cases`, `Machine.shape?_move`).
* `Workspace.Carries`: the bindings of living nodes and of stored inputs. A move makes no binding but
  to a socket within reach (`Machine.carries_move`).
* `Machine.Fits`: a binding holds the owner of its socket, or that is dead. It is so for every binding
  of every run (`Machine.fits`).
* `Machine.alive_of_get`: what was alive when it was bound is alive while it is bound.
* `Run.shaped`: all of this at every moment of every run.
-/

namespace PullGraph

/-! ## Declared names -/

/-- The kind of a node, the names of its inputs and those of its outputs. -/
def Graph.shape? (g : Graph) (id : NodeId) : Option (Logic × List String × List String) :=
  (g.node? id).map fun node => (node.logic, node.inputs.names, node.outputs.names)

namespace Graph

variable {g : Graph} {id other : NodeId}

theorem shape?_rewire {inputs : Inputs} (h : inputs.names = (g.inputs id).names) :
    (g.rewire id inputs).shape? other = g.shape? other := by
  simp only [shape?, rewire, node?_update]
  split
  · next e =>
    subst e
    cases hn : g.node? other with
    | none => rfl
    | some node => simpa [Graph.inputs, hn] using h
  · rfl

theorem shape?_congr {change : Node → Node}
    (h : ∀ node, (change node).logic = node.logic ∧ (change node).inputs.names = node.inputs.names ∧
      (change node).outputs.names = node.outputs.names) :
    (g.update id change).shape? other = g.shape? other :=
  map_node?_update (fun node => by obtain ⟨h₁, h₂, h₃⟩ := h node; rw [h₁, h₂, h₃]) other

end Graph

/-- A change gives a shape to a new node only, and by what its kind declares. -/
theorem Effect.shape?_cases {scope : Scope} {w w' : Workspace} {write : Option Write}
    (h : Effect scope w write w') (id : NodeId) :
    w'.graph.shape? id = w.graph.shape? id ∨ id = w.graph.nextId ∧
      ∀ shape, w'.graph.shape? id = some shape →
        shape = (shape.1, shape.1.inputNames, shape.1.outputNames) ∧
          shape.1.inputNames.Nodup ∧ shape.1.outputNames.Nodup := by
  cases h with
  | filled => exact .inl (Graph.shape?_congr fun node => ⟨rfl, rfl, Outputs.names_write _ _ _⟩)
  | bound _ _ hi => exact .inl (Graph.shape?_rewire (Inputs.names_of_rebind hi))
  | @created policy logic label hin hout =>
    change (Graph.push _ _).shape? id = _ ∨ _
    rw [Graph.shape?, Graph.node?_push]
    split
    · next e =>
      refine .inr ⟨e, fun shape hs => ?_⟩
      change (Graph.push _ _).shape? id = _ at hs
      rw [Graph.shape?, Graph.node?_push, if_pos e, Option.map_some, Option.some.injEq] at hs
      subst hs
      refine ⟨?_, ?_, ?_⟩
      · simp [Node.fresh]
      · exact ((policy.checkAll_eq_ok_iff).mp hin).2
      · exact ((policy.checkAll_eq_ok_iff).mp hout).2
    · exact .inl rfl
  | numbered =>
    change (Graph.push _ _).shape? id = _ ∨ _
    rw [Graph.shape?, Graph.node?_push]
    split
    · next e =>
      refine .inr ⟨e, fun shape hs => ?_⟩
      change (Graph.push _ _).shape? id = _ at hs
      rw [Graph.shape?, Graph.node?_push, if_pos e] at hs
      cases hs
    · exact .inl rfl
  | _ => exact .inl rfl

/-! ## Bindings within reach -/

/-- The bindings of inputs, in the order of declaration. -/
def Inputs.bindings (inputs : Inputs) : List Binding := inputs.slots.filterMap (·.binding)

namespace Inputs

variable {inputs changed : Inputs} {b : Binding}

/-- Binding a name to a socket makes no other binding. -/
theorem mem_bindings_of_set {alive : NodeId → Bool} {key : String} {s : Option Socket}
    (h : inputs.set alive key s = .ok changed) (hb : b ∈ changed.bindings) :
    b ∈ inputs.bindings ∨ ∃ t, s = some t ∧ b = .now alive t := by
  obtain ⟨slot, hm, hb⟩ := List.mem_filterMap.mp hb
  rw [slots_of_rebind h] at hm
  rcases mem_rebound hm with hm | rfl
  · exact .inl (List.mem_filterMap.mpr ⟨slot, hm, hb⟩)
  · obtain ⟨t, ht, rfl⟩ := Option.map_eq_some_iff.mp hb
    exact .inr ⟨t, ht, rfl⟩

@[simp] theorem bindings_unconnected (names : List String) : (unconnected names).bindings = [] := by
  simp [bindings, unconnected, List.filterMap_map]

@[simp] theorem bindings_default : (default : Inputs).bindings = [] := rfl

theorem exists_slot_of_get {key : String} {bound : Option Socket} (h : inputs.get key = .ok bound) :
    ∃ slot ∈ inputs.slots, slot.name = key ∧ slot.binding.map (·.socket) = bound := by
  unfold get binding at h
  cases hf : inputs.slots.find? (·.name = key) with
  | none => simp [hf, Except.map] at h
  | some slot =>
    rw [hf] at h
    exact ⟨slot, List.mem_of_find?_eq_some hf, by simpa using List.find?_some hf, Except.ok.inj h⟩

/-- An input of names that do not repeat is found under its name. -/
theorem binding_of_mem (hnd : inputs.names.Nodup) {slot : Slot} (hs : slot ∈ inputs.slots) :
    inputs.binding slot.name = .ok slot.binding := by
  cases hb : inputs.binding slot.name with
  | error e => exact absurd (List.mem_map_of_mem hs) (inputs.binding_eq_error_iff.mp hb).1
  | ok b =>
    obtain ⟨slot', hf, rfl⟩ := (inputs.binding_eq_ok_iff).mp hb
    have hname : slot'.name = slot.name := by simpa using List.find?_some hf
    rw [List.inj_on_of_nodup_map hnd (List.mem_of_find?_eq_some hf) hs hname]

theorem get_of_mem (hnd : inputs.names.Nodup) {slot : Slot} (hs : slot ∈ inputs.slots) :
    inputs.get slot.name = .ok (slot.binding.map (·.socket)) := by
  rw [get, binding_of_mem hnd hs]
  rfl

theorem get_feeder_of_mem (hnd : inputs.names.Nodup) {slot : Slot} (hs : slot ∈ inputs.slots)
    {s : Socket} {held : Option NodeId} (hb : slot.binding = some ⟨s, held⟩) :
    inputs.get slot.name = .ok (some s) ∧ inputs.feeder slot.name = .ok held := by
  rw [get, feeder, binding_of_mem hnd hs, hb]
  exact ⟨rfl, rfl⟩

/-- What a name is bound to, and what its binding holds, come from one input. -/
theorem exists_slot_of_feeder {key : String} {s : Socket} {held : Option NodeId}
    (hg : inputs.get key = .ok (some s)) (hf : inputs.feeder key = .ok held) :
    ∃ slot ∈ inputs.slots, slot.name = key ∧ slot.binding = some ⟨s, held⟩ := by
  unfold get feeder binding at *
  cases hfind : inputs.slots.find? (·.name = key) with
  | none => simp [hfind, Except.map] at hg
  | some slot =>
    refine ⟨slot, List.mem_of_find?_eq_some hfind, by simpa using List.find?_some hfind, ?_⟩
    simp only [hfind, Except.map, Except.ok.injEq] at hg hf
    obtain ⟨⟨t, held'⟩, hb, rfl⟩ := Option.map_eq_some_iff.mp hg
    rw [hb] at hf ⊢
    exact congrArg (fun f => some (Binding.mk t f)) hf

theorem exists_binding_of_get {key : String} {s : Socket} (h : inputs.get key = .ok (some s)) :
    ∃ b ∈ inputs.bindings, b.socket = s := by
  obtain ⟨slot, hs, -, hslot⟩ := exists_slot_of_get h
  obtain ⟨b, hb, hsocket⟩ := Option.map_eq_some_iff.mp hslot
  exact ⟨b, List.mem_filterMap.mpr ⟨slot, hs, hb⟩, hsocket⟩

theorem mem_feeders_of_binding {id : NodeId} (hb : b ∈ inputs.bindings) (hf : b.feeder = some id) :
    id ∈ inputs.feeders := by
  obtain ⟨slot, hs, hb⟩ := List.mem_filterMap.mp hb
  exact List.mem_filterMap.mpr ⟨slot, hs, by rw [hb]; exact hf⟩

theorem mem_values_of_binding (hb : b ∈ inputs.bindings) : some b.socket ∈ inputs.values := by
  obtain ⟨slot, hs, hb⟩ := List.mem_filterMap.mp hb
  exact mem_values.mpr ⟨slot, hs, b, hb, rfl⟩

end Inputs

/-- A living node or a stored set of inputs has the binding. -/
inductive Workspace.Carries (w : Workspace) (b : Binding) : Prop
  | bound {id : NodeId} : w.graph.alive id = true → b ∈ (w.graph.inputs id).bindings → Carries w b
  | stored {inputs : Inputs} : inputs ∈ w.handles.inputs.values → b ∈ inputs.bindings → Carries w b

namespace Workspace.Carries

variable {w w' : Workspace} {b : Binding}

theorem declares (h : w.Carries b) (hw : w.Wired) : w.graph.Declares b.socket := by
  cases h with
  | @bound id _ hb => exact hw.bound id _ (Inputs.mem_values_of_binding hb)
  | @stored inputs hi hb => exact hw.stored inputs hi _ (Inputs.mem_values_of_binding hb)

theorem alive_of_feeder (h : w.Carries b) {others : List NodeId} (hw : w.Firm others) {id : NodeId}
    (hf : b.feeder = some id) : w.graph.alive id = true := by
  cases h with
  | @bound k ha hb => exact hw.bound k id ⟨ha, Inputs.mem_feeders_of_binding hb hf⟩
  | @stored inputs hi hb => exact hw.stored inputs hi id (Inputs.mem_feeders_of_binding hb hf)

theorem mono (h : w'.Carries b) (hh : w'.handles = w.handles)
    (ha : ∀ id, w'.graph.alive id = true → w.graph.alive id = true)
    (hi : ∀ id, w'.graph.inputs id = w.graph.inputs id) : w.Carries b := by
  cases h with
  | bound hid hb => exact .bound (ha _ hid) (hi _ ▸ hb)
  | stored hm hb => exact .stored (hh ▸ hm) hb

theorem of_sees {scope : Scope} {others : List NodeId} (hw : w.Firm others)
    (hs : ∀ k, scope.self = some k → k ∈ others) {inputs : Inputs} (hi : scope.Sees w inputs)
    (hb : b ∈ inputs.bindings) : w.Carries b := by
  rcases hi with hi | ⟨id, hid, rfl⟩
  · exact .stored hi hb
  · exact .bound (hw.alive_of_holds hs hid) hb

end Workspace.Carries

/-- A change makes no binding but to a socket that its step can refer to. -/
theorem Effect.carries {scope : Scope} {w w' : Workspace} {write : Option Write} {b : Binding}
    {others : List NodeId} (h : Effect scope w write w') (hw : w.Firm others)
    (hs : ∀ k, scope.self = some k → k ∈ others) (hb : w'.Carries b) :
    w.Carries b ∨ ∃ t, w.Knows t ∧ b = .now w.graph.alive t := by
  have hold (hh : w'.handles.inputs = w.handles.inputs)
      (hg : ∀ id, w'.graph.alive id = true → b ∈ (w'.graph.inputs id).bindings →
        w.graph.alive id = true ∧ b ∈ (w.graph.inputs id).bindings) : w.Carries b := by
    cases hb with
    | bound hid hb => exact .bound (hg _ hid hb).1 (hg _ hid hb).2
    | stored hm hb => exact .stored (hh ▸ hm) hb
  -- Only a setting makes a binding, on a node or on stored inputs. All other changes leave bindings
  -- as they are, copy them or lose them.
  cases h with
  | nothing | refused => exact .inl hb
  | filled => exact .inl (hb.mono rfl (by simp [Workspace.setGraph]) (by simp [Workspace.setGraph]))
  | keptNode | droppedNode | keptSocket | droppedSocket =>
    exact .inl (hold rfl fun _ ha hb => ⟨ha, hb⟩)
  | created | numbered =>
    refine .inl (hold rfl fun id ha hb => ?_)
    change (Graph.push _ _).alive id = true at ha
    change b ∈ ((Graph.push _ _).inputs id).bindings at hb
    rw [Graph.alive_push] at ha
    rw [Graph.inputs_push] at hb
    split at hb
    · simp [Node.fresh] at hb
    · next hne => exact ⟨by simpa [hne] using ha, hb⟩
  | @bound id key t inputs _ ht hi =>
    cases hb with
    | stored hm hb => exact .inl (.stored hm hb)
    | @bound k ha hb =>
      have ha' : w.graph.alive k = true := (Graph.alive_rewire _ _ _ _).symm.trans ha
      obtain ⟨e, rfl⟩ | e := w.graph.inputs_rewire id k inputs
      · change b ∈ ((w.graph.rewire k inputs).inputs k).bindings at hb
        rcases Inputs.mem_bindings_of_set hi (e ▸ hb) with hb | ⟨u, e, rfl⟩
        · exact .inl (.bound ha' hb)
        · exact .inr ⟨u, ht u e, rfl⟩
      · change b ∈ ((w.graph.rewire id inputs).inputs k).bindings at hb
        exact .inl (.bound ha' (e ▸ hb))
  | @keptInputs label inputs hi =>
    cases hb with
    | bound ha hb => exact .inl (.bound ha hb)
    | @stored i hm hb =>
      rcases Table.eq_or_mem_of_mem_insert hm with rfl | hm
      · rcases hi with hi | ⟨policy, names, hi⟩ | ⟨old, hold, key, t, ht, hi⟩
        · exact .inl (.of_sees hw hs hi hb)
        · obtain ⟨⟨⟩, -, hi⟩ := bind_eq_ok.mp hi
          cases pure_eq_ok.mp hi
          simp at hb
        · rcases Inputs.mem_bindings_of_set hi hb with hb | ⟨u, e, rfl⟩
          · exact .inl (.stored hold hb)
          · exact .inr ⟨u, ht u e, rfl⟩
      · exact .inl (.stored hm hb)
  | droppedInputs =>
    cases hb with
    | bound ha hb => exact .inl (.bound ha hb)
    | stored hm hb => exact .inl (.stored (Table.mem_values_of_mem_erase hm) hb)

/-! ## Runs -/

namespace Machine

variable {past : List Machine} {m : Machine} {b : Binding} {id : NodeId} {s : Socket}

/-- A move makes no binding but to a socket within reach. -/
theorem carries_move (h : Run past m) (hb : m.move.workspace.Carries b) :
    m.workspace.Carries b ∨ ∃ t, m.workspace.Knows t ∧ b = .now m.graph.alive t := by
  obtain ⟨n, ht, e⟩ := exists_turn m
  have hn : n.workspace.Carries b := by
    rw [e] at hb
    exact hb.mono rfl (fun _ => Graph.alive_of_alive_release _) (Graph.inputs_release _ _)
  obtain ⟨-, he⟩ | ⟨s, -, -, -, -, hw⟩ | ⟨s, -, hw, -⟩ := ht.workspace_cases
  · exact he.carries (firm h) (fun _ => mem_holds_of_self) hn
  · rw [hw] at hn
    exact .inl (hn.mono rfl (by simp [Workspace.setGraph, graph]) (by simp [Workspace.setGraph, graph]))
  · rw [hw] at hn
    exact .inl (hn.mono rfl (by simp [Workspace.setGraph, graph]) (by simp [Workspace.setGraph, graph]))

/-- A socket that is declared has a living owner or a dead one. -/
theorem dead_of_declares (hd : m.graph.Declares s) (ha : m.graph.alive s.owner = false) :
    m.Dead s.owner := by
  have hname := Graph.declares_iff.mp hd
  cases hn : m.graph.node? s.owner with
  | none => simp [Graph.outputs, hn, Outputs.names, default, instInhabitedOutputs.default] at hname
  | some node => exact ⟨node, hn, by simpa [Graph.alive, hn] using ha⟩

/-- A binding holds the owner of its socket, or that is dead. -/
structure Fits (m : Machine) (b : Binding) : Prop where
  feeder_eq : ∀ id, b.feeder = some id → b.socket.owner = id
  dead : b.feeder = none → m.Dead b.socket.owner

theorem fits_now (hs : m.graph.Declares s) : m.Fits (.now m.graph.alive s) := by
  cases ha : m.graph.alive s.owner with
  | true => exact ⟨fun id h => by simpa [Binding.now, ha] using h, fun h => by simp [Binding.now, ha] at h⟩
  | false =>
    exact ⟨fun id h => by simp [Binding.now, ha] at h, fun _ => dead_of_declares hs ha⟩

theorem Fits.move (h : m.Fits b) : m.move.Fits b := ⟨h.feeder_eq, fun hf => (h.dead hf).move⟩

theorem fits (h : Run past m) (hb : m.workspace.Carries b) : m.Fits b := by
  induction h with
  | start =>
    cases hb with
    | bound ha => simp [Graph.alive, start, Workspace.empty, Graph.empty, Graph.node?] at ha
    | stored hm => cases hm
  | @move past m h ih =>
    rcases carries_move h hb with hb | ⟨t, ht, rfl⟩
    · exact (ih hb).move
    · exact (fits_now ((wired h).declares_of_knows ht)).move
  | load action _ _ ih => exact ⟨(ih hb).feeder_eq, (ih hb).dead⟩

/-- What a living owner's socket is bound to by holds that owner. -/
theorem Fits.feeder_eq_of_alive (h : m.Fits b) (ha : m.graph.alive b.socket.owner = true) :
    b.feeder = some b.socket.owner := by
  cases hf : b.feeder with
  | none =>
    rw [(h.dead hf).alive_eq] at ha
    cases ha
  | some id => rw [h.feeder_eq id hf]

/-- What was alive when it was bound is not let go by the move that binds it, nor by another one that
leaves it bound. -/
theorem alive_move_of_get (h : Run past m) {key : String} (ha : m.graph.alive s.owner = true)
    (hg : (m.move.graph.inputs id).get key = .ok (some s)) (hid : m.move.graph.alive id = true) :
    m.move.graph.alive s.owner = true := by
  obtain ⟨b, hb, rfl⟩ := Inputs.exists_binding_of_get hg
  have hc : m.move.workspace.Carries b := .bound hid hb
  refine hc.alive_of_feeder (firm h.move) ?_
  rcases carries_move h hc with hc | ⟨t, -, rfl⟩
  · exact (fits h hc).feeder_eq_of_alive ha
  · have ha : m.graph.alive t.owner = true := ha
    simp [Binding.now, ha]

theorem exists_node_of_get {g : Graph} {key : String} {bound : Option Socket}
    (hg : (g.inputs id).get key = .ok bound) : ∃ node, g.node? id = some node := by
  cases hn : g.node? id with
  | none => simp [Graph.inputs, hn, default, instInhabitedInputs.default, Inputs.get, Inputs.binding,
      Except.map] at hg
  | some node => exact ⟨node, rfl⟩

theorem alive_of_alive_later (h : Run past m) {earlier : Machine} (he : earlier ∈ past) {key : String}
    {bound : Option Socket} (hg : (earlier.graph.inputs id).get key = .ok bound)
    (ha : m.graph.alive id = true) : earlier.graph.alive id = true := by
  obtain ⟨node, hn⟩ := exists_node_of_get hg
  by_contra hna
  have hd : earlier.Dead id := ⟨node, hn, by simpa [Graph.alive, hn] using hna⟩
  rw [(hd.of_mem h (.tail _ he)).1.alive_eq] at ha
  cases ha

/-- What was alive when it was bound is alive while it is bound. -/
theorem alive_of_get (h : Run past m) {later before : List Machine} {earlier : Machine}
    (hp : past = later ++ earlier :: before) {key : String}
    (hg : ∀ n ∈ m :: later, (n.graph.inputs id).get key = .ok (some s))
    (ha : earlier.graph.alive s.owner = true) (hid : m.graph.alive id = true) :
    m.graph.alive s.owner = true := by
  -- By induction on the run, back to the moment of the binding: the node lives at each moment
  -- since, so that its binding holds the owner across each move.
  induction h generalizing later with
  | start => cases later <;> cases hp
  | @move past n hr ih =>
    have hstep := hg n.move List.mem_cons_self
    cases later with
    | nil => cases hp; exact alive_move_of_get hr ha hstep hid
    | cons x later =>
      obtain ⟨rfl, hp'⟩ := List.cons.inj hp
      have hn : n.graph.alive id = true :=
        alive_of_alive_later hr.move List.mem_cons_self (hg n (.tail _ List.mem_cons_self)) hid
      exact alive_move_of_get hr (ih hp' (fun k hk => hg k (.tail _ hk)) hn) hstep hid
  | @load past n action hr hi ih =>
    cases later with
    | nil => cases hp; exact ha
    | cons x later =>
      obtain ⟨rfl, hp'⟩ := List.cons.inj hp
      exact ih hp' (fun k hk => hg k (.tail _ hk)) hid

/-- A move gives a shape to a new node only. -/
theorem shape?_move_cases (m : Machine) (id : NodeId) :
    m.move.graph.shape? id = m.graph.shape? id ∨ id = m.graph.nextId ∧
      ∀ shape, m.move.graph.shape? id = some shape →
        shape = (shape.1, shape.1.inputNames, shape.1.outputNames) ∧
          shape.1.inputNames.Nodup ∧ shape.1.outputNames.Nodup := by
  obtain ⟨w, outside, hg, hw⟩ := m.move_cases
  have hr : m.move.graph.shape? id = w.graph.shape? id := by
    rw [hg]
    exact Graph.map_node?_release _ (fun _ => by rfl) _ _
  rw [hr]
  obtain ⟨-, -, he⟩ | ⟨s, holding, -, -, -, -, hw⟩ | ⟨s, -, -, hw⟩ := hw
  · exact he.shape?_cases id
  · exact .inl (hw ▸ Graph.shape?_congr fun _ => ⟨rfl, rfl, rfl⟩)
  · exact .inl (hw ▸ Graph.shape?_congr fun _ => ⟨rfl, rfl, rfl⟩)

theorem shape?_move {shape : Logic × List String × List String} (h : m.graph.shape? id = some shape) :
    m.move.graph.shape? id = some shape := by
  obtain e | ⟨rfl, -⟩ := m.shape?_move_cases id
  · rw [e, h]
  · simp [Graph.shape?] at h

/-- The names of a node are those that its kind declares. -/
theorem shape_eq (h : Run past m) {shape : Logic × List String × List String}
    (hs : m.graph.shape? id = some shape) :
    shape = (shape.1, shape.1.inputNames, shape.1.outputNames) ∧
      shape.1.inputNames.Nodup ∧ shape.1.outputNames.Nodup := by
  induction h with
  | start => simp [Graph.shape?, start, graph, Workspace.empty, Graph.empty, Graph.node?] at hs
  | @move past m h ih =>
    obtain e | ⟨-, hn⟩ := m.shape?_move_cases id
    · exact ih (e ▸ hs)
    · exact hn shape hs
  | load action _ _ ih => exact ih hs

/-- A living node has the inputs that its kind declares, each once. -/
theorem names_inputs_eq (h : Run past m) (ha : m.graph.alive id = true) :
    (m.graph.inputs id).names = (m.graph.logic id).inputNames ∧
      (m.graph.logic id).inputNames.Nodup := by
  cases hn : m.graph.node? id with
  | none => simp [Graph.alive, hn] at ha
  | some node =>
    have hs : m.graph.shape? id = some (node.logic, node.inputs.names, node.outputs.names) := by
      rw [Graph.shape?, hn]
      rfl
    obtain ⟨he, hin, -⟩ := shape_eq h hs
    simp only [Prod.mk.injEq, true_and] at he
    simp only [Graph.inputs, Graph.logic, hn, Option.map_some, Option.getD_some]
    exact ⟨he.1, hin⟩

/-- The shape of a node never changes. -/
theorem shape?_of_mem (h : Run past m) {earlier : Machine} (he : earlier ∈ past)
    {shape : Logic × List String × List String} (hs : earlier.graph.shape? id = some shape) :
    m.graph.shape? id = some shape :=
  h.keep_of_mem (P := fun n => n.graph.shape? id = some shape) he (fun _ _ _ => shape?_move)
    (fun _ _ _ _ _ hp => hp) hs

end Machine

open Machine

/-- At a moment of a run what the types leave open agrees. -/
structure Shaped (past : List Machine) (m : Machine) : Prop where
  /-- A node has the inputs and the outputs that its kind declares, each once. -/
  names : ∀ id node, m.graph.node? id = some node →
    node.inputs.names = node.logic.inputNames ∧ node.outputs.names = node.logic.outputNames ∧
      node.logic.inputNames.Nodup ∧ node.logic.outputNames.Nodup
  same : ∀ earlier ∈ past, ∀ id node, earlier.graph.node? id = some node →
    ∃ node', m.graph.node? id = some node' ∧ node'.logic = node.logic ∧
      node'.inputs.names = node.inputs.names ∧ node'.outputs.names = node.outputs.names
  /-- An output is the socket of the node and the name, -/
  output_iff : ∀ id node, m.graph.node? id = some node → ∀ name s,
    m.graph.output id name = .ok s ↔ name ∈ node.logic.outputNames ∧ s = ⟨id, name⟩
  /-- the same one for ever, -/
  output_same : ∀ earlier ∈ past, ∀ id name s,
    earlier.graph.output id name = .ok s → m.graph.output id name = .ok s
  /-- and of no other name or node. -/
  output_inj : ∀ id id' name name' s, m.graph.output id name = .ok s →
    m.graph.output id' name' = .ok s → id = id' ∧ name = name'
  /-- A binding that holds a node is to a socket of that node, which is alive. -/
  held : ∀ b, m.workspace.Carries b → ∀ id, b.feeder = some id →
    m.graph.alive id = true ∧ b.socket ∈ m.graph.sockets id
  /-- A binding that holds none is to a socket whose owner is dead for good. -/
  detached : ∀ earlier ∈ m :: past, ∀ b, earlier.workspace.Carries b → b.feeder = none →
    m.Dead b.socket.owner
  /-- A socket whose owner was alive when it was bound never lacks its owner while it is bound. -/
  fed : ∀ later earlier before, past = later ++ earlier :: before → ∀ id key s,
    (∀ n ∈ m :: later, (n.graph.inputs id).get key = .ok (some s)) →
      earlier.graph.alive s.owner = true → m.graph.alive id = true →
        m.graph.alive s.owner = true ∧ ∀ holding, m.Demands s holding →
          ∀ output, m.move.control ≠ .returned (.error (.ownerDropped output))

variable {past : List Machine} {m : Machine}

theorem Graph.shape?_of_node? {g : Graph} {id : NodeId} {node : Node} (h : g.node? id = some node) :
    g.shape? id = some (node.logic, node.inputs.names, node.outputs.names) := by
  rw [shape?, h]
  rfl

/-- The read of a socket with a living owner does not end for lack of an owner where it begins. -/
theorem Machine.Demands.ne_ownerDropped {s : Socket} {holding : Option NodeId}
    (hd : m.Demands s holding) (ha : m.graph.alive s.owner = true) (output : String) :
    m.move.control ≠ .returned (.error (.ownerDropped output)) := by
  rw [move_of_demands hd]
  cases hans : m.graph.answer? s with
  | none =>
    rw [demand_of_no_answer (by simpa using hans)]
    exact nofun
  | some outcome =>
    obtain ⟨trace, e⟩ := demand_of_answer
      (m := m.setTask { m.task with holding := holding }) (by simpa using hans)
    rw [e]
    rintro ⟨⟩
    simp only [Graph.answer?, ha] at hans
    revert hans
    cases m.graph.cell? s <;> cases m.graph.computing s.owner <;> simp

/-- Names, sockets and bindings are what they were made as, and a binding agrees with its socket. -/
theorem Run.shaped (h : Run past m) : Shaped past m where
  names id node hn := by
    obtain ⟨he, hin, hout⟩ := shape_eq h (Graph.shape?_of_node? hn)
    simp only [Prod.mk.injEq, true_and] at he
    exact ⟨he.1, he.2, hin, hout⟩
  same earlier he id node hn := by
    have hs := shape?_of_mem h he (Graph.shape?_of_node? hn)
    obtain ⟨node', hn', e⟩ := Option.map_eq_some_iff.mp hs
    simp only [Prod.mk.injEq] at e
    exact ⟨node', hn', e⟩
  output_iff id node hn name s := by
    obtain ⟨he, -, -⟩ := shape_eq h (Graph.shape?_of_node? hn)
    simp only [Prod.mk.injEq, true_and] at he
    rw [Graph.output_eq_ok, and_comm]
    refine and_congr_left fun e => ?_
    subst e
    rw [Graph.declares_iff, Graph.outputs, hn, Option.map_some, Option.getD_some, he.2]
  output_same earlier he id name s hs := by
    obtain ⟨rfl, hd⟩ := Graph.output_eq_ok.mp hs
    refine Graph.output_eq_ok.mpr ⟨rfl, ?_⟩
    have hname := Graph.declares_iff.mp hd
    cases hn : earlier.graph.node? id with
    | none => simp [Graph.outputs, hn, Outputs.names, default, instInhabitedOutputs.default] at hname
    | some node =>
      obtain ⟨node', hn', e⟩ := Option.map_eq_some_iff.mp (shape?_of_mem h he (Graph.shape?_of_node? hn))
      simp only [Prod.mk.injEq] at e
      refine Graph.declares_iff.mpr ?_
      simpa [Graph.outputs, hn, hn', e.2.2] using hname
  output_inj id id' name name' s hs hs' := by
    obtain ⟨rfl, -⟩ := Graph.output_eq_ok.mp hs
    obtain ⟨e, -⟩ := Graph.output_eq_ok.mp hs'
    exact ⟨congrArg Socket.owner e, congrArg Socket.name e⟩
  held b hb id hf := by
    refine ⟨hb.alive_of_feeder (firm h) hf, ?_⟩
    obtain rfl := (fits h hb).feeder_eq id hf
    exact hb.declares (wired h)
  detached earlier he b hb hf := by
    -- A binding without a hold on the owner was made when that was dead, and the dead stay dead.
    rcases List.mem_cons.mp he with rfl | he'
    · exact (fits h hb).dead hf
    · obtain ⟨before, hr, -⟩ := h.of_mem he'
      exact (((fits hr hb).dead hf).of_mem h he).1
  fed later earlier before hp id key s hg ha hid := by
    have hal := alive_of_get h hp hg ha hid
    exact ⟨hal, fun holding hd output => hd.ne_ownerDropped hal output⟩

/-- A sum keeps the constant that it is bound to when the handle of the constant is dropped. -/
theorem Run.shaped_sum :
    ∃ past m, Run past m ∧ Shaped past m ∧ m.workspace.handles.nodes.values = [⟨1⟩] ∧
      m.workspace.Carries ⟨⟨⟨0⟩, "v"⟩, some ⟨0⟩⟩ ∧ m.graph.alive ⟨0⟩ = true := by
  have h₁ := Run.start.load (.edit (.create "five" .identifier (.value (.ofInt 5)))) rfl
  have h₂ := h₁.move.load (.edit (.create "sum" .identifier .add)) rfl
  have h₃ := h₂.move.load (.edit (.connect (.label "sum") "v1" (.output (.label "five") "v"))) rfl
  have h := (h₃.move.load (.edit (.dropNode "five")) rfl).move
  refine ⟨_, _, h, h.shaped, rfl, ?_, ?_⟩
  · exact @Workspace.Carries.bound _ _ ⟨1⟩ rfl List.mem_cons_self
  · exact (h.shaped.held _ (@Workspace.Carries.bound _ _ ⟨1⟩ rfl List.mem_cons_self) ⟨0⟩ rfl).1

end PullGraph
