import PullGraph.Error

/-!
# Inputs

The inputs of a node, or a set of inputs that stands alone: a fixed list of names, each unconnected
or bound to a socket.

* A `Binding` remembers the node that owned its socket, if that node was alive when the binding was
  made. This is what keeps a node alive; the socket itself holds nothing.
* `Inputs.set` and `Inputs.setAny` rebind one name. The names and their order never change.
* `Inputs.get`, `Inputs.feeder`, `Inputs.values` and `Inputs.entries` look at the bindings.
* `Inputs.rebound`: the first slot of a name is the one that is rebound. Where no name is used twice
  that is every slot of the name (`rebound_eq_map`).
* `names_of_rebind`, `binding_of_rebind_self`, `binding_of_rebind_of_ne`: one name gets the new
  binding, and everything else stays.
-/

namespace PullGraph

/-- An edge of the graph, as the input that it ends in sees it. -/
structure Binding where
  socket : Socket
  /-- The node that the binding holds. -/
  feeder : Option NodeId
  deriving DecidableEq, Repr

/-- A binding made now: it holds the owner of the socket if that is alive. -/
def Binding.now (alive : NodeId → Bool) (socket : Socket) : Binding :=
  ⟨socket, if alive socket.owner then some socket.owner else none⟩

/-- A named input. -/
structure Slot where
  name : String
  binding : Option Binding
  deriving DecidableEq, Repr

/-- A fixed list of named inputs. -/
structure Inputs where
  slots : List Slot
  deriving DecidableEq, Repr, Inhabited

/-- What a dynamically typed value is to an input. -/
inductive Dynamic where
  | socket (s : Socket)
  | optional (s : Option Socket)
  /-- A value of any other type. -/
  | other
  deriving DecidableEq, Repr

namespace Inputs

/-- Inputs of the given names, all unconnected. -/
def unconnected (names : List String) : Inputs := ⟨names.map (⟨·, none⟩)⟩

/-- Unconnected inputs, if the policy accepts their names. -/
def ofNames (policy : NamePolicy) (names : List String) : Except GraphError Inputs := do
  policy.checkAll names
  return unconnected names

variable (inputs : Inputs)

/-- The names, in the order of declaration. -/
def names : List String := inputs.slots.map (·.name)

/-- The bound sockets, in the order of declaration. -/
def values : List (Option Socket) := inputs.slots.map fun slot => slot.binding.map (·.socket)

/-- The names with the bound sockets, in the order of declaration. -/
def entries : List (String × Option Socket) :=
  inputs.slots.map fun slot => (slot.name, slot.binding.map (·.socket))

/-- The nodes that the bindings hold. -/
def feeders : List NodeId :=
  inputs.slots.filterMap fun slot => slot.binding.bind (·.feeder)

/-- The binding of a name; an error if the name is not declared. -/
def binding (key : String) : Except GraphError (Option Binding) :=
  match inputs.slots.find? (·.name = key) with
  | some slot => .ok slot.binding
  | none => .error (.unknownKey key)

/-- The socket that a name is bound to. -/
def get (key : String) : Except GraphError (Option Socket) :=
  (inputs.binding key).map fun b => b.map (·.socket)

/-- The node that the binding of a name holds. -/
def feeder (key : String) : Except GraphError (Option NodeId) :=
  (inputs.binding key).map fun b => b.bind (·.feeder)

/-- The slots with a new binding in the first one of a name. -/
def rebound (key : String) (new : Option Binding) : List Slot → List Slot
  | [] => []
  | slot :: rest =>
    if slot.name = key then { slot with binding := new } :: rest
    else slot :: rebound key new rest

/-- Replaces the binding of a name. -/
def rebind (key : String) (new : Option Binding) : Except GraphError Inputs := do
  let _ ← inputs.binding key
  return ⟨rebound key new inputs.slots⟩

/-- Binds a name to a socket, or leaves it unconnected. -/
def set (alive : NodeId → Bool) (key : String) (socket : Option Socket) :
    Except GraphError Inputs :=
  inputs.rebind key (socket.map (Binding.now alive))

/-- Binds a name by a dynamically typed value, which has to be a socket or an optional one. An
undeclared name is reported before a wrong type. -/
def setAny (alive : NodeId → Bool) (key : String) (value : Dynamic) : Except GraphError Inputs :=
  match value with
  | .socket s => inputs.set alive key (some s)
  | .optional s => inputs.set alive key s
  | .other => do
    let _ ← inputs.binding key
    throw (.typeMismatch key)

/-! ## What rebinding changes -/

@[simp] theorem names_unconnected (names : List String) : (unconnected names).names = names := by
  simp [unconnected, Inputs.names, Function.comp_def]

theorem binding_eq_ok_iff {key : String} {b : Option Binding} :
    inputs.binding key = .ok b ↔
      ∃ slot, inputs.slots.find? (·.name = key) = some slot ∧ slot.binding = b := by
  unfold binding
  cases inputs.slots.find? (·.name = key) <;> simp

/-- Only undeclared names are unknown, and that is the only error. -/
theorem binding_eq_error_iff {key : String} {e : GraphError} :
    inputs.binding key = .error e ↔ key ∉ inputs.names ∧ e = .unknownKey key := by
  unfold binding
  split
  · next slot h =>
    have hm : key ∈ inputs.names :=
      List.mem_map.mpr ⟨slot, List.mem_of_find?_eq_some h, by simpa using List.find?_some h⟩
    simp [hm]
  · next h =>
    have hm : key ∉ inputs.names := by
      simpa [names] using h
    simp [hm, eq_comm]

variable {inputs} {new : Option Binding} {changed : Inputs}

theorem mem_feeders_of_feeder {key : String} {id : NodeId} (h : inputs.feeder key = .ok (some id)) :
    id ∈ inputs.feeders := by
  unfold feeder binding at h
  cases hs : inputs.slots.find? (·.name = key) with
  | none => simp [hs, Except.map] at h
  | some slot =>
    refine List.mem_filterMap.mpr ⟨slot, List.mem_of_find?_eq_some hs, ?_⟩
    simpa [hs, Except.map] using h

theorem names_rebound (key : String) (new : Option Binding) (slots : List Slot) :
    (rebound key new slots).map (·.name) = slots.map (·.name) := by
  induction slots with
  | nil => rfl
  | cons slot rest ih =>
    rw [rebound]
    split
    · rfl
    · rw [List.map_cons, ih, List.map_cons]

theorem mem_rebound {key : String} {slots : List Slot} {slot : Slot}
    (h : slot ∈ rebound key new slots) : slot ∈ slots ∨ slot = ⟨key, new⟩ := by
  induction slots with
  | nil => cases h
  | cons first rest ih =>
    rw [rebound] at h
    split at h
    · next hk =>
      subst hk
      exact (List.mem_cons.mp h).symm.imp_left (List.mem_cons_of_mem _)
    · rcases List.mem_cons.mp h with rfl | h
      · exact .inl List.mem_cons_self
      · exact (ih h).imp_left (List.mem_cons_of_mem _)

/-- The slot that is rebound is the one that the name is found at. -/
theorem rebound_eq_set (key : String) (new : Option Binding) (slots : List Slot) :
    rebound key new slots = slots.set ((slots.map (·.name)).idxOf key) ⟨key, new⟩ := by
  induction slots with
  | nil => rfl
  | cons slot rest ih =>
    rw [rebound, List.map_cons]
    split
    · next hk =>
      subst hk
      rw [List.idxOf_cons_self, List.set_cons_zero]
    · next hk =>
      have hne : (slot.name == key) = false := by simpa using hk
      rw [List.idxOf_cons, hne, cond_false, List.set_cons_succ, ih]

/-- Where no name is used twice, the first slot of a name is the only one. -/
theorem rebound_eq_map (key : String) (new : Option Binding) {slots : List Slot}
    (h : (slots.map (·.name)).Nodup) :
    rebound key new slots = slots.map fun slot =>
      if slot.name = key then { slot with binding := new } else slot := by
  induction slots with
  | nil => rfl
  | cons slot rest ih =>
    obtain ⟨hslot, hrest⟩ := List.nodup_cons.mp h
    rw [rebound, List.map_cons]
    split
    · next hk =>
      -- The slots after this one have other names, so they stay in the mapped list too.
      have hother : (rest.map fun slot =>
          if slot.name = key then { slot with binding := new } else slot) = rest := by
        refine (List.map_congr_left fun other ho => if_neg fun e => hslot ?_).trans
          (List.map_id' rest)
        exact List.mem_map.mpr ⟨other, ho, e.trans hk.symm⟩
      rw [hother]
    · rw [ih hrest]

theorem find?_rebound_self {key : String} {slots : List Slot}
    (h : key ∈ slots.map (·.name)) :
    (rebound key new slots).find? (·.name = key) = some ⟨key, new⟩ := by
  induction slots with
  | nil => cases h
  | cons slot rest ih =>
    rw [rebound]
    split
    · next hk =>
      subst hk
      exact List.find?_cons_of_pos (by simp)
    · next hk =>
      rw [List.find?_cons_of_neg (by simpa using hk)]
      exact ih ((List.mem_cons.mp h).resolve_left (Ne.symm hk))

theorem find?_rebound_of_ne {key other : String} (h : other ≠ key) (slots : List Slot) :
    (rebound key new slots).find? (·.name = other) = slots.find? (·.name = other) := by
  induction slots with
  | nil => rfl
  | cons slot rest ih =>
    rw [rebound]
    split
    · next hk =>
      subst hk
      rw [List.find?_cons_of_neg (by simpa using h.symm),
        List.find?_cons_of_neg (by simpa using h.symm)]
    · rw [List.find?_cons, ih, List.find?_cons]

theorem slots_of_rebind {key : String} (h : inputs.rebind key new = .ok changed) :
    changed.slots = rebound key new inputs.slots := by
  unfold rebind at h
  cases hb : inputs.binding key with
  | error e => rw [hb] at h; cases h
  | ok b => rw [hb] at h; cases h; rfl

/-- The names and their order never change. -/
theorem names_of_rebind {key : String} (h : inputs.rebind key new = .ok changed) :
    changed.names = inputs.names := by
  rw [names, slots_of_rebind h, names_rebound]
  rfl

/-- A rebound name has its new binding. -/
theorem binding_of_rebind_self {key : String} (h : inputs.rebind key new = .ok changed) :
    changed.binding key = .ok new := by
  have hk : key ∈ inputs.names := by
    false_or_by_contra
    rename_i hk
    unfold rebind at h
    rw [(inputs.binding_eq_error_iff).mpr ⟨hk, rfl⟩] at h
    cases h
  rw [binding, slots_of_rebind h, find?_rebound_self hk]

/-- All other names keep theirs. -/
theorem binding_of_rebind_of_ne {key other : String} (h : inputs.rebind key new = .ok changed)
    (hne : other ≠ key) : changed.binding other = inputs.binding other := by
  rw [binding, slots_of_rebind h, find?_rebound_of_ne hne]
  rfl

/-! ## Bound sockets -/

theorem mem_values {s : Socket} :
    some s ∈ inputs.values ↔ ∃ slot ∈ inputs.slots, ∃ b, slot.binding = some b ∧ b.socket = s := by
  simp [values]

theorem not_mem_values_unconnected (names : List String) (s : Socket) :
    some s ∉ (unconnected names).values := by
  simp [values, unconnected]

theorem mem_values_of_get {key : String} {s : Socket} (h : inputs.get key = .ok (some s)) :
    some s ∈ inputs.values := by
  unfold get binding at h
  cases hf : inputs.slots.find? (·.name = key) with
  | none => simp [hf, Except.map] at h
  | some slot =>
    rw [hf] at h
    exact List.mem_map.mpr ⟨slot, List.mem_of_find?_eq_some hf, Except.ok.inj h⟩

/-- Binding a name to a socket makes no other socket bound. -/
theorem mem_values_of_set {alive : NodeId → Bool} {key : String} {t : Option Socket} {s : Socket}
    (h : inputs.set alive key t = .ok changed) (hs : some s ∈ changed.values) :
    some s ∈ inputs.values ∨ t = some s := by
  obtain ⟨slot, hm, b, hb, rfl⟩ := mem_values.mp hs
  rw [slots_of_rebind h] at hm
  rcases mem_rebound hm with hm | rfl
  · exact .inl (mem_values.mpr ⟨slot, hm, b, hb, rfl⟩)
  · obtain ⟨u, hu, rfl⟩ := Option.map_eq_some_iff.mp hb
    exact .inr hu

end Inputs

end PullGraph
