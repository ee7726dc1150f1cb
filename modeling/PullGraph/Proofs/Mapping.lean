import PullGraph.Proofs.Refusal

/-!
# Inputs as maps with fixed keys

Inputs are a list of named slots. They are looked at by name or by position, and they are set by
name, with a socket or with a value of a dynamic type. All of it is about one map, from the declared
names to what they were set to last.

* `Setting`: a name, what it is set to, and who is alive then. `Setting.last?` is the latest setting
  of a name.
* `Inputs.Maps`: every slot has the binding of the latest setting of its name. New inputs are so
  (`Inputs.maps_of_ofNames`), and a setting keeps them so (`Maps.set`).
* `Call`: a call of a setter, which may fail. Any number of calls keep the slots so (`Maps.after`),
  whoever is alive at each of them.
* `Inputs.Keyed`: what the views of such inputs show, and how the setters end on them
  (`Maps.keyed`, `Inputs.keyed_after`).
-/

namespace PullGraph

/-! ## Settings -/

/-- A name that is set to a socket or left unconnected, with the nodes that are alive then. -/
structure Setting where
  key : String
  socket : Option Socket
  alive : NodeId → Bool

namespace Setting

/-- The binding that a setting makes. -/
def binding (s : Setting) : Option Binding := s.socket.map (Binding.now s.alive)

/-- The node that a setting holds: the owner of the socket, if it is alive then. -/
def feeder (s : Setting) : Option NodeId := (s.socket.map (·.owner)).filter s.alive

variable (settings : List Setting) (key : String)

/-- The last setting of a name, among settings with the latest first. -/
def last? : Option Setting := settings.find? (·.key = key)

/-- The socket that a name was last set to: none if it was never set or last left unconnected. -/
def socketOf : Option Socket := (last? settings key).bind (·.socket)

/-- The node that the last setting of a name holds. -/
def feederOf : Option NodeId := (last? settings key).bind (·.feeder)

variable {settings key}

theorem last?_cons_self (s : Setting) : last? (s :: settings) s.key = some s := by
  simp [last?]

theorem last?_cons_of_ne {s : Setting} (h : key ≠ s.key) :
    last? (s :: settings) key = last? settings key := by
  simp [last?, h.symm]

theorem map_socket_binding (s : Setting) : s.binding.map (·.socket) = s.socket := by
  simp [binding, Binding.now, Function.comp_def]

theorem bind_feeder_binding (s : Setting) : s.binding.bind (·.feeder) = s.feeder := by
  cases hs : s.socket <;> simp [binding, feeder, Binding.now, hs, Option.filter_some]

end Setting

open Setting

namespace Inputs

/-! ## The map behind the slots -/

/-- The slots are those of an accepted list of names, each with the binding that the last setting of
its name made. -/
structure Maps (inputs : Inputs) (names : List String) (settings : List Setting) : Prop where
  accepted : ∃ policy : NamePolicy, policy.checkAll names = .ok ()
  slots_eq : inputs.slots = names.map fun key => ⟨key, (last? settings key).bind (·.binding)⟩

variable {inputs changed : Inputs} {names : List String} {settings : List Setting} {key : String}

theorem maps_of_ofNames {policy : NamePolicy} (h : ofNames policy names = .ok inputs) :
    inputs.Maps names [] := by
  obtain ⟨⟨⟩, hc, hi⟩ := bind_eq_ok.mp h
  cases pure_eq_ok.mp hi
  exact ⟨⟨policy, hc⟩, rfl⟩

namespace Maps

theorem nodup (h : inputs.Maps names settings) : names.Nodup := by
  obtain ⟨policy, hc⟩ := h.accepted
  exact (policy.checkAll_eq_ok_iff.mp hc).2

theorem names_eq (h : inputs.Maps names settings) : inputs.names = names := by
  simp [Inputs.names, h.slots_eq, Function.comp_def]

theorem values_eq (h : inputs.Maps names settings) :
    inputs.values = names.map (socketOf settings) := by
  simp [values, h.slots_eq, Function.comp_def, Option.map_bind, map_socket_binding, socketOf]

theorem entries_eq (h : inputs.Maps names settings) :
    inputs.entries = names.map fun key => (key, socketOf settings key) := by
  simp [entries, h.slots_eq, Function.comp_def, Option.map_bind, map_socket_binding, socketOf]

/-- A name is found in its own slot, as no other slot has the same name. -/
theorem binding_eq (h : inputs.Maps names settings) (hk : key ∈ names) :
    inputs.binding key = .ok ((last? settings key).bind (·.binding)) := by
  have hs : ⟨key, (last? settings key).bind (·.binding)⟩ ∈ inputs.slots := by
    rw [h.slots_eq]
    exact List.mem_map_of_mem hk
  exact binding_of_mem (h.names_eq.symm ▸ h.nodup) hs

theorem binding_eq_error (h : inputs.Maps names settings) (hk : key ∉ names) :
    inputs.binding key = .error (.unknownKey key) :=
  inputs.binding_eq_error_iff.mpr ⟨h.names_eq.symm ▸ hk, rfl⟩

theorem get_eq (h : inputs.Maps names settings) (hk : key ∈ names) :
    inputs.get key = .ok (socketOf settings key) := by
  rw [get, h.binding_eq hk]
  simp [Except.map, Option.map_bind, map_socket_binding, socketOf]

theorem feeder_eq (h : inputs.Maps names settings) (hk : key ∈ names) :
    inputs.feeder key = .ok (feederOf settings key) := by
  rw [Inputs.feeder, h.binding_eq hk]
  simp [Except.map, Option.bind_assoc, bind_feeder_binding, feederOf]

/-! ## Settings keep it -/

theorem exists_set (h : inputs.Maps names settings) (hk : key ∈ names) (alive : NodeId → Bool)
    (s : Option Socket) : ∃ changed, inputs.set alive key s = .ok changed :=
  ⟨_, by rw [Inputs.set, rebind, h.binding_eq hk]; rfl⟩

theorem set (h : inputs.Maps names settings) {s : Setting}
    (hs : inputs.set s.alive s.key s.socket = .ok changed) :
    changed.Maps names (s :: settings) := by
  refine ⟨h.accepted, ?_⟩
  have hnd : inputs.names.Nodup := h.names_eq.symm ▸ h.nodup
  rw [slots_of_rebind hs, rebound_eq_map _ _ hnd, h.slots_eq, List.map_map]
  refine List.map_congr_left fun key _ => ?_
  -- The slot of the name shows the new setting; the other names have the latest one of before.
  by_cases hk : key = s.key
  · subst hk
    simp [last?_cons_self, Setting.binding]
  · simp [hk, last?_cons_of_ne hk]

end Maps

end Inputs

/-! ## Calls -/

/-- A call of one of the setters, with the nodes that are alive then. -/
inductive Call where
  | set (alive : NodeId → Bool) (key : String) (socket : Option Socket)
  | setAny (alive : NodeId → Bool) (key : String) (value : Dynamic)

namespace Call

/-- What a call makes of inputs. -/
def apply (inputs : Inputs) : Call → Except GraphError Inputs
  | .set alive key s => inputs.set alive key s
  | .setAny alive key value => inputs.setAny alive key value

/-- The setting that a call makes, unless its value is of a type that no input takes. -/
def setting? : Call → Option Setting
  | .set alive key s => some ⟨key, s, alive⟩
  | .setAny alive key (.socket s) => some ⟨key, some s, alive⟩
  | .setAny alive key (.optional s) => some ⟨key, s, alive⟩
  | .setAny _ _ .other => none

end Call

namespace Inputs

/-- Inputs after some calls, one after another. A call that fails leaves them as they are. -/
def after (inputs : Inputs) : List Call → Inputs
  | [] => inputs
  | c :: calls =>
    match c.apply inputs with
    | .ok changed => changed.after calls
    | .error _ => inputs.after calls

/-- The settings that the same calls make, the latest first. A call that fails makes none. -/
def taken (inputs : Inputs) : List Call → List Setting
  | [] => []
  | c :: calls =>
    match c.apply inputs with
    | .ok changed => changed.taken calls ++ c.setting?.toList
    | .error _ => inputs.taken calls

variable {inputs changed : Inputs} {names : List String} {settings : List Setting} {key : String}

namespace Maps

/-- A call that succeeds makes a setting. -/
theorem apply (h : inputs.Maps names settings) {c : Call} (hc : c.apply inputs = .ok changed) :
    ∃ s, c.setting? = some s ∧ changed.Maps names (s :: settings) := by
  cases c with
  | set alive key s => exact ⟨⟨key, s, alive⟩, rfl, h.set hc⟩
  | setAny alive key value =>
    cases value with
    | socket s => exact ⟨⟨key, some s, alive⟩, rfl, h.set hc⟩
    | optional s => exact ⟨⟨key, s, alive⟩, rfl, h.set hc⟩
    | other =>
      obtain ⟨-, -, hc⟩ := bind_eq_ok.mp hc
      cases hc

theorem after (h : inputs.Maps names settings) (calls : List Call) :
    (inputs.after calls).Maps names (inputs.taken calls ++ settings) := by
  -- The settings are generalized, as those of the first call are old ones for the next.
  induction calls generalizing inputs settings with
  | nil => exact h
  | cons c calls ih =>
    rw [Inputs.after, Inputs.taken]
    cases hc : c.apply inputs with
    | error e => exact ih h
    | ok changed =>
      obtain ⟨s, hs, hm⟩ := h.apply hc
      simpa [hs] using ih hm

end Maps

/-! ## What shows -/

/-- Inputs of some names, after settings of which the latest comes first. -/
structure Keyed (inputs : Inputs) (names : List String) (settings : List Setting) : Prop where
  accepted : ∃ policy : NamePolicy, policy.checkAll names = .ok ()
  names_eq : inputs.names = names
  length_eq : inputs.slots.length = names.length
  /-- By position there is each name with the socket that it was last set to. -/
  entries_eq : inputs.entries = names.map fun key => (key, socketOf settings key)
  values_eq : inputs.values = names.map (socketOf settings)
  /-- By name there is the same socket. -/
  get_eq (key : String) (hk : key ∈ names) : inputs.get key = .ok (socketOf settings key)
  /-- The binding holds the owner of the socket, if that was alive at the time of the setting. -/
  feeder_eq (key : String) (hk : key ∈ names) : inputs.feeder key = .ok (feederOf settings key)
  /-- A declared name can always be set, and that is all that changes, by name and by position. -/
  set_declared (alive : NodeId → Bool) (key : String) (hk : key ∈ names) (s : Option Socket) :
    ∃ changed, inputs.set alive key s = .ok changed ∧
      changed.slots = inputs.slots.set (names.idxOf key) ⟨key, s.map (Binding.now alive)⟩ ∧
      changed.values = inputs.values.set (names.idxOf key) s ∧
      changed.entries = inputs.entries.set (names.idxOf key) (key, s) ∧
      ∀ other ≠ key, changed.get other = inputs.get other ∧
        changed.feeder other = inputs.feeder other
  /-- A name that is not declared is unknown, whatever is asked of it. -/
  undeclared (key : String) (hk : key ∉ names) :
    inputs.get key = .error (.unknownKey key) ∧ inputs.feeder key = .error (.unknownKey key) ∧
      ∀ alive, (∀ s, inputs.set alive key s = .error (.unknownKey key)) ∧
        ∀ value, inputs.setAny alive key value = .error (.unknownKey key)
  /-- A dynamic value is taken as what it is, if it is a socket or an optional one. -/
  setAny_socket (alive : NodeId → Bool) (key : String) (s : Socket) :
    inputs.setAny alive key (.socket s) = inputs.set alive key (some s)
  setAny_optional (alive : NodeId → Bool) (key : String) (s : Option Socket) :
    inputs.setAny alive key (.optional s) = inputs.set alive key s
  /-- Any other is refused, even where the name is declared. -/
  setAny_other (alive : NodeId → Bool) (key : String) (hk : key ∈ names) :
    inputs.setAny alive key .other = .error (.typeMismatch key)

theorem Maps.set_eq_error (h : inputs.Maps names settings) (hk : key ∉ names)
    (alive : NodeId → Bool) (s : Option Socket) : inputs.set alive key s = .error (.unknownKey key) :=
  set_eq_error_iff.mpr ⟨h.names_eq.symm ▸ hk, rfl⟩

theorem Maps.setAny_eq_error (h : inputs.Maps names settings) (hk : key ∉ names)
    (alive : NodeId → Bool) (value : Dynamic) :
    inputs.setAny alive key value = .error (.unknownKey key) := by
  cases value with
  | socket s => exact h.set_eq_error hk alive (some s)
  | optional s => exact h.set_eq_error hk alive s
  | other => exact setAny_other_eq_error_iff.mpr (.inl ⟨h.names_eq.symm ▸ hk, rfl⟩)

/-- A setting replaces one slot, and nothing else. -/
theorem Maps.slots_of_set (h : inputs.Maps names settings) {alive : NodeId → Bool}
    {s : Option Socket} (hs : inputs.set alive key s = .ok changed) :
    changed.slots = inputs.slots.set (names.idxOf key) ⟨key, s.map (Binding.now alive)⟩ := by
  rw [slots_of_rebind hs, rebound_eq_set, ← h.names_eq]
  rfl

/-- A setting of one name leaves the others alone, by name and by position. -/
theorem Maps.set_declared (h : inputs.Maps names settings) (hk : key ∈ names)
    (alive : NodeId → Bool) (s : Option Socket) :
    ∃ changed, inputs.set alive key s = .ok changed ∧
      changed.slots = inputs.slots.set (names.idxOf key) ⟨key, s.map (Binding.now alive)⟩ ∧
      changed.values = inputs.values.set (names.idxOf key) s ∧
      changed.entries = inputs.entries.set (names.idxOf key) (key, s) ∧
      ∀ other ≠ key, changed.get other = inputs.get other ∧
        changed.feeder other = inputs.feeder other := by
  obtain ⟨changed, hs⟩ := h.exists_set hk alive s
  have hslots := h.slots_of_set hs
  have hsocket : (s.map (Binding.now alive)).map (·.socket) = s :=
    map_socket_binding ⟨key, s, alive⟩
  refine ⟨changed, hs, hslots, ?_, ?_, fun other ho => ?_⟩
  · rw [values, hslots, List.map_set]
    exact congrArg (inputs.values.set (names.idxOf key)) hsocket
  · rw [entries, hslots, List.map_set]
    exact congrArg (fun s => inputs.entries.set (names.idxOf key) (key, s)) hsocket
  · have hb := binding_of_rebind_of_ne hs ho
    rw [get, Inputs.feeder, hb]
    exact ⟨rfl, rfl⟩

theorem Maps.keyed (h : inputs.Maps names settings) : inputs.Keyed names settings where
  accepted := h.accepted
  names_eq := h.names_eq
  length_eq := by rw [h.slots_eq, List.length_map]
  entries_eq := h.entries_eq
  values_eq := h.values_eq
  get_eq _ := h.get_eq
  feeder_eq _ := h.feeder_eq
  set_declared alive _ hk := h.set_declared hk alive
  undeclared key hk := by
    have hb := h.binding_eq_error hk
    refine ⟨by rw [get, hb]; rfl, by rw [Inputs.feeder, hb]; rfl, fun alive => ?_⟩
    exact ⟨h.set_eq_error hk alive, h.setAny_eq_error hk alive⟩
  setAny_socket _ _ _ := rfl
  setAny_optional _ _ _ := rfl
  setAny_other _ _ hk :=
    setAny_other_eq_error_iff.mpr (.inr ⟨h.names_eq.symm ▸ hk, rfl⟩)

/-- New inputs are a map from their names to what was set last, after any calls of the setters. -/
theorem keyed_after {policy : NamePolicy} (h : ofNames policy names = .ok inputs)
    (calls : List Call) : (inputs.after calls).Keyed names (inputs.taken calls) := by
  have hm := (maps_of_ofNames h).after calls
  rw [List.append_nil] at hm
  exact hm.keyed

/-- A living node at one name, a dead one at the other, and two calls that are refused. -/
theorem keyed_after_refused :
    ∃ inputs calls, ofNames .identifier ["x", "y"] = .ok inputs ∧
      calls = [.set (· = ⟨0⟩) "x" (some ⟨⟨0⟩, "v"⟩), .setAny (· = ⟨0⟩) "y" (.socket ⟨⟨1⟩, "w"⟩),
        .setAny (· = ⟨1⟩) "x" .other, .set (· = ⟨1⟩) "z" none] ∧
      (inputs.after calls).entries = [("x", some ⟨⟨0⟩, "v"⟩), ("y", some ⟨⟨1⟩, "w"⟩)] ∧
      (inputs.after calls).feeder "x" = .ok (some ⟨0⟩) ∧
      (inputs.after calls).feeder "y" = .ok none ∧
      (inputs.after calls).Keyed ["x", "y"] (inputs.taken calls) := by
  have h : ofNames .identifier ["x", "y"] = .ok (unconnected ["x", "y"]) := by decide
  exact ⟨_, _, h, rfl, by decide, by decide, by decide, keyed_after h _⟩

end Inputs

end PullGraph
