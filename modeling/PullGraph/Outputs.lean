import PullGraph.Error
import PullGraph.Value.Basic

/-!
# Outputs

The cells of the output sockets of a node: a fixed list of names, each with the value that was last
written, if one was. `Outputs.find?` looks at a cell and `Outputs.write` fills it; nothing empties a
cell.
-/

namespace PullGraph

/-- A fixed list of named cells. -/
structure Outputs where
  cells : List (String × Option Value)
  deriving Inhabited

namespace Outputs

/-- Cells of the given names, all unset. -/
def unset (names : List String) : Outputs := ⟨names.map (·, none)⟩

variable (outputs : Outputs)

/-- The names, in the order of declaration. -/
def names : List String := outputs.cells.map (·.1)

/-- The cell of a name, if the name is declared. -/
def find? (key : String) : Option (Option Value) := outputs.cells.lookup key

/-- The cells with a value in the first one of a name. -/
def refilled (key : String) (v : Value) : List (String × Option Value) → List (String × Option Value)
  | [] => []
  | cell :: rest =>
    if cell.1 = key then (cell.1, some v) :: rest else cell :: refilled key v rest

/-- The outputs with a value written to the cell of a name. -/
def write (key : String) (v : Value) : Outputs := ⟨refilled key v outputs.cells⟩

@[simp] theorem names_unset (names : List String) : (unset names).names = names := by
  simp [unset, Outputs.names, Function.comp_def]

@[simp] theorem names_write (key : String) (v : Value) :
    (outputs.write key v).names = outputs.names := by
  obtain ⟨cells⟩ := outputs
  simp only [names, write]
  induction cells with
  | nil => rfl
  | cons cell rest ih =>
    rw [refilled]
    split
    · rfl
    · rw [List.map_cons, ih, List.map_cons]

theorem isSome_find?_iff {key : String} : (outputs.find? key).isSome ↔ key ∈ outputs.names := by
  obtain ⟨cells⟩ := outputs
  simp only [find?, names]
  induction cells with
  | nil => simp
  | cons cell rest ih =>
    obtain ⟨name, value⟩ := cell
    by_cases hk : key = name
    · simp [hk]
    · have hk' : (key == name) = false := by simp [hk]
      simp [List.lookup_cons, hk, hk', ih]

@[simp] theorem join_find?_unset (names : List String) (key : String) :
    ((unset names).find? key).join = none := by
  simp only [find?, unset]
  induction names with
  | nil => rfl
  | cons name rest ih =>
    by_cases hk : key = name
    · simp [hk]
    · have hk' : (key == name) = false := by simp [hk]
      simpa [List.lookup_cons, hk'] using ih

theorem find?_write_of_ne {key other : String} (v : Value) (h : other ≠ key) :
    (outputs.write key v).find? other = outputs.find? other := by
  obtain ⟨cells⟩ := outputs
  simp only [find?, write]
  induction cells with
  | nil => rfl
  | cons cell rest ih =>
    obtain ⟨name, value⟩ := cell
    rw [refilled]
    split
    · next hk =>
      have ho : (other == name) = false := by simpa using fun e => h (e.trans hk)
      simp [List.lookup_cons, ho]
    · rw [List.lookup_cons, ih, List.lookup_cons]

theorem find?_write_self {key : String} (v : Value) {old : Option Value}
    (h : outputs.find? key = some old) : (outputs.write key v).find? key = some (some v) := by
  obtain ⟨cells⟩ := outputs
  simp only [find?, write] at h ⊢
  induction cells with
  | nil => simp at h
  | cons cell rest ih =>
    obtain ⟨name, value⟩ := cell
    rw [refilled]
    split
    · next hk => simp [show name = key from hk]
    · next hk =>
      have hk' : (key == name) = false := by simpa using Ne.symm hk
      rw [List.lookup_cons, hk'] at h ⊢
      exact ih h

end Outputs

end PullGraph
