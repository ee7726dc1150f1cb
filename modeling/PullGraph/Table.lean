/-!
# Tables

Entries under labels, at most one for each label. `Table.values` lists what a table holds.
-/

namespace PullGraph

/-- Entries under labels. -/
structure Table (α : Type) where
  entries : List (String × α)

namespace Table

variable {α : Type}

/-- The table without entries. -/
def empty : Table α := ⟨[]⟩

instance : Inhabited (Table α) := ⟨empty⟩

/-- The entry of a label. -/
def get? (t : Table α) (label : String) : Option α := t.entries.lookup label

/-- The table without the entry of a label. -/
def erase (t : Table α) (label : String) : Table α :=
  ⟨t.entries.filter fun entry => entry.1 != label⟩

/-- The table with an entry for a label, in place of the one it had. -/
def insert (t : Table α) (label : String) (a : α) : Table α :=
  ⟨(label, a) :: (t.erase label).entries⟩

/-- Everything in the table. -/
def values (t : Table α) : List α := t.entries.map (·.2)

@[simp] theorem get?_empty (label : String) : (empty : Table α).get? label = none := rfl

@[simp] theorem get?_insert_self (t : Table α) (label : String) (a : α) :
    (t.insert label a).get? label = some a := by
  simp [get?, insert]

theorem lookup_filter_ne (entries : List (String × α)) {label other : String}
    (h : other ≠ label) :
    (entries.filter fun entry => entry.1 != label).lookup other = entries.lookup other := by
  induction entries with
  | nil => rfl
  | cons entry rest ih =>
    obtain ⟨key, a⟩ := entry
    by_cases hk : key = label
    · subst hk
      have ho : (other == key) = false := by simp [h]
      simp [ih, List.lookup_cons, ho]
    · simp [hk, List.lookup_cons, ih]

theorem lookup_filter_self (entries : List (String × α)) (label : String) :
    (entries.filter fun entry => entry.1 != label).lookup label = none := by
  rw [List.lookup_eq_none_iff]
  intro entry h
  have hne := (List.mem_filter.mp h).2
  simpa using fun e => (bne_iff_ne.mp hne) e.symm

@[simp] theorem get?_erase_self (t : Table α) (label : String) :
    (t.erase label).get? label = none := lookup_filter_self t.entries label

theorem get?_erase_of_ne (t : Table α) {label other : String} (h : other ≠ label) :
    (t.erase label).get? other = t.get? other := lookup_filter_ne t.entries h

theorem get?_insert_of_ne (t : Table α) {label other : String} (a : α) (h : other ≠ label) :
    (t.insert label a).get? other = t.get? other := by
  have ho : (other == label) = false := by simp [h]
  simpa [get?, insert, erase, List.lookup_cons, ho] using lookup_filter_ne t.entries h

theorem mem_values_of_mem_erase {t : Table α} {label : String} {a : α}
    (h : a ∈ (t.erase label).values) : a ∈ t.values := by
  obtain ⟨entry, he, rfl⟩ := List.mem_map.mp h
  exact List.mem_map.mpr ⟨entry, (List.mem_filter.mp he).1, rfl⟩

theorem eq_or_mem_of_mem_insert {t : Table α} {label : String} {a b : α}
    (h : b ∈ (t.insert label a).values) : b = a ∨ b ∈ t.values := by
  rcases List.mem_cons.mp h with rfl | h
  · exact .inl rfl
  · exact .inr (mem_values_of_mem_erase h)

end Table

end PullGraph
