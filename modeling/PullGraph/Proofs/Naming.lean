import Mathlib.Computability.Language
import Mathlib.Data.List.DropRight
import PullGraph.Proofs.Effect

/-!
# Which names are accepted

* `NamePolicy.language`: the strings that a policy accepts, as a language. An identifier is a word
  of `[A-Za-z_][A-Za-z0-9_]*`.
* `NamePolicy.fault?_eq_none_iff`: the check of a name accepts the words of this language. It is
  put together from `NamePolicy.fault?_identifier_eq_none_iff` and
  `NamePolicy.fault?_nonEmpty_eq_none_iff`.
* `NamePolicy.Offends`: something is wrong with the name at an index of a list.
* `NamePolicy.firstFault?_eq_some_iff`: the check of a list reports the first index at which
  something is wrong.
* `Graph.create_eq_error_iff`, `Graph.inputs_of_create`, `Graph.outputs_of_create`: what this means
  for the creation of a node.
* `Graph.naming`: all of this together.
-/

namespace PullGraph

open scoped Computability

/-! ## Languages -/

/-- The words of one character of a class. -/
def Text.oneOf (p : Char → Prop) : Language Char := {word | ∃ c, p c ∧ word = [c]}

namespace NamePolicy

/-- A letter of ASCII. -/
def IsLetter (c : Char) : Prop := ('A' ≤ c ∧ c ≤ 'Z') ∨ ('a' ≤ c ∧ c ≤ 'z')

/-- A digit of ASCII. -/
def IsDigit (c : Char) : Prop := '0' ≤ c ∧ c ≤ '9'

/-- The words that a policy accepts. -/
def language : NamePolicy → Language Char
  | .identifier => Text.oneOf (fun c => IsLetter c ∨ c = '_') *
      (Text.oneOf fun c => IsLetter c ∨ IsDigit c ∨ c = '_')∗
  | .nonEmpty => {word | ∃ h : word ≠ [], Text.isBlank (word.head h) = false ∧
      Text.isBlank (word.getLast h) = false}

end NamePolicy

namespace Text

variable {p : Char → Prop} {word : List Char}

theorem mem_oneOf {c : Char} : [c] ∈ oneOf p ↔ p c := by
  constructor
  · rintro ⟨d, hd, e⟩
    cases e
    exact hd
  · exact fun h => ⟨c, h, rfl⟩

/-- The words of any number of characters of a class. -/
theorem mem_kstar_oneOf : word ∈ (oneOf p)∗ ↔ ∀ c ∈ word, p c := by
  rw [Language.mem_kstar]
  constructor
  · rintro ⟨words, rfl, hw⟩ c hc
    obtain ⟨one, ho, hc⟩ := List.mem_flatten.mp hc
    obtain ⟨d, hd, rfl⟩ := hw one ho
    exact List.mem_singleton.mp hc ▸ hd
  · intro h
    refine ⟨word.map fun c => [c], ?_, fun one ho => ?_⟩
    · induction word with
      | nil => rfl
      | cons c cs ih =>
        rw [List.map_cons, List.flatten_cons, ← ih fun d hd => h d (List.mem_cons_of_mem _ hd)]
        rfl
    · obtain ⟨c, hc, rfl⟩ := List.mem_map.mp ho
      exact mem_oneOf.mpr (h c hc)

/-- One character of a class and then any number of another one. -/
theorem mem_oneOf_mul_kstar {q : Char → Prop} :
    word ∈ oneOf p * (oneOf q)∗ ↔ ∃ c cs, word = c :: cs ∧ p c ∧ ∀ d ∈ cs, q d := by
  rw [Language.mem_mul]
  constructor
  · rintro ⟨_, ⟨c, hc, rfl⟩, cs, hcs, rfl⟩
    exact ⟨c, cs, rfl, hc, mem_kstar_oneOf.mp hcs⟩
  · rintro ⟨c, cs, rfl, hc, hcs⟩
    exact ⟨[c], mem_oneOf.mpr hc, cs, mem_kstar_oneOf.mpr hcs, rfl⟩

/-! ## Margins -/

/-- Trimming leaves a word alone exactly if it has no blank at either end. -/
theorem trim_eq_self_iff (h : word ≠ []) :
    trim word = word ↔ isBlank (word.head h) = false ∧ isBlank (word.getLast h) = false := by
  have hhead : word.dropWhile isBlank = word ↔ isBlank (word.head h) = false := by
    rw [List.dropWhile_eq_self_iff, List.head_eq_getElem]
    simp only [Bool.not_eq_true]
    exact forall_prop_of_true (List.length_pos_iff.mpr h)
  have hlast : word.rdropWhile isBlank = word ↔ isBlank (word.getLast h) = false := by
    rw [List.rdropWhile_eq_self_iff]
    simp only [Bool.not_eq_true]
    exact forall_prop_of_true h
  rw [← hhead, ← hlast]
  change (word.dropWhile isBlank).rdropWhile isBlank = word ↔ _
  constructor
  · intro he
    -- Neither of the two cuts takes anything away, since both together do not.
    have hsuffix := List.dropWhile_suffix (l := word) isBlank
    have hprefix := List.rdropWhile_prefix isBlank (l := word.dropWhile isBlank)
    have hle := hprefix.length_le
    rw [he] at hle
    have hd := hsuffix.eq_of_length_le hle
    rw [hd] at he
    exact ⟨hd, he⟩
  · rintro ⟨hd, hr⟩
    rw [hd, hr]

end Text

/-! ## Names -/

namespace NamePolicy

variable {c : Char} {name : String}

theorem isAlpha_iff : c.isAlpha = true ↔ IsLetter c := by
  change (decide ('A' ≤ c ∧ c ≤ 'Z') || (decide ('a' ≤ c) && decide (c ≤ 'z'))) = true ↔ _
  simp only [IsLetter, Bool.or_eq_true, Bool.and_eq_true, decide_eq_true_eq]

theorem isDigit_iff : c.isDigit = true ↔ IsDigit c := by
  change (decide ('0' ≤ c) && decide (c ≤ '9')) = true ↔ _
  simp only [IsDigit, Bool.and_eq_true, decide_eq_true_eq]

theorem isStart_iff : isStart c = true ↔ IsLetter c ∨ c = '_' := by
  rw [isStart, Bool.or_eq_true, isAlpha_iff, beq_iff_eq]

theorem isPart_iff : isPart c = true ↔ IsLetter c ∨ IsDigit c ∨ c = '_' := by
  change ((c.isAlpha || c.isDigit) || c == '_') = true ↔ _
  rw [Bool.or_eq_true, Bool.or_eq_true, isAlpha_iff, isDigit_iff, beq_iff_eq, or_assoc]

/-- No character of an identifier is blank. -/
theorem isBlank_of_isPart (h : IsLetter c ∨ IsDigit c ∨ c = '_') : Text.isBlank c = false := by
  have hc : (65 ≤ c.toNat ∧ c.toNat ≤ 90) ∨ (97 ≤ c.toNat ∧ c.toNat ≤ 122) ∨
      (48 ≤ c.toNat ∧ c.toNat ≤ 57) ∨ c.toNat = 95 := by
    rcases h with (⟨h, h'⟩ | ⟨h, h'⟩) | ⟨h, h'⟩ | rfl
    · exact .inl ⟨h, h'⟩
    · exact .inr (.inl ⟨h, h'⟩)
    · exact .inr (.inr (.inl ⟨h, h'⟩))
    · exact .inr (.inr (.inr rfl))
  simp only [Text.isBlank, Text.blankRanges, List.any_cons, List.any_nil, Bool.or_eq_false_iff,
    Bool.and_eq_false_iff, decide_eq_false_iff_not, and_true]
  omega

/-- An identifier is a letter or an underscore and then letters, digits and underscores. -/
theorem fault?_identifier_eq_none_iff :
    fault? .identifier name = none ↔ name.toList ∈ language .identifier := by
  rw [language, Text.mem_oneOf_mul_kstar]
  unfold fault?
  cases name.toList with
  | nil => simp
  | cons c cs =>
    simp only [List.cons.injEq, ← isStart_iff, ← isPart_iff]
    cases hc : isStart c <;> cases hcs : cs.all isPart <;> simp_all

theorem fault?_nonEmpty_eq_none_iff :
    fault? .nonEmpty name = none ↔ name.toList ∈ language .nonEmpty := by
  unfold fault?
  cases hn : name.toList with
  | nil => exact iff_of_false nofun fun ⟨h, _⟩ => h rfl
  | cons c cs =>
    have hne : c :: cs ≠ [] := List.cons_ne_nil c cs
    change (if Text.trim (c :: cs) = c :: cs then none else some NameFault.margin) = none ↔ ∃ h, _
    rw [exists_prop_of_true hne, ← Text.trim_eq_self_iff hne]
    split <;> simp_all

/-- The check of a name accepts the words of the language. -/
theorem fault?_eq_none_iff (policy : NamePolicy) :
    policy.fault? name = none ↔ name.toList ∈ policy.language := by
  cases policy
  · exact fault?_identifier_eq_none_iff
  · exact fault?_nonEmpty_eq_none_iff

/-- Every identifier is a name without blank margins. -/
theorem mem_nonEmpty_of_mem_identifier {word : List Char} (hw : word ∈ language .identifier) :
    word ∈ language .nonEmpty := by
  obtain ⟨c, cs, rfl, hc, hcs⟩ := Text.mem_oneOf_mul_kstar.mp hw
  have hall (d : Char) (hd : d ∈ c :: cs) : Text.isBlank d = false := by
    rcases List.mem_cons.mp hd with rfl | hd
    · exact isBlank_of_isPart (hc.imp_right .inr)
    · exact isBlank_of_isPart (hcs d hd)
  exact ⟨List.cons_ne_nil c cs, hall _ (List.head_mem _), hall _ (List.getLast_mem _)⟩

/-- Blanks alone are no name. -/
theorem not_mem_language_of_blank {policy : NamePolicy} {word : List Char}
    (h : ∀ c ∈ word, Text.isBlank c = true) : word ∉ policy.language := by
  have hne : word ∉ language .nonEmpty := by
    rintro ⟨hn, hh, -⟩
    rw [h _ (List.head_mem hn)] at hh
    cases hh
  cases policy with
  | identifier => exact fun hw => hne (mem_nonEmpty_of_mem_identifier hw)
  | nonEmpty => exact hne

/-! ## Lists of names -/

variable (policy : NamePolicy) {names : List String} {fault : NameFault}

theorem check_eq_ok_iff : policy.check name = .ok () ↔ policy.fault? name = none := by
  unfold check
  cases policy.fault? name <;> simp

theorem check_eq_error_iff {e : GraphError} :
    policy.check name = .error e ↔ ∃ fault, policy.fault? name = some fault ∧
      e = .invalidName name fault := by
  unfold check
  cases policy.fault? name <;> simp [eq_comm]

/-- The first name of a list is checked before the rest of it. -/
theorem faultAfter?_cons (seen : List String) (first : String) :
    policy.faultAfter? seen (first :: names) =
      (policy.faultAfter? seen [first]).or (policy.faultAfter? (first :: seen) names) := by
  cases hf : policy.fault? first with
  | some fault => simp [faultAfter?, hf]
  | none => by_cases hs : first ∈ seen <;> simp [faultAfter?, hf, hs]

theorem faultAfter?_singleton_eq_some_iff {seen : List String} {first : String} :
    policy.faultAfter? seen [first] = some (name, fault) ↔ first = name ∧
      (policy.fault? name = some fault ∨
        policy.fault? name = none ∧ name ∈ seen ∧ fault = .repeated) := by
  cases hf : policy.fault? first with
  | some f => grind [faultAfter?]
  | none => by_cases hs : first ∈ seen <;> grind [faultAfter?]

/-- What is reported of a list follows a part of it that is accepted. -/
theorem faultAfter?_eq_some_iff {seen : List String} :
    policy.faultAfter? seen names = some (name, fault) ↔
      ∃ before rest, names = before ++ name :: rest ∧ policy.faultAfter? seen before = none ∧
        (policy.fault? name = some fault ∨
          policy.fault? name = none ∧ (name ∈ seen ∨ name ∈ before) ∧ fault = .repeated) := by
  -- `seen` is generalized: for the rest of the list the first name counts as seen.
  induction names generalizing seen with
  | nil => simp [faultAfter?]
  | cons first names ih =>
    have hmem (before : List String) : name ∈ first :: seen ∨ name ∈ before ↔
        name ∈ seen ∨ name ∈ first :: before := by
      rw [List.mem_cons, List.mem_cons, or_assoc, or_left_comm]
    rw [faultAfter?_cons, Option.or_eq_some_iff, faultAfter?_singleton_eq_some_iff, ih]
    constructor
    · rintro (⟨rfl, hname⟩ | ⟨hfirst, before, rest, rfl, hb, hname⟩)
      · refine ⟨[], names, rfl, rfl, hname.imp_right ?_⟩
        rintro ⟨hn, hm, rfl⟩
        exact ⟨hn, .inl hm, rfl⟩
      · rw [hmem] at hname
        refine ⟨first :: before, rest, rfl, ?_, hname⟩
        rw [faultAfter?_cons, hfirst, hb]
        rfl
    · rintro ⟨before, rest, hsplit, hb, hname⟩
      cases before with
      | nil =>
        cases hsplit
        refine .inl ⟨rfl, hname.imp_right ?_⟩
        rintro ⟨hn, hm, rfl⟩
        exact ⟨hn, hm.resolve_right List.not_mem_nil, rfl⟩
      | cons _ before =>
        cases hsplit
        rw [faultAfter?_cons, Option.or_eq_none_iff] at hb
        rw [← hmem] at hname
        exact .inr ⟨hb.1, before, rest, rfl, hb.2, hname⟩

/-- Something is wrong with the name at an index of a list: the policy refuses it, or the policy
accepts it and the name occurs earlier in the list. -/
def Offends (names : List String) (i : Nat) (name : String) (fault : NameFault) : Prop :=
  names[i]? = some name ∧
    (policy.check name = .error (.invalidName name fault) ∨
      policy.check name = .ok () ∧ (∃ j < i, names[j]? = some name) ∧ fault = .repeated)

variable {policy}

theorem offends_iff {i : Nat} :
    policy.Offends names i name fault ↔ names[i]? = some name ∧
      (policy.fault? name = some fault ∨
        policy.fault? name = none ∧ (∃ j < i, names[j]? = some name) ∧ fault = .repeated) := by
  simp [Offends, check_eq_ok_iff, check_eq_error_iff]

/-- A part of a list offends where the list does. -/
theorem offends_append_iff {rest : List String} {i : Nat} (h : i < names.length) :
    policy.Offends (names ++ rest) i name fault ↔ policy.Offends names i name fault := by
  have hlow (j : Nat) (hj : j ≤ i) : (names ++ rest)[j]? = names[j]? :=
    List.getElem?_append_left (Nat.lt_of_le_of_lt hj h)
  simp only [Offends, hlow i (Nat.le_refl i)]
  refine and_congr_right fun _ => or_congr_right ?_
  refine and_congr_right fun _ => and_congr_left fun _ => ?_
  exact exists_congr fun j => and_congr_right fun hj => by rw [hlow j hj.le]

/-- A list is accepted if nothing in it offends. -/
theorem firstFault?_eq_none_iff_forall_not_offends :
    policy.firstFault? names = none ↔ ∀ i name fault, ¬policy.Offends names i name fault := by
  simp only [firstFault?_eq_none_iff, offends_iff]
  constructor
  · rintro ⟨hall, hnodup⟩ i name fault ⟨hi, hf | ⟨-, ⟨j, hj, hn⟩, -⟩⟩
    · rw [hall name (List.mem_of_getElem? hi)] at hf
      cases hf
    · have hlt := (List.getElem?_eq_some_iff.mp hi).1
      exact List.nodup_iff_getElem?_ne_getElem?.mp hnodup j i hj hlt (hn.trans hi.symm)
  · intro h
    have hall (name : String) (hm : name ∈ names) : policy.fault? name = none := by
      obtain ⟨i, hi⟩ := List.mem_iff_getElem?.mp hm
      cases hf : policy.fault? name with
      | none => rfl
      | some fault => exact absurd ⟨hi, .inl hf⟩ (h i name fault)
    refine ⟨hall, List.nodup_iff_getElem?_ne_getElem?.mpr fun j i hj hlt e => ?_⟩
    have hi := List.getElem?_eq_getElem hlt
    exact h i _ .repeated ⟨hi, .inr ⟨hall _ (List.getElem_mem hlt), ⟨j, hj, e.trans hi⟩, rfl⟩⟩

/-- What is reported of a list is its first offender. -/
theorem firstFault?_eq_some_iff :
    policy.firstFault? names = some (name, fault) ↔
      ∃ i, policy.Offends names i name fault ∧
        ∀ j < i, ∀ other reason, ¬policy.Offends names j other reason := by
  constructor
  · intro h
    obtain ⟨before, rest, rfl, hb, hname⟩ := (faultAfter?_eq_some_iff policy).mp h
    refine ⟨before.length, offends_iff.mpr ⟨by simp, ?_⟩, fun j hj other reason ho => ?_⟩
    · refine hname.imp_right fun ⟨hn, hm, e⟩ => ⟨hn, ?_, e⟩
      obtain ⟨j, hj⟩ := List.mem_iff_getElem?.mp (hm.resolve_left List.not_mem_nil)
      have hlt := (List.getElem?_eq_some_iff.mp hj).1
      exact ⟨j, hlt, (List.getElem?_append_left hlt).trans hj⟩
    · exact firstFault?_eq_none_iff_forall_not_offends.mp hb j other reason
        ((offends_append_iff hj).mp ho)
  · rintro ⟨i, ho, hfirst⟩
    obtain ⟨hi, hname⟩ := offends_iff.mp ho
    obtain ⟨hlt, rfl⟩ := List.getElem?_eq_some_iff.mp hi
    have hsplit : names = names.take i ++ names[i] :: names.drop (i + 1) := by
      rw [← List.drop_eq_getElem_cons, List.take_append_drop]
    have hlen : (names.take i).length = i := List.length_take_of_le hlt.le
    refine (faultAfter?_eq_some_iff policy).mpr ⟨names.take i, _, hsplit, ?_, ?_⟩
    · refine firstFault?_eq_none_iff_forall_not_offends.mpr fun j other reason hj => ?_
      have hji : j < i := by
        have hl := (List.getElem?_eq_some_iff.mp hj.1).1
        rwa [hlen] at hl
      refine hfirst j hji other reason ?_
      rw [hsplit]
      exact (offends_append_iff (by rwa [hlen])).mpr hj
    · refine hname.imp_right fun ⟨hn, ⟨j, hj, e⟩, hf⟩ => ⟨hn, .inr ?_, hf⟩
      exact List.mem_of_getElem? ((List.getElem?_take_of_lt hj).trans e)

theorem checkAll_eq_error_iff {e : GraphError} :
    policy.checkAll names = .error e ↔
      ∃ name fault, policy.firstFault? names = some (name, fault) ∧
        e = .invalidName name fault := by
  unfold checkAll
  cases policy.firstFault? names with
  | none => simp
  | some offender =>
    obtain ⟨first, reason⟩ := offender
    simp [eq_comm]

end NamePolicy

/-! ## Creation -/

namespace Graph

variable {g g' : Graph} {policy : NamePolicy} {logic : Logic} {id : NodeId} {records : List Record}

/-- A node is refused for its inputs, or else for its outputs. -/
theorem create_eq_error_iff {e : GraphError} :
    g.create policy logic = .error e ↔ policy.checkAll logic.inputNames = .error e ∨
      policy.checkAll logic.inputNames = .ok () ∧ policy.checkAll logic.outputNames = .error e := by
  unfold create Inputs.ofNames
  rcases policy.checkAll logic.inputNames with _ | ⟨⟨⟩⟩ <;>
    rcases policy.checkAll logic.outputNames with _ | ⟨⟨⟩⟩ <;>
    simp [bind, Except.bind, pure, Except.pure]

theorem exists_create_eq_ok_iff :
    (∃ made, g.create policy logic = .ok made) ↔
      policy.checkAll logic.inputNames = .ok () ∧ policy.checkAll logic.outputNames = .ok () := by
  constructor
  · rintro ⟨⟨id, g', records⟩, h⟩
    obtain ⟨hi, ho, -⟩ := create_eq_ok h
    exact ⟨hi, ho⟩
  · rintro ⟨hi, ho⟩
    cases h : g.create policy logic with
    | ok made => exact ⟨made, rfl⟩
    | error e =>
      rcases create_eq_error_iff.mp h with h | ⟨-, h⟩
      · rw [hi] at h
        cases h
      · rw [ho] at h
        cases h

/-- The record of a node that was just made. -/
theorem node?_of_create (h : g.create policy logic = .ok (id, g', records)) :
    g'.node? id = some (.fresh logic (.unconnected logic.inputNames)) := by
  obtain ⟨-, -, rfl, rfl⟩ := create_eq_ok h
  simp [node?_push]

/-- A node that was just made has nothing connected. -/
theorem inputs_of_create (h : g.create policy logic = .ok (id, g', records)) :
    (g'.inputs id).slots = logic.inputNames.map (⟨·, none⟩) := by
  simp [inputs, node?_of_create h, Node.fresh, Inputs.unconnected]

/-- A node that was just made has nothing computed. -/
theorem outputs_of_create (h : g.create policy logic = .ok (id, g', records)) :
    (g'.outputs id).cells = logic.outputNames.map (·, none) := by
  simp [outputs, node?_of_create h, Node.fresh, Outputs.unset]

theorem state_of_create (h : g.create policy logic = .ok (id, g', records)) (name : String) :
    g'.state ⟨id, name⟩ = .unrealized := by
  simp [state, cell?, computing, node?_of_create h, Node.fresh]

end Graph

/-! ## All of it -/

/-- What holds of all names, of all lists of names and of all nodes that are to be made. -/
structure Graph.Naming (g : Graph) : Prop where
  /-- An identifier is a letter or an underscore, and then letters, digits and underscores. -/
  identifier (name : String) : NamePolicy.identifier.check name = .ok () ↔
    name.toList ∈ Text.oneOf (fun c => NamePolicy.IsLetter c ∨ c = '_') *
      (Text.oneOf fun c => NamePolicy.IsLetter c ∨ NamePolicy.IsDigit c ∨ c = '_')∗
  /-- Otherwise a name is anything with a first and a last character that are not blank. -/
  nonEmpty (name : String) : NamePolicy.nonEmpty.check name = .ok () ↔
    ∃ h : name.toList ≠ [], Text.isBlank (name.toList.head h) = false ∧
      Text.isBlank (name.toList.getLast h) = false
  /-- Blanks alone are not a name. -/
  blank (policy : NamePolicy) (name : String) (h : ∀ c ∈ name.toList, Text.isBlank c = true) :
    policy.check name ≠ .ok ()
  /-- Every identifier is a name. -/
  widens (name : String) (h : NamePolicy.identifier.check name = .ok ()) :
    NamePolicy.nonEmpty.check name = .ok ()
  /-- A list is accepted if all its names are, and no two of them are equal. -/
  accepted (policy : NamePolicy) (names : List String) : policy.checkAll names = .ok () ↔
    (∀ name ∈ names, policy.check name = .ok ()) ∧ names.Nodup
  /-- Of any other list the first offender is reported. -/
  reported (policy : NamePolicy) (names : List String) (e : GraphError) :
    policy.checkAll names = .error e ↔ ∃ i name fault, policy.Offends names i name fault ∧
      (∀ j < i, ∀ other reason, ¬policy.Offends names j other reason) ∧
      e = .invalidName name fault
  /-- The words of the report for a name that occurs earlier. -/
  repeated : NameFault.repeated.text = "declared more than once"
  /-- The names of the inputs and those of the outputs are checked apart from each other. -/
  made (policy : NamePolicy) (logic : Logic) : (∃ made, g.create policy logic = .ok made) ↔
    policy.checkAll logic.inputNames = .ok () ∧ policy.checkAll logic.outputNames = .ok ()
  /-- The inputs are reported before the outputs. -/
  refused (policy : NamePolicy) (logic : Logic) (e : GraphError) :
    g.create policy logic = .error e ↔ policy.checkAll logic.inputNames = .error e ∨
      policy.checkAll logic.inputNames = .ok () ∧ policy.checkAll logic.outputNames = .error e
  /-- A new node has the names that were declared, in their order, with nothing connected and
  nothing computed. -/
  fresh (policy : NamePolicy) (logic : Logic) (id : NodeId) (g' : Graph) (records : List Record)
    (h : g.create policy logic = .ok (id, g', records)) :
    (g'.inputs id).slots = logic.inputNames.map (⟨·, none⟩) ∧
      (g'.outputs id).cells = logic.outputNames.map (·, none) ∧
      ∀ s ∈ g'.sockets id, g'.state s = .unrealized

/-- Names are accepted by the grammar of their policy, and the first offender of a list is
reported. -/
theorem Graph.naming (g : Graph) : g.Naming where
  identifier _ := (NamePolicy.check_eq_ok_iff _).trans NamePolicy.fault?_identifier_eq_none_iff
  nonEmpty _ := (NamePolicy.check_eq_ok_iff _).trans NamePolicy.fault?_nonEmpty_eq_none_iff
  blank policy name h := by
    rw [Ne, NamePolicy.check_eq_ok_iff, NamePolicy.fault?_eq_none_iff]
    exact NamePolicy.not_mem_language_of_blank h
  widens name h := by
    rw [NamePolicy.check_eq_ok_iff, NamePolicy.fault?_eq_none_iff] at h ⊢
    exact NamePolicy.mem_nonEmpty_of_mem_identifier h
  accepted policy names := by
    simp only [NamePolicy.checkAll_eq_ok_iff, NamePolicy.check_eq_ok_iff]
  reported policy names e := by
    simp only [NamePolicy.checkAll_eq_error_iff, NamePolicy.firstFault?_eq_some_iff]
    constructor
    · rintro ⟨name, fault, ⟨i, ho, hfirst⟩, he⟩
      exact ⟨i, name, fault, ho, hfirst, he⟩
    · rintro ⟨i, name, fault, ho, hfirst, he⟩
      exact ⟨name, fault, ⟨i, ho, hfirst⟩, he⟩
  repeated := rfl
  made _ _ := exists_create_eq_ok_iff
  refused _ _ _ := create_eq_error_iff
  fresh policy logic id g' records h := by
    refine ⟨inputs_of_create h, outputs_of_create h, fun s hs => ?_⟩
    obtain ⟨name, -, rfl⟩ := List.mem_map.mp hs
    exact state_of_create h name

end PullGraph
