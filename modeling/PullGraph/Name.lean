import PullGraph.Text.Blank

/-!
# Names of inputs and outputs

A policy says which strings may name an input or an output, and a list of names is accepted if each
name is and no two are equal.

* `NamePolicy.fault?`: what is wrong with one name.
* `NamePolicy.firstFault?`: the first name of a list that is wrong, and why. A name that breaks the
  policy is reported as such even if it also occurs earlier.
* `NamePolicy.firstFault?_eq_none_iff`: which lists are accepted.
-/

namespace PullGraph

/-- Which strings may name an input or an output. -/
inductive NamePolicy where
  /-- An ASCII letter or `_`, then ASCII letters, digits and `_`. -/
  | identifier
  /-- Any string that is not empty and has no blank at either end. -/
  | nonEmpty
  deriving DecidableEq, Repr, Inhabited

/-- Why a name is refused. -/
inductive NameFault where
  | empty
  | badStart
  | badCharacter
  | margin
  | repeated
  deriving DecidableEq, Repr

/-- The reason as it is reported. -/
def NameFault.text : NameFault → String
  | .empty => "name is empty"
  | .badStart => "must start with an ASCII letter or '_'"
  | .badCharacter => "may only contain ASCII letters, digits and '_'"
  | .margin => "has leading or trailing whitespace"
  | .repeated => "declared more than once"

namespace NamePolicy

/-- What an identifier may start with. -/
def isStart (c : Char) : Bool := c.isAlpha || c == '_'

/-- What an identifier may go on with. -/
def isPart (c : Char) : Bool := c.isAlphanum || c == '_'

/-- What is wrong with a name, if anything. -/
def fault? (policy : NamePolicy) (name : String) : Option NameFault :=
  match name.toList, policy with
  | [], _ => some .empty
  | c :: cs, .identifier =>
    if !isStart c then some .badStart
    else if !cs.all isPart then some .badCharacter
    else none
  | cs, .nonEmpty => if Text.trim cs = cs then none else some .margin

/-- The first fault of a list of names that follows the names `seen`. -/
def faultAfter? (policy : NamePolicy) (seen : List String) :
    List String → Option (String × NameFault)
  | [] => none
  | name :: names =>
    match policy.fault? name with
    | some fault => some (name, fault)
    | none =>
      if name ∈ seen then some (name, .repeated)
      else policy.faultAfter? (name :: seen) names

/-- The first name of a list that is refused, with the reason. -/
def firstFault? (policy : NamePolicy) (names : List String) : Option (String × NameFault) :=
  policy.faultAfter? [] names

variable (policy : NamePolicy) {names : List String}

theorem faultAfter?_eq_none_iff {seen : List String} :
    policy.faultAfter? seen names = none ↔
      (∀ name ∈ names, policy.fault? name = none ∧ name ∉ seen) ∧ names.Nodup := by
  induction names generalizing seen with
  | nil => simp [faultAfter?]
  | cons name rest ih =>
    cases hf : policy.fault? name with
    | some fault => simp [faultAfter?, hf]
    | none =>
      by_cases hs : name ∈ seen
      · simp [faultAfter?, hf, hs]
      · simp only [faultAfter?, hf, hs, if_false, ih, List.mem_cons, List.nodup_cons, not_or]
        grind

/-- A list of names has no fault if no name has one and none is repeated. -/
theorem firstFault?_eq_none_iff :
    policy.firstFault? names = none ↔
      (∀ name ∈ names, policy.fault? name = none) ∧ names.Nodup := by
  simp [firstFault?, faultAfter?_eq_none_iff]

end NamePolicy

end PullGraph
