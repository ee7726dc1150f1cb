import PullGraph.Value.Basic

/-!
# Addition of values

* Two integers of the signed 64-bit range whose sum is in that range add exactly.
* Any other two numbers add as floats, and the sum has to be finite.
* Nothing else can be added.
-/

namespace PullGraph

namespace Number

/-- The signed 64-bit integers. -/
def Signed (n : Int) : Prop := -0x8000000000000000 ≤ n ∧ n < 0x8000000000000000

instance (n : Int) : Decidable (Signed n) :=
  inferInstanceAs (Decidable (-0x8000000000000000 ≤ n ∧ n < 0x8000000000000000))

theorem Signed.inRange {n : Int} (h : Signed n) : InRange n := ⟨h.1, by have := h.2; omega⟩

/-- The integer of a number, if it is one of the signed range. -/
def signed? : Number → Option Int
  | .int n _ => if Signed n then some n else none
  | .float _ => none

/-- The float of a number, the nearest one for an integer. -/
def toFloat : Number → Float
  | .int n _ => nearest n
  | .float x => x

/-- The sum as floats, unless it is infinite or no number. -/
def addFloat? (a b : Number) : Option Number :=
  let sum := a.toFloat + b.toFloat
  if sum.isFinite then some (.float sum) else none

/-- The sum of two numbers: exact where the signed range allows it, otherwise as floats. -/
def add? (a b : Number) : Option Number :=
  match a.signed?, b.signed? with
  | some m, some n => if h : Signed (m + n) then some (.int (m + n) h.inRange) else addFloat? a b
  | _, _ => addFloat? a b

end Number

/-- The sum of two values, which only numbers have. -/
def Value.add? : Value → Value → Option Value
  | .number a, .number b => (a.add? b).map .number
  | _, _ => none

end PullGraph
