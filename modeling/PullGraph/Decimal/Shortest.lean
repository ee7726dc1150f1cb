/-!
# The shortest decimal of a float

A finite float `x ≠ 0` is `mantissa * 2 ^ exponent` up to its sign. The reals that round to it form
an interval around it, which holds its ends exactly if the mantissa is even. Among the decimals of
that interval `Binary.shortest` takes one with the fewest digits, of those the nearest to `x`, and
of two equally near ones the one with an even last digit.

* `Binary.ofFloat`: mantissa and exponent, and whether the next float below is only half as far
  away as the next one above.
* `Binary.onGrid?`: the best multiple of a power of ten in the interval. Only the two neighbours
  of `x` on the grid can be the best one.
* `Binary.shortest`: the first grid, from coarse to fine, that meets the interval.

All comparisons are exact, on natural numbers.
-/

namespace PullGraph

/-- The positive number `digits * 10 ^ exponent`. -/
structure Decimal where
  digits : Nat
  exponent : Int
  deriving DecidableEq, Repr, Inhabited

/-- The number of decimal digits of `n`, where 0 has one. -/
def Decimal.width (n : Nat) : Nat := (Nat.toDigits 10 n).length

/-- The positive number `mantissa * 2 ^ exponent`; `narrow` says that the float below it is half as
far away as the one above. -/
structure Binary where
  mantissa : Nat
  exponent : Int
  narrow : Bool
  deriving DecidableEq, Repr

namespace Binary

/-- The magnitude of a finite float, from its bits. -/
def ofFloat (x : Float) : Binary :=
  let bits := x.toBits.toNat
  let biased : Nat := (bits >>> 52) % 0x800
  let fraction : Nat := bits % 0x10000000000000
  if biased = 0 then ⟨fraction, -1074, false⟩
  else ⟨0x10000000000000 + fraction, (biased : Int) - 1075, fraction = 0 && biased != 1⟩

/-- The exponent of the first decimal digit of a number that is not 0. -/
def firstExponent (b : Binary) : Int :=
  let num := b.mantissa * Nat.pow 2 b.exponent.toNat
  let den := Nat.pow 2 (-b.exponent).toNat
  if den ≤ num then Decimal.width (num / den) - 1
  else -(Decimal.width ((den - 1) / num) : Int)

/-- The multiple of `10 ^ k` in the interval that is nearest to the number, if there is one.
A quarter of the last binary place and the grid's step are `num` and `den` in a common unit. -/
def onGrid? (b : Binary) (k : Int) : Option Decimal :=
  let num := Nat.pow 2 (b.exponent - 2).toNat * Nat.pow 10 (-k).toNat
  let den := Nat.pow 2 (2 - b.exponent).toNat * Nat.pow 10 k.toNat
  let value := 4 * b.mantissa * num
  let low := value - (if b.narrow then 1 else 2) * num
  let high := value + 2 * num
  let even := b.mantissa % 2 = 0
  let below := value / den
  let above := below + 1
  let belowIn := low < below * den || even && low = below * den
  let aboveIn := above * den < high || even && above * den = high
  let gapBelow := value - below * den
  let gapAbove := above * den - value
  if belowIn && (!aboveIn || gapBelow < gapAbove || gapBelow = gapAbove && below % 2 = 0) then
    some ⟨below, k⟩
  else if aboveIn then some ⟨above, k⟩
  else none

/-- The nearest among the decimals with the fewest digits that read back to the number. Seventeen
digits always do. -/
def shortest (b : Binary) : Decimal :=
  let first := b.firstExponent
  ((List.range 17).findSome? fun n : Nat => b.onGrid? (first - n)).getD default

example : (mk 1 (-1074) false).shortest = ⟨5, -324⟩ := by decide +kernel

example : (mk 7205759403792794 (-56) false).shortest = ⟨1, -1⟩ := by decide +kernel

end Binary

end PullGraph
