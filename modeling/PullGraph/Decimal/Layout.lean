import PullGraph.Decimal.Shortest

/-!
# Writing a decimal

A decimal whose first digit has an exponent between two bounds is written positionally, with a
fractional part even if that is 0. Beyond them it is written as `d.ddde+N`: the sign of the exponent
is always there, it is not padded, and a single digit has no point.
-/

namespace PullGraph

/-- Where positional writing begins and ends, as exponents of the first digit. -/
structure Layout where
  lowest : Int
  highest : Int

namespace Decimal

/-- The digits as text, without trailing zeros. -/
def significant (d : Decimal) : List Char :=
  ((Nat.toDigits 10 d.digits).reverse.dropWhile (· == '0')).reverse

/-- The exponent of the first digit. -/
def firstExponent (d : Decimal) : Int := d.exponent + width d.digits - 1

/-- Positional text of digits whose first one has the given exponent. -/
def positional (digits : List Char) (first : Int) : List Char :=
  if first < 0 then
    '0' :: '.' :: (List.replicate ((-first).toNat - 1) '0' ++ digits)
  else
    let whole := first.toNat + 1
    let fraction := digits.drop whole
    digits.take whole ++ List.replicate (whole - digits.length) '0' ++
      '.' :: (if fraction.isEmpty then ['0'] else fraction)

/-- Text with a power of ten. -/
def scientific (digits : List Char) (first : Int) : List Char :=
  let fraction := digits.drop 1
  digits.take 1 ++ (if fraction.isEmpty then [] else '.' :: fraction) ++
    'e' :: (if first < 0 then '-' else '+') :: Nat.toDigits 10 first.natAbs

/-- The text of a positive decimal. -/
def render (layout : Layout) (d : Decimal) : List Char :=
  if layout.lowest ≤ d.firstExponent ∧ d.firstExponent ≤ layout.highest then
    positional d.significant d.firstExponent
  else
    scientific d.significant d.firstExponent

example : (mk 12345 (-9)).render ⟨-5, 15⟩ = "0.000012345".toList := by decide

example : (mk 100 2).render ⟨-5, 15⟩ = "10000.0".toList := by decide

example : (mk 1 16).render ⟨-5, 15⟩ = "1e+16".toList := by decide

example : (mk 15 (-8)).render ⟨-5, 15⟩ = "1.5e-7".toList := by decide

end Decimal

end PullGraph
