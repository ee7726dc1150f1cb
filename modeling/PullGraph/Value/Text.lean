import PullGraph.Value.Basic
import PullGraph.Decimal.Layout
import PullGraph.Text.Quoted

/-!
# The text of a value

Compact: no blanks, records in the order of their keys, integers in plain decimal digits, floats by
the shortest digits that read back.

* `Number.layout`: floats are positional from 0.00001 up to below 1e16.
* `Value.text`: the text of a value.
-/

namespace PullGraph

namespace Number

/-- Floats are written positionally if the first digit has an exponent from -5 to 15. -/
def layout : Layout := ⟨-5, 15⟩

/-- The text of a finite float. A zero keeps its sign. -/
def floatText (x : Float) : String :=
  let magnitude := Binary.ofFloat x
  let digits :=
    if magnitude.mantissa = 0 then ['0', '.', '0'] else magnitude.shortest.render layout
  String.ofList (if x.toBits.toNat < 0x8000000000000000 then digits else '-' :: digits)

/-- The decimal digits of an integer, after a minus sign if it is negative. -/
def intText (n : Int) : String :=
  let digits := Nat.toDigits 10 n.natAbs
  String.ofList (if n < 0 then '-' :: digits else digits)

/-- The text of a number. -/
def text : Number → String
  | .int n _ => intText n
  | .float x => floatText x

end Number

namespace Value

mutual

/-- The compact text of a value. -/
def text : Value → String
  | .null => "null"
  | .bool b => if b then "true" else "false"
  | .number n => n.text
  | .string s => Text.quoted s
  | .array items => "[" ++ ",".intercalate (itemTexts items) ++ "]"
  | .object fields => "\x7b" ++ ",".intercalate (fieldTexts fields) ++ "\x7d"

/-- The texts of the items of a list. -/
def itemTexts : List Value → List String
  | [] => []
  | v :: vs => text v :: itemTexts vs

/-- The texts of the fields of a record, each with its key. -/
def fieldTexts : List (String × Value) → List String
  | [] => []
  | (k, v) :: fs => (Text.quoted k ++ ":" ++ text v) :: fieldTexts fs

end

end Value

end PullGraph
