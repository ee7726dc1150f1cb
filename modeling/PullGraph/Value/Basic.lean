/-!
# Values

What a socket carries: null, a truth value, a number, a string, or a list or a record of values.

* `Number`: an exact integer of the range that 64 bits can hold, signed or unsigned, or a float.
  The two kinds never mix: the integer 1 and the float 1.0 are different numbers.
* `Number.ofInt`: the number of an integer; out of range it is the float next to it.
* `Value.ofFields`: the record of a list of fields. Its keys are strictly ascending, and of two
  fields with one key the later one stays, so a record has one form.
* `==` on values compares floats as floats do: `0.0` and `-0.0` are equal.
-/

namespace PullGraph

/-- The integers that a number holds exactly: all signed and all unsigned ones of 64 bits. -/
def Number.InRange (n : Int) : Prop := -0x8000000000000000 ≤ n ∧ n < 0x10000000000000000

instance (n : Int) : Decidable (Number.InRange n) :=
  inferInstanceAs (Decidable (-0x8000000000000000 ≤ n ∧ n < 0x10000000000000000))

/-- An integer of 64 bits or a float. -/
inductive Number where
  | int (n : Int) (inRange : Number.InRange n)
  | float (x : Float)

namespace Number

instance : Inhabited Number := ⟨.int 0 (by decide)⟩

/-- The float nearest to an integer of 64 bits, ties to even. -/
def nearest (n : Int) : Float :=
  if n < 0 then -(n.natAbs.toUInt64.toFloat) else n.natAbs.toUInt64.toFloat

/-- The number of an integer, exact if it is in range. -/
def ofInt (n : Int) : Number :=
  if h : InRange n then .int n h else .float (Float.ofInt n)

/-- Numbers of one kind are compared by value; an integer never equals a float. -/
def same : Number → Number → Bool
  | .int m _, .int n _ => m == n
  | .float x, .float y => x == y
  | _, _ => false

instance : BEq Number := ⟨same⟩

end Number

/-- The values that flow along the edges of a graph. -/
inductive Value where
  | null
  | bool (b : Bool)
  | number (n : Number)
  | string (s : String)
  | array (items : List Value)
  | object (fields : List (String × Value))
  deriving Inhabited

namespace Value

mutual

/-- Structural equality, with numbers compared by `Number.same`. -/
def same : Value → Value → Bool
  | .null, .null => true
  | .bool a, .bool b => a == b
  | .number m, .number n => m == n
  | .string s, .string t => s == t
  | .array vs, .array ws => sameItems vs ws
  | .object fs, .object gs => sameFields fs gs
  | _, _ => false

/-- Item by item equality of two lists of one length. -/
def sameItems : List Value → List Value → Bool
  | [], [] => true
  | v :: vs, w :: ws => same v w && sameItems vs ws
  | _, _ => false

/-- Field by field equality of two records with the same keys. -/
def sameFields : List (String × Value) → List (String × Value) → Bool
  | [], [] => true
  | (k, v) :: fs, (l, w) :: gs => k == l && same v w && sameFields fs gs
  | _, _ => false

end

instance : BEq Value := ⟨same⟩

/-- The value of an integer. -/
def ofInt (n : Int) : Value := .number (.ofInt n)

/-- Puts a field into fields with ascending keys, replacing one with the same key. -/
def insertField (key : String) (v : Value) : List (String × Value) → List (String × Value)
  | [] => [(key, v)]
  | (k, w) :: rest =>
    if key < k then (key, v) :: (k, w) :: rest
    else if key = k then (key, v) :: rest
    else (k, w) :: insertField key v rest

/-- The record of the given fields; the last field of a key counts. -/
def ofFields (fields : List (String × Value)) : Value :=
  .object (fields.foldl (fun sorted field => insertField field.1 field.2 sorted) [])

end Value

end PullGraph
