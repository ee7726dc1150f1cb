/-!
# Blank characters

The characters with the Unicode property White_Space, and strings without blank margins.

* `Text.isBlank`: membership in the property. It is wider than the blanks of ASCII, and it leaves
  out the zero-width characters and the separators U+001C to U+001F.
* `Text.trim`: a string without the blanks at its two ends.
-/

namespace PullGraph.Text

/-- The ranges of the property White_Space, ends included. -/
def blankRanges : List (Nat × Nat) :=
  [(0x09, 0x0D), (0x20, 0x20), (0x85, 0x85), (0xA0, 0xA0), (0x1680, 0x1680), (0x2000, 0x200A),
    (0x2028, 0x2029), (0x202F, 0x202F), (0x205F, 0x205F), (0x3000, 0x3000)]

/-- Whether a character is white space. -/
def isBlank (c : Char) : Bool :=
  blankRanges.any fun range => range.1 ≤ c.toNat && c.toNat ≤ range.2

/-- The characters without the blank ones at both ends. -/
def trim (cs : List Char) : List Char :=
  ((cs.dropWhile isBlank).reverse.dropWhile isBlank).reverse

end PullGraph.Text
