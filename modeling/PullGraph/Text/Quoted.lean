/-!
# Quoted strings

A string between quotation marks, with two sets of escapes.

* `Text.quoted`: the quotation mark, the backslash and the control characters below U+0020 are
  escaped, five of those by a letter and the others by four hexadecimal digits. All else stands for
  itself.
* `Text.quotedPlain`: only the quotation mark and the backslash are escaped.
-/

namespace PullGraph.Text

/-- The escaped form of a character in `quoted`. -/
def escape (c : Char) : List Char :=
  match c with
  | '"' => ['\\', '"']
  | '\\' => ['\\', '\\']
  | '\n' => ['\\', 'n']
  | '\r' => ['\\', 'r']
  | '\t' => ['\\', 't']
  | '\x08' => ['\\', 'b']
  | '\x0c' => ['\\', 'f']
  | c =>
    if c.toNat < 0x20 then
      ['\\', 'u', '0', '0', Nat.digitChar (c.toNat / 16), Nat.digitChar (c.toNat % 16)]
    else [c]

/-- The escaped form of a character in `quotedPlain`. -/
def escapePlain (c : Char) : List Char :=
  if c = '"' ∨ c = '\\' then ['\\', c] else [c]

/-- A string in quotation marks, with control characters escaped. -/
def quoted (s : String) : String :=
  String.ofList ('"' :: (s.toList.flatMap escape ++ ['"']))

/-- A string of printable characters in quotation marks. -/
def quotedPlain (s : String) : String :=
  String.ofList ('"' :: (s.toList.flatMap escapePlain ++ ['"']))

example : quoted "a\"\t\x01\x7f" = "\"a\\\"\\t\\u0001\x7f\"" := by decide +kernel

example : quotedPlain "a\"\\" = "\"a\\\"\\\\\"" := by decide +kernel

end PullGraph.Text
