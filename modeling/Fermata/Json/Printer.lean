import Fermata.Json.Basic
import Fermata.Number.Text

/-!
# JSON text

* `Json.compact` writes a tree without blanks,
* `Json.pretty` with one member or item a line and two blanks of indentation a level.

Both write members in the order in which the tree holds them, and texts with the shortest escapes
(`Json.quote`).
-/

namespace Fermata

/-- A hexadecimal digit in lower case. -/
def hexDigit (n : Nat) : Char :=
  if n < 10 then Char.ofNat ('0'.toNat + n) else Char.ofNat ('a'.toNat + (n - 10))

namespace Json

/-- One character inside a quoted text. -/
def escapeChar (c : Char) : List Char :=
  if c = '"' then ['\\', '"']
  else if c = '\\' then ['\\', '\\']
  else if c = '\n' then ['\\', 'n']
  else if c = '\r' then ['\\', 'r']
  else if c = '\t' then ['\\', 't']
  else if c.toNat = 8 then ['\\', 'b']
  else if c.toNat = 12 then ['\\', 'f']
  else if c.toNat < 0x20 then
    ['\\', 'u', '0', '0', hexDigit (c.toNat / 16), hexDigit (c.toNat % 16)]
  else [c]

/-- A text in quotes. -/
def quote (s : String) : String :=
  "\"" ++ String.ofList (s.toList.flatMap escapeChar) ++ "\""

/-- A number. A double that is not finite has no text and becomes `null`. -/
def numberText : JsonNumber → String
  | .integer i => toString i
  | .double x => (Number.jsonText? x).getD "null"

mutual

/-- The text of a tree without blanks. -/
def compact : Json → String
  | .null => "null"
  | .bool b => if b then "true" else "false"
  | .number n => numberText n
  | .string s => quote s
  | .array items => "[" ++ ",".intercalate (compactItems items) ++ "]"
  | .object members => "\x7b" ++ ",".intercalate (compactMembers members) ++ "\x7d"

/-- The texts of items. -/
def compactItems : List Json → List String
  | [] => []
  | x :: xs => compact x :: compactItems xs

/-- The texts of members. -/
def compactMembers : List (String × Json) → List String
  | [] => []
  | (k, v) :: ms => (quote k ++ ":" ++ compact v) :: compactMembers ms

end

/-- A new line at an indentation level. -/
def newline (level : Nat) : String :=
  "\n" ++ String.ofList (List.replicate (2 * level) ' ')

mutual

/-- The text of a tree over several lines, starting at an indentation level. -/
def prettyAt (level : Nat) : Json → String
  | .null => "null"
  | .bool b => if b then "true" else "false"
  | .number n => numberText n
  | .string s => quote s
  | .array [] => "[]"
  | .array (x :: xs) =>
    "[" ++ ",".intercalate (prettyItems (level + 1) (x :: xs)) ++ newline level ++ "]"
  | .object [] => "\x7b\x7d"
  | .object (m :: ms) =>
    "\x7b" ++ ",".intercalate (prettyMembers (level + 1) (m :: ms)) ++ newline level ++ "\x7d"

/-- The texts of items, each on its line. -/
def prettyItems (level : Nat) : List Json → List String
  | [] => []
  | x :: xs => (newline level ++ prettyAt level x) :: prettyItems level xs

/-- The texts of members, each on its line. -/
def prettyMembers (level : Nat) : List (String × Json) → List String
  | [] => []
  | (k, v) :: ms => (newline level ++ quote k ++ ": " ++ prettyAt level v) :: prettyMembers level ms

end

/-- The text of a tree over several lines. -/
def pretty (j : Json) : String := prettyAt 0 j

end Json

end Fermata
