/-!
# Classes of characters

* Blanks are the characters with the Unicode property White_Space. These are the blanks of number
  conversion; the blanks between the tokens of a program are a different, smaller set.
* Digits are ASCII digits, with letters standing for ten and above in either case.
* Names of the guest language are a letter, `_` or `$`, then any number of letters, digits, `_` and `$`,
  all ASCII.
* Properties of characters that a standard lists are kept as inclusive ranges of code points. A
  `Table` has them in three parts, so that a character is looked up among its neighbours only.
-/

namespace Fermata.Text

/-! ## Blanks -/

/-- The Unicode property White_Space. -/
def isBlank (c : Char) : Bool :=
  let n := c.toNat
  (0x9 ≤ n && n ≤ 0xD) || n == 0x20 || n == 0x85 || n == 0xA0 || n == 0x1680
    || (0x2000 ≤ n && n ≤ 0x200A) || n == 0x2028 || n == 0x2029 || n == 0x202F || n == 0x205F
    || n == 0x3000

/-- Drop the blanks in front. -/
def trimStart (text : List Char) : List Char := text.dropWhile isBlank

/-- Drop the blanks at both ends. -/
def trim (text : List Char) : List Char :=
  ((trimStart text).reverse.dropWhile isBlank).reverse

/-! ## Digits -/

/-- A decimal digit. -/
def isDigit (c : Char) : Bool := '0' ≤ c && c ≤ '9'

/-- The value of a digit in base 36. -/
def digitValue? (c : Char) : Option Nat :=
  if '0' ≤ c ∧ c ≤ '9' then some (c.toNat - '0'.toNat)
  else if 'a' ≤ c ∧ c ≤ 'z' then some (c.toNat - 'a'.toNat + 10)
  else if 'A' ≤ c ∧ c ≤ 'Z' then some (c.toNat - 'A'.toNat + 10)
  else none

/-- The value of a digit of a base. -/
def digitIn? (base : Nat) (c : Char) : Option Nat :=
  (digitValue? c).filter (· < base)

/-- The number written by decimal digits. -/
def decimalValue (digits : List Char) : Nat :=
  digits.foldl (fun n c => 10 * n + (c.toNat - '0'.toNat)) 0

/-- The number written in a base: at least one digit, and nothing else. -/
def valueIn? (base : Nat) (digits : List Char) : Option Nat :=
  if digits.isEmpty then none
  else digits.foldlM (fun n c => (digitIn? base c).map (base * n + ·)) 0

/-- Like `valueIn?`, with a plus sign allowed in front and a bound on the value. -/
def wordIn? (base bound : Nat) (text : List Char) : Option Nat :=
  let digits := match text with
    | '+' :: rest => rest
    | _ => text
  (valueIn? base digits).filter (· ≤ bound)

/-! ## Names -/

/-- An ASCII letter. -/
def isLetter (c : Char) : Bool := ('a' ≤ c && c ≤ 'z') || ('A' ≤ c && c ≤ 'Z')

/-- A character that a name can start with. -/
def isNameStart (c : Char) : Bool := isLetter c || c = '_' || c = '$'

/-- A character that a name can go on with. -/
def isNamePart (c : Char) : Bool := isNameStart c || ('0' ≤ c && c ≤ '9')

/-- The text is a name. -/
def isName (text : List Char) : Bool :=
  match text with
  | [] => false
  | c :: cs => isNameStart c && cs.all isNamePart

/-! ## Ranges of characters -/

/-- Inclusive ranges of code points: below U+1000, up to U+FFFF, and beyond. -/
structure Table where
  low : List (Nat × Nat)
  basic : List (Nat × Nat)
  supplementary : List (Nat × Nat)

/-- A code point lies in one of the ranges. -/
def inRanges (ranges : List (Nat × Nat)) (n : Nat) : Bool :=
  ranges.any fun (first, last) => first ≤ n && n ≤ last

/-- The character is listed. -/
def Table.contains (t : Table) (c : Char) : Bool :=
  let n := c.toNat
  inRanges (if n < 0x1000 then t.low else if n < 0x10000 then t.basic else t.supplementary) n

end Fermata.Text

namespace Fermata

/-- The string is a name. -/
def isValidName (name : String) : Bool := Text.isName name.toList

end Fermata
