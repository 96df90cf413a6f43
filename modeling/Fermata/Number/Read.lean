import Fermata.Number.Binary
import Fermata.Text.Character

/-!
# Reading numbers

Four readers of number text, from strict to lenient:

* `decimal?` takes a whole text as a signed decimal with optional fraction and exponent;
* `ofText` (`string_to_number`) converts a string the way a guest's `Number` does: blanks around are
  dropped, the empty text is zero, `0x`, `0o` and `0b` name a base, and whatever is left over makes it NaN;
* `floatStart` (`parse_float_str`) converts the longest decimal at the start of a text, and drops every
  sign in front of `Infinity`;
* `integerStart` (`parse_int_str`) converts the digits of a base at the start of a text.
-/

namespace Fermata.Number

open Fermata.Text

/-- A decimal at the start of a text, taken apart. -/
structure Numeral where
  negative : Bool
  whole : List Char
  fraction : List Char
  exponent : Int
  /-- What follows the numeral. -/
  rest : List Char

/-- The double nearest to a numeral. -/
def Numeral.value (n : Numeral) : Float :=
  ofDecimal n.negative (decimalValue (n.whole ++ n.fraction)) (n.exponent - n.fraction.length)

/-- A sign in front of a text. -/
def takeSign : List Char → Bool × List Char
  | '-' :: rest => (true, rest)
  | '+' :: rest => (false, rest)
  | text => (false, text)

/-- An exponent with at least one digit. -/
def takeExponent? : List Char → Option (Int × List Char)
  | c :: rest =>
    if c = 'e' ∨ c = 'E' then
      let (negative, digits) := takeSign rest
      match digits.span isDigit with
      | ([], _) => none
      | (ds, rest) =>
        let n := decimalValue ds
        some (if negative then -(n : Int) else n, rest)
    else none
  | [] => none

/-- The longest decimal at the start of a text: a sign, digits around an optional point with at
least one digit among them, and an exponent if it is complete. -/
def Numeral.start? (text : List Char) : Option Numeral :=
  let (negative, text) := takeSign text
  let (whole, rest) := text.span isDigit
  let (fraction, rest) := match rest with
    | '.' :: r => r.span isDigit
    | _ => ([], rest)
  if whole.isEmpty && fraction.isEmpty then none
  else
    match takeExponent? rest with
    | some (exponent, rest) => some ⟨negative, whole, fraction, exponent, rest⟩
    | none => some ⟨negative, whole, fraction, 0, rest⟩

/-- A whole text as a decimal. -/
def decimal? (text : List Char) : Option Float :=
  match Numeral.start? text with
  | some n => if n.rest.isEmpty then some n.value else none
  | none => none

/-- The base that a text names, with the digits after it. -/
def takeBase? : List Char → Option (Nat × List Char)
  | '0' :: c :: rest =>
    if c = 'x' ∨ c = 'X' then some (16, rest)
    else if c = 'o' ∨ c = 'O' then some (8, rest)
    else if c = 'b' ∨ c = 'B' then some (2, rest)
    else none
  | _ => none

/-- The greatest value of digits in a named base. -/
def greatestWord : Nat := 0xFFFFFFFFFFFFFFFF

/-- The number that a string converts to. -/
def ofText (text : String) : Float :=
  let t := trim text.toList
  if t.isEmpty then ofNat 0
  else if t = "Infinity".toList ∨ t = "+Infinity".toList then infinity false
  else if t = "-Infinity".toList then infinity true
  else
    match takeBase? t with
    | some (base, digits) =>
      match wordIn? base greatestWord digits with
      | some n => ofNat n
      | none => nan
    | none => (decimal? t).getD nan

/-- The number at the start of a text, blanks in front dropped; NaN when there is none. Any run of
signs may stand before `Infinity`, and its first sign counts. -/
def floatStart (text : String) : Float :=
  let t := trimStart text.toList
  let unsigned := t.dropWhile fun c => c = '+' ∨ c = '-'
  if "Infinity".toList.isPrefixOf unsigned then infinity (t.head? = some '-')
  else
    match Numeral.start? t with
    | some n => n.value
    | none => nan

/-- Digits of a base, accumulated in double arithmetic up to the first other character. -/
def foldDigits (base : Nat) (text : List Char) : Option Float :=
  go text none
where
  /-- Continue from the number so far. -/
  go : List Char → Option Float → Option Float
    | [], sofar => sofar
    | c :: cs, sofar =>
      match digitIn? base c with
      | some d => go cs (some (sofar.getD 0 * ofNat base + ofNat d))
      | none => sofar

/-- The integer at the start of a text, blanks in front dropped. A radix of zero means ten, or
sixteen after `0x`; outside 2 to 36 the result is NaN. -/
def integerStart (text : String) (radix : Int) : Float :=
  let (negative, s) := takeSign (trimStart text.toList)
  let (s, radix) :=
    if radix = 0 ∨ radix = 16 then
      match s with
      | '0' :: 'x' :: rest => (rest, 16)
      | '0' :: 'X' :: rest => (rest, 16)
      | _ => (s, radix)
    else (s, radix)
  let radix := if radix = 0 then 10 else radix
  if 2 ≤ radix ∧ radix ≤ 36 then
    match foldDigits radix.toNat s with
    | some x => if negative then -x else x
    | none => nan
  else nan

end Fermata.Number
