import Fermata.Number.Read
import Fermata.Syntax.Span

/-!
# Literal values

What number and string tokens stand for.

* `Literal.number?` (`parse_number`) has no value for a hexadecimal number beyond 64 bits.
* `Literal.unescape` (`unescape`) and `Literal.string` (`string_contents`) take a string token apart.
-/

namespace Fermata.Literal

open Fermata.Text

/-- The value of a number token. Hexadecimal digits must fit 64 bits. -/
def number? (token : List Char) : Option Float :=
  match token with
  | '0' :: 'x' :: ds | '0' :: 'X' :: ds => (wordIn? 16 Number.greatestWord ds).map Number.ofNat
  | _ => Number.decimal? token

/-- The character of a code point, if there is one. -/
def char? (code : Nat) : Option Char :=
  if code < 0xD800 ∨ (0xDFFF < code ∧ code < 0x110000) then some (Char.ofNat code) else none

/-- The character whose code the digits write; nothing when they are no code. -/
def coded (digits : List Char) : List Char :=
  match (wordIn? 16 0xFFFFFFFF digits).bind char? with
  | some c => [c]
  | none => []

/-- The character that a letter behind a backslash stands for. -/
def escaped (c : Char) : List Char :=
  if c = 'n' then ['\n']
  else if c = 't' then ['\t']
  else if c = 'r' then ['\r']
  else if c = 'b' then [Char.ofNat 8]
  else if c = 'f' then [Char.ofNat 12]
  else if c = 'v' then [Char.ofNat 11]
  else if c = '0' then [Char.ofNat 0]
  else if c = '\n' then []
  else [c]

/-- Decode the escapes of a text. `\x` takes two digits, `\u` four or any number in braces; codes
that are none are dropped, and so is a line feed behind a backslash. -/
def unescape (text : List Char) : List Char :=
  match text with
  | [] => []
  | '\\' :: 'x' :: cs => coded (cs.take 2) ++ unescape (cs.drop 2)
  | '\\' :: 'u' :: '\x7b' :: cs =>
    coded (cs.takeWhile (· ≠ '\x7d')) ++ unescape ((cs.dropWhile (· ≠ '\x7d')).drop 1)
  | '\\' :: 'u' :: cs => coded (cs.take 4) ++ unescape (cs.drop 4)
  | ['\\'] => []
  | '\\' :: c :: cs => escaped c ++ unescape cs
  | c :: cs => c :: unescape cs
termination_by text.length
decreasing_by
  all_goals simp only [List.length_cons, List.length_drop]
  all_goals try omega
  have := (List.dropWhile_suffix (fun x => decide (x ≠ '\x7d')) (l := cs)).length_le
  omega

/-- The value of a string token, quotes included. -/
def string (token : List Char) : String :=
  String.ofList (unescape (token.drop 1).dropLast)

end Fermata.Literal
