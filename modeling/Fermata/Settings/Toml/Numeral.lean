import Fermata.Settings.Reading
import Fermata.Settings.Value

/-!
# Numbers of TOML

Integers in four bases and floating-point numbers. An underscore stands only between two digits, and
a decimal number has no needless zero in front.
-/

namespace Fermata.Toml

open Reading Text

/-- Digits of a base behind a first one, underscores between them. -/
def moreDigits (base : Nat) : Reading Unit := do
  let digit := charIf fun c => (digitIn? base c).isSome
  let _ ← many (orElse digit do
    let _ ← char '_'
    (firmly digit).hoping ["digit"])

/-- Digits, possibly with zeros in front. -/
def digits : Reading Unit := do
  let _ ← charIf isDigit
  moreDigits 10

/-- A sign, or none. -/
def sign : Reading Unit := do
  let _ ← attempt? (charIf fun c => c = '+' || c = '-')

/-- A decimal integer. -/
def whole : Reading Unit :=
  (do
    sign
    orElse
      (do
        let _ ← charIf fun c => isDigit c && c ≠ '0'
        moreDigits 10)
      (do let _ ← charIf isDigit) : Reading Unit).about "integer"

/-- Digits without what divides them. -/
def ungrouped (text : List Char) : List Char := text.filter (· ≠ '_')

/-- An integer of a sign and digits, or why it is none. -/
def integerOf (base : Nat) (text : List Char) : Except String Int :=
  let (negative, ds) := Number.takeSign (ungrouped text)
  match Setting.integerIn? base negative ds with
  | some n => .ok n
  | none =>
    .error ("number too " ++ (if negative then "small" else "large") ++ " to fit in target type")

/-- The digits of a base, behind the mark of the base. -/
def marked (base : Nat) (mark subject : String) : Reading (List Char) :=
  (do
    word mark
    taken do
      let _ ← firmly (charIf fun c => (digitIn? base c).isSome)
      moreDigits base : Reading (List Char)).about subject

/-- An integer. -/
def integer : Reading Int := fun text =>
  let other (base : Nat) (mark subject : String) :=
    firmly ((marked base mark subject).checked (integerOf base)) text
  match text with
  | '0' :: 'x' :: _ => other 16 "0x" "hexadecimal integer"
  | '0' :: 'o' :: _ => other 8 "0o" "octal integer"
  | '0' :: 'b' :: _ => other 2 "0b" "binary integer"
  | _ =>
    (do
      match integerOf 10 (← taken whole) with
      | .ok n => return n
      | .error cause => refuseFor cause : Reading Int) text

/-- An exponent. -/
def exponent : Reading Unit := do
  let _ ← charIf fun c => c = 'e' || c = 'E'
  sign
  firmly digits

/-- The places behind a point. -/
def places : Reading Unit := do
  let _ ← char '.'
  (firmly digits).hoping ["digit"]

/-- A number that is infinite, without sign. -/
def infinite : Reading Float := do
  word "inf"
  return Number.infinity false

/-- What is not a number, without sign. -/
def notNumber : Reading Float := do
  word "nan"
  return Number.nan

/-- A number with a point or an exponent, or one that has a name. Beyond the greatest number there
is nothing. -/
def float : Reading Float :=
  (orElse
    (do
      let text ← taken do
        whole
        orElse exponent do
          places
          let _ ← attempt? exponent
      match Number.decimal? (ungrouped text) with
      | some x => if x == Number.infinity false then firmly refuse else return x
      | none => firmly refuse)
    (do
      let negative ← attempt? (charIf fun c => c = '+' || c = '-')
      let x ← orElse infinite notNumber
      return if negative = some '-' then -x else x)).about "floating-point number"

end Fermata.Toml
