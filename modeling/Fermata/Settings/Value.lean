import Fermata.Number.Read
import Fermata.Number.Text
import Fermata.Text.Lower
import Fermata.Text.Hidden

/-!
# Values of settings

What a settings file or an environment variable can hold, and how it converts to the type that a
setting needs. Conversions are generous: a truth value can be written as a word or a number, a
number as a word, and nearly everything is a text.
-/

namespace Fermata

/-- A value in a settings file or an environment variable. -/
inductive Setting where
  | nil
  | bool (value : Bool)
  | integer (value : Int)
  | float (value : Float)
  | text (value : String)
  | list (items : List Setting)
  | table (members : List (String × Setting))
deriving Repr, Inhabited

namespace Setting

open Text (lower)

/-- A double without exponent. -/
def plainText (x : Float) : String :=
  match Number.decode x with
  | .nan => "NaN"
  | .infinite negative => Number.signed negative "inf"
  | .finite parts =>
    if parts.mantissa = 0 then Number.signed parts.negative "0"
    else Number.signed parts.negative ((parts.shortest .up).positional false)

/-- What the value is, for a message. -/
def describe : Setting → String
  | .nil => "unit value"
  | .bool b => "boolean `" ++ (if b then "true" else "false") ++ "`"
  | .integer n => "64-bit integer `" ++ toString n ++ "`"
  | .float x => "floating point `" ++ plainText x ++ "`"
  | .text s => "string " ++ Text.quoted s
  | .list _ => "sequence"
  | .table _ => "map"

/-- Words for yes. -/
def yesWords : List String := ["true", "on", "yes"]

/-- Words for no. -/
def noWords : List String := ["false", "off", "no"]

/-- As a truth value. -/
def toBool? : Setting → Option Bool
  | .bool b => some b
  | .integer n => some (n != 0)
  | .float x => some (x != 0)
  | .text s =>
    if (yesWords ++ ["1"]).contains (lower s) then some true
    else if (noWords ++ ["0"]).contains (lower s) then some false
    else none
  | _ => none

/-- The greatest size. -/
def greatestSize : Nat := 0xFFFFFFFFFFFFFFFF

/-- The nearest natural number, halves away from zero; what is negative or not a number counts as
zero. -/
def roundNat (x : Float) : Nat :=
  match Number.truncate? x.round with
  | some i => min i.toNat greatestSize
  | none => if x > 0 then greatestSize else 0

/-- As a size. -/
def toNat? : Setting → Option Nat
  | .bool b => some (if b then 1 else 0)
  | .integer n => if n < 0 then none else some n.toNat
  | .float x => some (roundNat x)
  | .text s =>
    if yesWords.contains (lower s) then some 1
    else if noWords.contains (lower s) then some 0
    else Text.wordIn? 10 greatestSize s.toList
  | _ => none

/-- As a text. -/
def toText? : Setting → Option String
  | .bool b => some (if b then "true" else "false")
  | .integer n => some (toString n)
  | .float x => some (plainText x)
  | .text s => some s
  | _ => none

/-- An integer has 64 bits. -/
def inRange (n : Int) : Bool := -0x8000000000000000 ≤ n && n < 0x8000000000000000

/-- An integer of a sign and digits in a base. -/
def integerIn? (base : Nat) (negative : Bool) (digits : List Char) : Option Int :=
  ((Text.valueIn? base digits).map fun n => if negative then -(n : Int) else (n : Int)).filter
    inRange

/-- A signed decimal integer. -/
def word64? (s : String) : Option Int :=
  let (negative, digits) := Number.takeSign s.toList
  integerIn? 10 negative digits

/-- A number in any notation, infinite ones and NaN by name. -/
def double? (s : String) : Option Float :=
  let (negative, body) := Number.takeSign s.toList
  let word := lower (String.ofList body)
  if word = "inf" ∨ word = "infinity" then some (Number.infinity negative)
  else if word = "nan" then some Number.nan
  else Number.decimal? s.toList

/-- The value of an environment variable: a truth value or a number if it reads as one. -/
def ofVariable (s : String) : Setting :=
  if lower s = "true" then .bool true
  else if lower s = "false" then .bool false
  else
    match word64? s with
    | some i => .integer i
    | none =>
      match double? s with
      | some x => .float x
      | none => .text s

end Setting

/-! ## Where values come from -/

/-- Where a value comes from. -/
inductive Origin where
  | file (path : String)
  | environment
deriving DecidableEq, Repr, Inhabited

/-- The wording. -/
def Origin.text : Origin → String
  | .file path => path
  | .environment => "the environment"

/-- A value of the wrong type. -/
structure TypeError where
  value : Setting
  expected : String
  /-- The setting that the value was meant for. -/
  key : Option String
  origin : Option Origin
deriving Inhabited

/-- The wording. -/
def TypeError.message (e : TypeError) : String :=
  "invalid type: " ++ e.value.describe ++ ", expected " ++ e.expected
    ++ (match e.key with
      | some k => " for key `" ++ k ++ "`"
      | none => "")
    ++ (match e.origin with
      | some o => " in " ++ o.text
      | none => "")

end Fermata
