import Fermata.Number.Binary

/-!
# The fewest digits that read back

Between its two neighbours a double owns an interval of reals: those that round to it. `shortest`
gives the decimal with the fewest digits in that interval, and of those the nearest to the double.
For 1, 2, … 17 digits it tests the two grid points around the double; the first grid with a hit
wins. An exact tie between two hits is left to the caller.

* `display` (`number_to_string`) is the text of a number for a guest (`guestLayout`),
* `jsonText?` the one in JSON (`jsonLayout`).
-/

namespace Fermata.Number

/-- `digits · 10^exponent`. -/
structure Decimal where
  digits : Nat
  exponent : Int
deriving DecidableEq, Repr, Inhabited

/-- Which of two equally near decimals to take. -/
inductive Tie where
  | up | toEven
deriving DecidableEq, Repr

/-- The interval of a double, in units of a quarter of its last place: the double itself and its
two ends. The lower gap is half as wide when the mantissa is the least normal one. -/
structure Interval where
  value : Nat
  low : Nat
  high : Nat
  /-- The ends belong to the interval. -/
  closed : Bool

/-- The interval of `mantissa` in its units. -/
def Finite.interval (x : Finite) : Interval where
  value := 4 * x.mantissa
  low := if x.mantissa = leadingBit then 4 * x.mantissa - 1 else 4 * x.mantissa - 2
  high := 4 * x.mantissa + 2
  closed := x.mantissa % 2 = 0

/-- Scale so that a quarter of the last place is `num / den` and a grid step is 1. -/
def gridUnit (exponent step : Int) : Nat × Nat :=
  let binary := exponent - 2
  let num := if binary ≥ 0 then 1 <<< binary.toNat else 1
  let den := if binary ≥ 0 then 1 else 1 <<< (-binary).toNat
  if step ≥ 0 then (num, den * Nat.pow 10 step.toNat)
  else (num * Nat.pow 10 (-step).toNat, den)

/-- The decimal exponent `e` with `10^e ≤ x < 10^(e+1)`, for a positive `x`. -/
def Finite.decimalExponent (x : Finite) : Int :=
  let guess : Int := ((x.mantissa.log2 : Int) + x.exponent) * 30103 / 100000 - 1
  let reaches (e : Int) : Bool :=
    let (num, den) := gridUnit x.exponent e
    4 * x.mantissa * num ≥ den
  if reaches (guess + 2) then guess + 2 else if reaches (guess + 1) then guess + 1 else guess

/-- The hit of one grid, if there is one: of the points below and above the double the one in the
interval, and the nearer of two. -/
def Interval.hit? (i : Interval) (num den : Nat) (tie : Tie) : Option Nat :=
  let below := i.value * num / den
  let rest := i.value * num % den
  let inside (d : Nat) : Bool :=
    let p := d * den
    if i.closed then i.low * num ≤ p && p ≤ i.high * num else i.low * num < p && p < i.high * num
  let down := inside below
  let up := inside (below + 1)
  match down, up with
  | true, true =>
    let roundUp : Bool := match tie with
      | .up => decide (2 * rest ≥ den)
      | .toEven => 2 * rest > den || (2 * rest = den && below % 2 = 1)
    some (if roundUp then below + 1 else below)
  | true, false => some below
  | false, true => some (below + 1)
  | false, false => none

/-- Drop at most `count` zeros at the end of the digits. -/
def Decimal.dropZeros : Nat → Decimal → Decimal
  | 0, d => d
  | count + 1, d =>
    if d.digits ≠ 0 ∧ d.digits % 10 = 0 then
      dropZeros count ⟨d.digits / 10, d.exponent + 1⟩
    else d

/-- Try grids of `count` digits and more, `fuel` of them. -/
def Finite.search (x : Finite) (tie : Tie) (top : Int) : Nat → Nat → Decimal
  | 0, _ => ⟨x.mantissa, x.exponent⟩
  | fuel + 1, count =>
    let step := top - count + 1
    let (num, den) := gridUnit x.exponent step
    match x.interval.hit? num den tie with
    | some d => ⟨d, step⟩
    | none => x.search tie top fuel (count + 1)

/-- The shortest decimal that reads back as a positive finite double. -/
def Finite.shortest (x : Finite) (tie : Tie) : Decimal :=
  -- a grid point has at most 18 digits, so no more zeros can stand at its end
  (x.search tie x.decimalExponent 17 1).dropZeros 18

/-!
## Number text

Two ways to write a double share the shortest digits and differ in their layout. A `Layout` says
which decimal exponents are written positionally, whether a whole number keeps `.0`, and how an
exact tie between two shortest decimals goes.

* `display` is the text a guest sees: positional from `1e-6` up to `1e21`, whole numbers with every
  digit of their value.
* `ofJson` is the text in JSON: positional from `1e-5` up to `1e16`.
-/

/-- How a double is laid out. -/
structure Layout where
  /-- The least decimal exponent written positionally. -/
  least : Int
  /-- The greatest decimal exponent written positionally. -/
  greatest : Int
  /-- A whole number in positional form ends in `.0`. -/
  pointZero : Bool
  tie : Tie

/-- `count` zeros. -/
def zeros (count : Nat) : String := String.ofList (List.replicate count '0')

/-- Positional form of a decimal. -/
def Decimal.positional (d : Decimal) (pointZero : Bool) : String :=
  let text := toString d.digits
  if d.exponent ≥ 0 then
    text ++ zeros d.exponent.toNat ++ (if pointZero then ".0" else "")
  else
    let places := (-d.exponent).toNat
    if places < text.length then
      let whole := text.length - places
      String.ofList (text.toList.take whole) ++ "." ++ String.ofList (text.toList.drop whole)
    else "0." ++ zeros (places - text.length) ++ text

/-- Exponent form of a decimal: one digit before the point, the sign of the exponent written. -/
def Decimal.scientific (d : Decimal) : String :=
  let text := toString d.digits
  let exponent := d.exponent + text.length - 1
  let fraction := String.ofList (text.toList.drop 1)
  String.ofList (text.toList.take 1) ++ (if fraction.isEmpty then "" else "." ++ fraction)
    ++ (if exponent < 0 then "e-" else "e+") ++ toString exponent.natAbs

/-- Write a positive finite double. -/
def Layout.write (layout : Layout) (x : Finite) : String :=
  let d := x.shortest layout.tie
  let exponent := d.exponent + (decimalLength d.digits : Int) - 1
  if layout.least ≤ exponent ∧ exponent ≤ layout.greatest then d.positional layout.pointZero
  else d.scientific

/-- Guest text: positional from `1e-6` up to, not including, `1e21`. -/
def guestLayout : Layout := ⟨-6, 20, false, .up⟩

/-- JSON text: positional from `1e-5` up to, not including, `1e16`, and recognisably not an
integer. -/
def jsonLayout : Layout := ⟨-5, 15, true, .toEven⟩

/-- A minus sign in front of a negative number. -/
def signed (negative : Bool) (text : String) : String :=
  if negative then "-" ++ text else text

/-- The text of a number as a guest program sees it. Both zeros are `0`; a whole number below
`1e21` is written with all digits of its exact value. -/
def display (x : Float) : String :=
  match decode x with
  | .nan => "NaN"
  | .infinite negative => signed negative "Infinity"
  | .finite parts =>
    if parts.mantissa = 0 then "0"
    else if parts.isIntegral && parts.floorAbs < 1000000000000000000000 then
      signed parts.negative (toString parts.floorAbs)
    else signed parts.negative (guestLayout.write parts)

/-- The text of a double in JSON; nothing for one that is not finite. -/
def jsonText? (x : Float) : Option String :=
  match decode x with
  | .finite parts =>
    if parts.mantissa = 0 then some (signed parts.negative "0.0")
    else some (signed parts.negative (jsonLayout.write parts))
  | _ => none

/-- The integer that JSON writes for a whole number below `2^53`. -/
def jsonInteger? (x : Float) : Option Int :=
  match decode x with
  | .finite parts =>
    if parts.isIntegral && parts.floorAbs < 2 * leadingBit then some parts.truncate else none
  | _ => none

end Fermata.Number
