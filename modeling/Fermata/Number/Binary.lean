/-!
# Doubles as exact numbers

A finite double is `± m · 2^q` with natural `m`. This file takes a double apart (`decode`) and goes
back from an exact fraction to the nearest double (`ofRatio`, ties to the even mantissa). All
arithmetic is on `Nat` and `Int`, so that nothing here rounds except where it says so.

* `ofDecimal` reads `digits · 10^e`, `ofNat` an integer.
* `Finite.truncate?` is the integer part of a finite double.
* `Finite.remainder` is the remainder of a division that truncates, computed exactly.
* `Finite.toInt32`, `Finite.toUInt32` (`to_int32`, `to_uint32`) are the words that the bitwise operators
  work on.

Left out: sums, products and quotients, which are those of `Float`.
-/

namespace Fermata.Number

/-- A finite double: `± mantissa · 2^exponent`. -/
structure Finite where
  negative : Bool
  mantissa : Nat
  exponent : Int
deriving DecidableEq, Repr, Inhabited

/-- What a double can be. -/
inductive Shape where
  | nan
  | infinite (negative : Bool)
  | finite (parts : Finite)
deriving DecidableEq, Repr, Inhabited

/-- The exponent of the least positive double. -/
def leastExponent : Int := -1074

/-- The exponent of the greatest finite doubles. -/
def greatestExponent : Int := 971

/-- `2^63`, the sign among the bits of a double. -/
def signBit : Nat := 0x8000000000000000

/-- `2^52`, the leading bit of a normal mantissa. It is not stored: its place is where the exponent
begins. -/
def leadingBit : Nat := 0x10000000000000

/-- The exponent field of infinity and of what is not a number. -/
def reservedField : Nat := 2047

/-- Take the bits of a double apart. -/
def decodeBits (bits : Nat) : Shape :=
  let negative := bits / signBit % 2 = 1
  let biased := bits / leadingBit % 2048
  let stored := bits % leadingBit
  if biased = reservedField then
    if stored = 0 then .infinite negative else .nan
  else if biased = 0 then .finite ⟨negative, stored, leastExponent⟩
  else .finite ⟨negative, stored + leadingBit, Int.ofNat biased - 1075⟩

/-- Take a double apart. -/
def decode (x : Float) : Shape := decodeBits x.toBits.toNat

/-- Bits of the sign. -/
def signBits (negative : Bool) : Nat := if negative then signBit else 0

/-- Bits of `mantissa · 2^exponent`, for a mantissa below `2^53` that is either normal or stands at
the least exponent. Beyond the greatest exponent this is infinity. -/
def encodeBits (negative : Bool) (mantissa : Nat) (exponent : Int) : Nat :=
  if mantissa < leadingBit then signBits negative + mantissa
  else if exponent > greatestExponent then signBits negative + reservedField * leadingBit
  else signBits negative + (exponent + 1075).toNat * leadingBit + (mantissa - leadingBit)

/-- `num / den` as a fraction in units of `2^exponent`. -/
def inUnits (num den : Nat) (exponent : Int) : Nat × Nat :=
  if exponent ≥ 0 then (num, den <<< exponent.toNat) else (num <<< (-exponent).toNat, den)

/-- Round a quotient to the nearest integer, a half to the even one. -/
def roundEven (num den : Nat) : Nat :=
  let q := num / den
  let r := num % den
  if 2 * r > den || (2 * r = den && q % 2 = 1) then q + 1 else q

/-- The exponent in whose units `num / den` has 53 bits, or the least exponent. -/
def unitExponent (num den : Nat) : Int :=
  let guess : Int := max leastExponent ((num.log2 : Int) - den.log2 - 53)
  let (n, d) := inUnits num den guess
  if n / d ≥ 2 * leadingBit then guess + 1 else guess

/-- Bits of the double nearest to `num / den`. -/
def ratioBits (negative : Bool) (num den : Nat) : Nat :=
  if num = 0 || den = 0 then signBits negative
  else
    let exponent := unitExponent num den
    let (n, d) := inUnits num den exponent
    let m := roundEven n d
    if m = 2 * leadingBit then encodeBits negative leadingBit (exponent + 1)
    else encodeBits negative m exponent

/-- The double nearest to `num / den`, ties to the even mantissa. -/
def ofRatio (negative : Bool) (num den : Nat) : Float :=
  Float.ofBits (ratioBits negative num den).toUInt64

/-- The infinite double of a sign. -/
def infinity (negative : Bool) : Float :=
  Float.ofBits (signBits negative + reservedField * leadingBit).toUInt64

/-- The double that is not a number. -/
def nan : Float := Float.ofBits (reservedField * leadingBit + leadingBit / 2).toUInt64

/-- How many decimal digits a number has; none for zero. -/
def decimalLength (n : Nat) : Nat :=
  if n = 0 then 0 else (Nat.toDigits 10 n).length

/-- The double nearest to `digits · 10^exponent`. Far beyond the range of doubles the power is not
computed: the answer is infinity or zero. -/
def ofDecimal (negative : Bool) (digits : Nat) (exponent : Int) : Float :=
  let magnitude := exponent + decimalLength digits
  if digits = 0 || magnitude < -400 then ofRatio negative 0 1
  else if magnitude > 400 then infinity negative
  else if exponent ≥ 0 then ofRatio negative (digits * Nat.pow 10 exponent.toNat) 1
  else ofRatio negative digits (Nat.pow 10 (-exponent).toNat)

/-- The double nearest to a natural number. -/
def ofNat (n : Nat) : Float := ofRatio false n 1

/-- The double nearest to an integer. -/
def ofInt (i : Int) : Float := ofRatio (i < 0) i.natAbs 1

namespace Finite

/-- The natural part of the magnitude. -/
def floorAbs (x : Finite) : Nat :=
  if x.exponent ≥ 0 then x.mantissa <<< x.exponent.toNat
  else x.mantissa >>> (-x.exponent).toNat

/-- The integer part, toward zero. -/
def truncate (x : Finite) : Int :=
  if x.negative then -(x.floorAbs : Int) else x.floorAbs

/-- No fractional part. -/
def isIntegral (x : Finite) : Bool :=
  x.exponent ≥ 0 || x.mantissa % (1 <<< (-x.exponent).toNat) = 0

end Finite

/-- The integer part of a finite double. -/
def truncate? (x : Float) : Option Int :=
  match decode x with
  | .finite parts => some parts.truncate
  | _ => none

/-- The sign bit, zeros and all. -/
def isNegative (x : Float) : Bool := x.toBits.toNat / signBit % 2 = 1

/-- Drop the fractional part, keeping the sign of a zero. -/
def trunc (x : Float) : Float := if x < 0 then x.ceil else x.floor

/-- The remainder of the division that truncates; it has the sign of `x`. -/
def remainder (x y : Float) : Float :=
  match decode x, decode y with
  | .finite a, .finite b =>
    if b.mantissa = 0 then nan
    else
      let unit := min a.exponent b.exponent
      let n := a.mantissa <<< (a.exponent - unit).toNat
      let d := b.mantissa <<< (b.exponent - unit).toNat
      let r := n % d
      if unit ≥ 0 then ofRatio a.negative (r <<< unit.toNat) 1
      else ofRatio a.negative r (1 <<< (-unit).toNat)
  | .finite _, .infinite _ => x
  | _, _ => nan

/-- The residue of the integer part modulo `2^32`; zero when there is none. -/
def toUInt32 (x : Float) : UInt32 :=
  match truncate? x with
  | some i => (i % 4294967296).toNat.toUInt32
  | none => 0

/-- The residue of the integer part modulo `2^32`, read as a signed word. -/
def toInt32 (x : Float) : Int32 := (toUInt32 x).toInt32

end Fermata.Number
