import Fermata.Number.Binary
import Mathlib.Tactic.Common

/-!
# Doubles and their bits

What the bits of a double say about it, as far as comparisons and readers need it.

* `Number.beq_comm`: equality of doubles is symmetric, though not reflexive.
* `Number.isNaN_ofBits`: the bits of what is not a number.
* `Number.isNaN_ofRatio`, `Number.isNaN_ofDecimal`: whatever is rounded to a double is a number.
-/

open Float.Model

namespace Fermata.Number

/-! ## Equality -/

/-- What compares as equal does so the other way round. -/
theorem compare_eq_symm (a b : UnpackedFloat) (h : a.compare b = some .eq) :
    b.compare a = some .eq := by
  cases a with
  | notANumber => cases b <;> cases h
  | infinity s =>
    cases b with
    | infinity t => cases s <;> cases t <;> first | rfl | cases h
    | notANumber => cases h
    | zero | finite => cases s <;> cases h
  | zero s =>
    cases b with
    | zero => rfl
    | notANumber => cases h
    | infinity t | finite t => cases t <;> cases h
  | finite s m e hm =>
    cases b with
    | notANumber => cases h
    | infinity t => cases t <;> cases h
    | zero => cases s <;> cases h
    | finite t n f hn =>
      -- equal signs leave two orderings of numbers, each of them `eq` on both sides
      have hboth (h : (compare e f).then (compare m n) = .eq) :
          (compare f e).then (compare n m) = .eq := by
        simp only [Ordering.then_eq_eq, Std.LawfulEqOrd.compare_eq_iff_eq] at h ⊢
        exact ⟨h.1.symm, h.2.symm⟩
      cases s <;> cases t
      · exact congrArg some (Ordering.swap_eq_eq.mpr
          (hboth (Ordering.swap_eq_eq.mp (Option.some.inj h))))
      · cases h
      · cases h
      · exact congrArg some (hboth (Option.some.inj h))

theorem beq_comm (x y : Float) : (x == y) = (y == x) := by
  have hsymm (x y : Float) (h : (x == y) = true) : (y == x) = true := by
    have h : (x.toModel.unpack.compare y.toModel.unpack == some .eq) = true := h
    have h' : y.toModel.unpack.compare x.toModel.unpack = some .eq :=
      compare_eq_symm _ _ (beq_iff_eq.mp h)
    exact show (y.toModel.unpack.compare x.toModel.unpack == some .eq) = true from
      beq_iff_eq.mpr h'
  exact Bool.eq_iff_iff.mpr ⟨hsymm x y, hsymm y x⟩

/-! ## What is not a number -/

theorem isNaN_unpack (v : BitVec Format.binary64.numBits) :
    (UnpackedFloat.unpack .binary64 v).isNaN = true ↔
      UnpackedFloat.unpackExponent v = -1#_ ∧ UnpackedFloat.unpackMantissa v ≠ 0#_ := by
  have hzero {f : UnpackedFloat} (h : UnpackedFloat.unpack .binary64 v = f) (hf : f.isNaN = false) :
      ¬(UnpackedFloat.unpack .binary64 v).isNaN = true := by
    rw [h, hf]
    exact Bool.false_ne_true
  by_cases he : UnpackedFloat.unpackExponent v = -1#_
  · by_cases hm : UnpackedFloat.unpackMantissa v = 0#_
    · exact iff_of_false (hzero ((if_pos he).trans (if_pos hm)) rfl) fun h => h.2 hm
    · have hnan : UnpackedFloat.unpack .binary64 v = .notANumber := (if_pos he).trans (if_neg hm)
      rw [hnan]
      exact iff_of_true rfl ⟨he, hm⟩
  · refine iff_of_false ?_ fun h => he h.1
    by_cases hsmall : UnpackedFloat.unpackExponent v = 0#_
    · by_cases hm : UnpackedFloat.unpackMantissa v = 0#_
      · exact hzero ((if_neg he).trans ((if_pos hsmall).trans (dif_pos hm))) rfl
      · exact hzero ((if_neg he).trans ((if_pos hsmall).trans (dif_neg hm))) rfl
    · exact hzero ((if_neg he).trans (if_neg hsmall)) rfl

/-- Bits are those of a number if their exponent is not the reserved one or their mantissa is zero. -/
theorem isNaN_packComponents {s : UnpackedFloat.Sign} {e : BitVec Format.binary64.exponentBits}
    {m : BitVec Format.binary64.mantissaBitsWithoutImplicit} (h : e ≠ -1#_ ∨ m = 0#_) :
    (UnpackedFloat.unpack .binary64 (UnpackedFloat.packComponents .binary64 s e m)).isNaN =
      false := by
  rw [Bool.eq_false_iff, Ne, isNaN_unpack, UnpackedFloat.unpackExponent_packComponents,
    UnpackedFloat.unpackMantissa_packComponents]
  rintro ⟨he, hm⟩
  exact h.elim (· he) hm

/-- Putting the parts of a double into bits keeps whether it is a number. -/
theorem isNaN_pack (f : UnpackedFloat) :
    (UnpackedFloat.unpack .binary64 (UnpackedFloat.pack .binary64 f)).isNaN = f.isNaN := by
  cases f with
  | notANumber => decide
  | infinity s =>
    have hpack : UnpackedFloat.pack .binary64 (.infinity s) =
        UnpackedFloat.packComponents .binary64 s (-1#_) 0#_ := rfl
    rw [hpack, isNaN_packComponents (.inr rfl)]
    rfl
  | zero s =>
    have hpack : UnpackedFloat.pack .binary64 (.zero s) =
        UnpackedFloat.packComponents .binary64 s 0#_ 0#_ := rfl
    rw [hpack, isNaN_packComponents (.inr rfl)]
    rfl
  | finite s m e hm =>
    generalize hbiased : (e + Format.binary64.exponentBias +
      Format.binary64.mantissaBitsWithoutImplicit).toNat = biased
    have hpack : UnpackedFloat.pack .binary64 (.finite s m e hm) =
        if 2 ^ Format.binary64.exponentBits ≤ biased + 1 then
          UnpackedFloat.packComponents .binary64 s (-1#_) 0#_
        else if m.log2 + 1 = Format.binary64.mantissaBits then
          UnpackedFloat.packComponents .binary64 s (BitVec.ofNat _ biased) (BitVec.ofNat _ m)
        else UnpackedFloat.packComponents .binary64 s 0#_ (BitVec.ofNat _ m) := by
      rw [← hbiased]
      rfl
    rw [hpack]
    change _ = false
    split_ifs with hlarge
    · exact isNaN_packComponents (.inr rfl)
    · refine isNaN_packComponents (.inl fun h => ?_)
      have hsmall : ¬2048 ≤ biased + 1 := hlarge
      have hones : biased % 2048 = 2047 := congrArg BitVec.toNat h
      omega
    · exact isNaN_packComponents (.inl (by decide))

/-- The bits of what is not a number: the reserved exponent, and a mantissa that is not zero. -/
theorem isNaN_ofBits (b : UInt64) :
    (Float.ofBits b).isNaN = true ↔ decodeBits b.toNat = .nan := by
  have h : (Float.ofBits b).isNaN = (UnpackedFloat.unpack .binary64 b.toBitVec).isNaN :=
    isNaN_pack _
  have hm : (@UnpackedFloat.unpackMantissa .binary64 b.toBitVec).toNat =
      b.toNat % leadingBit := by
    simp [UnpackedFloat.unpackMantissa, leadingBit]
  have he : (@UnpackedFloat.unpackExponent .binary64 b.toBitVec).toNat =
      b.toNat / leadingBit % 2048 := by
    simp [UnpackedFloat.unpackExponent, leadingBit, Nat.shiftRight_eq_div_pow]
  rw [h, isNaN_unpack, Ne, ← BitVec.toNat_inj, ← BitVec.toNat_inj, he, hm]
  unfold decodeBits
  dsimp only
  split_ifs <;> simp_all [reservedField]

/-- Bits up to those of infinity, with a sign. -/
theorem isNaN_magnitude {negative : Bool} {m : Nat} (hm : m ≤ reservedField * leadingBit) :
    (Float.ofBits (signBits negative + m).toUInt64).isNaN = false := by
  rw [Bool.eq_false_iff, Ne, isNaN_ofBits]
  unfold reservedField leadingBit at hm
  have hsign : signBits negative = 0 ∨ signBits negative = 0x8000000000000000 := by
    cases negative <;> decide
  have hbits : (signBits negative + m).toUInt64.toNat = signBits negative + m := by
    rw [Nat.toUInt64_eq, UInt64.toNat_ofNat']
    omega
  rw [hbits]
  unfold decodeBits
  dsimp only
  split_ifs with hreserved hzero hleast
  · exact nofun
  · unfold reservedField leadingBit at hreserved
    unfold leadingBit at hzero
    omega
  · exact nofun
  · exact nofun

theorem isNaN_infinity (negative : Bool) : (infinity negative).isNaN = false :=
  isNaN_magnitude (Nat.le_refl _)

theorem isNaN_encodeBits {negative : Bool} {m : Nat} {e : Int} (hm : m < 2 * leadingBit) :
    (Float.ofBits (encodeBits negative m e).toUInt64).isNaN = false := by
  unfold encodeBits
  split_ifs with hsmall hlarge
  · refine isNaN_magnitude ?_
    unfold reservedField leadingBit at *
    omega
  · exact isNaN_magnitude (Nat.le_refl _)
  · rw [Nat.add_assoc]
    refine isNaN_magnitude ?_
    unfold reservedField leadingBit greatestExponent at *
    omega

/-- In units great enough a fraction has at most 53 bits. -/
theorem inUnits_lt {num den : Nat} {e : Int} (hden : den ≠ 0)
    (he : (num.log2 : Int) - den.log2 - 52 ≤ e) :
    (inUnits num den e).1 / (inUnits num den e).2 < 2 * leadingBit := by
  have hnum : num < 2 ^ (num.log2 + 1) := Nat.lt_log2_self
  have hden' : 2 ^ den.log2 ≤ den := Nat.log2_self_le hden
  have hbits : 2 * leadingBit = 2 ^ 53 := by decide
  unfold inUnits
  split
  next hpos =>
    rw [Nat.shiftLeft_eq, hbits]
    refine Nat.div_lt_of_lt_mul (Nat.lt_of_lt_of_le hnum ?_)
    calc 2 ^ (num.log2 + 1) ≤ 2 ^ (den.log2 + e.toNat + 53) :=
          Nat.pow_le_pow_right (by decide) (by omega)
      _ = 2 ^ den.log2 * 2 ^ e.toNat * 2 ^ 53 := by rw [Nat.pow_add, Nat.pow_add]
      _ ≤ den * 2 ^ e.toNat * 2 ^ 53 :=
          Nat.mul_le_mul_right _ (Nat.mul_le_mul_right _ hden')
  next hneg =>
    rw [Nat.shiftLeft_eq, hbits]
    refine Nat.div_lt_of_lt_mul ?_
    calc num * 2 ^ (-e).toNat < 2 ^ (num.log2 + 1) * 2 ^ (-e).toNat :=
          Nat.mul_lt_mul_of_pos_right hnum (Nat.two_pow_pos _)
      _ = 2 ^ (num.log2 + 1 + (-e).toNat) := (Nat.pow_add ..).symm
      _ ≤ 2 ^ (den.log2 + 53) := Nat.pow_le_pow_right (by decide) (by omega)
      _ = 2 ^ den.log2 * 2 ^ 53 := Nat.pow_add ..
      _ ≤ den * 2 ^ 53 := Nat.mul_le_mul_right _ hden'

/-- The units of its exponent are great enough. -/
theorem inUnits_unitExponent {num den : Nat} (hden : den ≠ 0) :
    (inUnits num den (unitExponent num den)).1 / (inUnits num den (unitExponent num den)).2 <
      2 * leadingBit := by
  unfold unitExponent
  dsimp only
  split
  · exact inUnits_lt hden (by omega)
  next h => exact Nat.lt_of_not_le h

theorem roundEven_le (n d : Nat) : roundEven n d ≤ n / d + 1 := by
  unfold roundEven
  dsimp only
  split <;> omega

theorem isNaN_ofRatio (negative : Bool) (num den : Nat) : (ofRatio negative num den).isNaN = false := by
  unfold ofRatio ratioBits
  split
  next => exact isNaN_magnitude (m := 0) (Nat.zero_le _)
  next h =>
    have hden : den ≠ 0 := by
      rintro rfl
      simp at h
    have hlt := @inUnits_unitExponent num den hden
    have hround := roundEven_le (inUnits num den (unitExponent num den)).1
      (inUnits num den (unitExponent num den)).2
    dsimp only
    split_ifs with hcarry
    · exact isNaN_encodeBits (by decide)
    · exact isNaN_encodeBits (by omega)

theorem isNaN_ofDecimal (negative : Bool) (digits : Nat) (e : Int) :
    (ofDecimal negative digits e).isNaN = false := by
  unfold ofDecimal
  dsimp only
  split_ifs
  · exact isNaN_ofRatio ..
  · exact isNaN_infinity negative
  · exact isNaN_ofRatio ..
  · exact isNaN_ofRatio ..

theorem isNaN_nan : nan.isNaN = true := by decide

end Fermata.Number
