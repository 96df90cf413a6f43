import Fermata.Heap.Object

/-!
# Indices and their keys

The decimal text of a number is a list of digits that starts with a zero only for zero itself, and
every such list is the text of the number that it writes. Indices and the keys that write them are
therefore in one-to-one correspondence.

* `Text.decimal_iff`: lists of digits and numbers,
* `arrayIndex?_eq_some_iff`: which keys write an index, and which index.
-/

namespace Fermata

namespace Text

/-- Digits that write a number: at least one, and no zero in front of another. -/
structure Decimal (cs : List Char) : Prop where
  digits : ∀ c ∈ cs, isDigit c = true
  nonempty : cs ≠ []
  leading : cs.head? = some '0' → cs = ['0']

/-- The digits here are those of the standard library. -/
theorem isDigit_eq (c : Char) : isDigit c = c.isDigit := by
  simp only [isDigit, Char.isDigit, Char.le_def]

/-- A digit is the one that writes its value. -/
theorem digitChar_value {c : Char} (hc : isDigit c = true) :
    c.toNat - '0'.toNat < 10 ∧ Nat.digitChar (c.toNat - '0'.toNat) = c := by
  simp only [isDigit, Bool.and_eq_true, decide_eq_true_eq, Char.le_def,
    UInt32.le_iff_toNat_le] at hc
  have hlow : 48 ≤ c.toNat := hc.1
  have hhigh : c.toNat ≤ 57 := hc.2
  have hzero : '0'.toNat = 48 := rfl
  refine ⟨by omega, Char.toNat_inj.mp ?_⟩
  rw [Nat.toNat_digitChar_of_lt_ten (by omega)]
  omega

/-- Digits that follow the text of a positive number make the text of a greater one. -/
theorem toDigits_append {n : Nat} {cs : List Char} (hn : 0 < n)
    (hcs : ∀ c ∈ cs, isDigit c = true) :
    Nat.toDigits 10 n ++ cs =
      Nat.toDigits 10 (cs.foldl (fun n c => 10 * n + (c.toNat - '0'.toNat)) n) := by
  induction cs generalizing n with
  | nil => simp
  | cons c cs ih =>
    obtain ⟨hlt, hchar⟩ := digitChar_value (hcs c List.mem_cons_self)
    have hfirst := Nat.toDigits_append_toDigits (b := 10) (by omega) hn hlt
    rw [Nat.toDigits_of_lt_base hlt, hchar] at hfirst
    rw [List.foldl_cons, ← ih (by omega) fun d hd => hcs d (List.mem_cons_of_mem c hd), ← hfirst,
      List.append_assoc, List.singleton_append]

/-- Digits that write a number are the text of that number. -/
theorem Decimal.toDigits_decimalValue {cs : List Char} (h : Decimal cs) :
    Nat.toDigits 10 (decimalValue cs) = cs := by
  obtain _ | ⟨c, cs⟩ := cs
  · exact absurd rfl h.nonempty
  obtain ⟨hlt, hchar⟩ := digitChar_value (h.digits c List.mem_cons_self)
  by_cases hc : c = '0'
  · obtain rfl := hc
    rw [h.leading rfl]
    rfl
  have hpos : 0 < c.toNat - '0'.toNat := by
    refine Nat.pos_of_ne_zero fun h0 => hc ?_
    rw [h0] at hchar
    exact hchar.symm
  have htail := toDigits_append hpos fun d hd => h.digits d (List.mem_cons_of_mem c hd)
  rw [Nat.toDigits_of_lt_base hlt, hchar, List.singleton_append] at htail
  calc Nat.toDigits 10 (decimalValue (c :: cs))
      = Nat.toDigits 10 (cs.foldl (fun n c => 10 * n + (c.toNat - '0'.toNat))
          (c.toNat - '0'.toNat)) := by
        rw [decimalValue, List.foldl_cons, Nat.mul_zero, Nat.zero_add]
    _ = c :: cs := htail.symm

/-- The text of a number starts with a zero only for zero. -/
theorem head?_toDigits {n : Nat} (h : (Nat.toDigits 10 n).head? = some '0') : n = 0 := by
  induction n using Nat.strongRecOn with
  | ind n ih =>
    by_cases hn : n < 10
    · rw [Nat.toDigits_of_lt_base hn] at h
      simpa using h
    · obtain ⟨c, cs, hfront⟩ := List.exists_cons_of_ne_nil
        (Nat.toDigits_ne_nil (n := n / 10) (b := 10))
      rw [Nat.toDigits_of_base_le (by omega) (by omega), hfront] at h
      have := ih (n / 10) (by omega) (by rw [hfront]; exact h)
      omega

/-- The text of a number consists of digits that write a number. -/
theorem decimal_toDigits (n : Nat) : Decimal (Nat.toDigits 10 n) where
  digits c hc := by
    rw [isDigit_eq]
    exact Nat.isDigit_of_mem_toDigits (by omega) (by omega) hc
  nonempty := Nat.toDigits_ne_nil
  leading h := by rw [head?_toDigits h, Nat.toDigits_zero]

/-- Digits that write a number are the text of that number and of no other. -/
theorem decimal_iff {cs : List Char} {n : Nat} :
    Decimal cs ∧ decimalValue cs = n ↔ cs = Nat.toDigits 10 n := by
  constructor
  · rintro ⟨h, rfl⟩
    exact h.toDigits_decimalValue.symm
  · rintro rfl
    exact ⟨decimal_toDigits n, Nat.ofDigitChars_ten_toDigits⟩

/-- The test by which a key counts as an index. -/
theorem decimal_cons {c : Char} {cs : List Char} :
    Decimal (c :: cs) ↔
      ¬ ((c = '0' && !cs.isEmpty) || !(c :: cs).all isDigit) = true := by
  simp only [Bool.or_eq_true, Bool.and_eq_true, decide_eq_true_eq, Bool.not_eq_true', not_or,
    not_and, List.isEmpty_eq_false_iff, ne_eq, Decidable.not_not, Bool.not_eq_false, List.all_eq_true]
  constructor
  · intro h
    refine ⟨?_, h.digits⟩
    rintro rfl
    exact (List.cons.inj (h.leading rfl)).2
  · rintro ⟨hzero, hdigits⟩
    refine ⟨hdigits, List.cons_ne_nil c cs, fun hc => ?_⟩
    obtain rfl : c = '0' := by simpa using hc
    rw [hzero rfl]

end Text

/-- The text of a number is the list of digits that writes it. -/
theorem decimal_toString {key : String} {i : Nat} :
    key = toString i ↔ Text.Decimal key.toList ∧ Text.decimalValue key.toList = i := by
  rw [Text.decimal_iff, ← Nat.toList_repr, String.toList_inj]
  rfl

/-- A key is an index if it is the decimal text of a number below the greatest length. -/
theorem arrayIndex?_eq_some_iff {key : String} {i : Nat} :
    arrayIndex? key = some i ↔ key = toString i ∧ i < maxArrayLength := by
  rw [decimal_toString]
  unfold arrayIndex?
  split
  next hnil =>
    rw [hnil]
    simp only [reduceCtorEq, false_iff, not_and]
    exact fun h => absurd rfl h.1.nonempty
  next c cs hcons =>
    rw [hcons, Text.decimal_cons]
    split
    next hbad =>
      simp only [reduceCtorEq, false_iff, not_and]
      exact fun h => absurd hbad h.1
    next hgood =>
      simp only [Option.filter_eq_some_iff, Option.some.injEq, decide_eq_true_eq]
      exact and_congr_left fun _ => ⟨fun h => ⟨hgood, h⟩, And.right⟩

/-- The text of an index is the key that writes it. -/
theorem arrayIndex?_toString {i : Nat} (hi : i < maxArrayLength) :
    arrayIndex? (toString i) = some i := arrayIndex?_eq_some_iff.mpr ⟨rfl, hi⟩

/-- The key of the length is no index. -/
theorem arrayIndex?_length : arrayIndex? "length" = none := by decide

/-- Two keys that write the same index are the same. -/
theorem arrayIndex?_inj {a b : String} {i : Nat} (ha : arrayIndex? a = some i)
    (hb : arrayIndex? b = some i) : a = b :=
  (arrayIndex?_eq_some_iff.mp ha).1.trans (arrayIndex?_eq_some_iff.mp hb).1.symm

/-- Different indices have different keys. -/
theorem toString_inj {i j : Nat} (hi : i < maxArrayLength) (hj : j < maxArrayLength)
    (h : toString i = toString j) : i = j := by
  have hindex := arrayIndex?_toString hi
  rw [h, arrayIndex?_toString hj] at hindex
  exact (Option.some.inj hindex).symm

/-- A key that writes an index is not the key of the length. -/
theorem ne_length_of_arrayIndex? {key : String} {i : Nat} (h : arrayIndex? key = some i) :
    key ≠ "length" := by
  rintro rfl
  rw [arrayIndex?_length] at h
  cases h

end Fermata
