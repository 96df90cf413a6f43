import Fermata.Json.Printer
import Fermata.Json.Reader
import Mathlib.Data.List.TakeDrop

/-!
# Numbers in a text

How a number is read is settled by its own characters: a number that is read from a text is read from
the same text with a comma or a closing bracket behind it (`Json.Local`, `local_readNumber`). So what
is known of a number that stands alone, that it reads back as itself (`JsonNumber.Survives`), holds
wherever a tree holds it.

* `survives_ofNat`: natural numbers of 64 bits survive.
-/

namespace Fermata

/-- The text of the number reads back as the number. -/
def JsonNumber.Survives (n : JsonNumber) : Prop :=
  Json.parse (Json.number n).compact = .ok (.number n)

namespace Json

/-- What stands behind an item: nothing, a comma or a closing bracket. -/
def Closes (tail : List Char) : Prop := ∀ c ∈ tail.head?, c = ',' ∨ c = ']' ∨ c = '\x7d'

theorem Closes.head {tail : List Char} (h : Closes tail) {c : Char} (hc : tail.head? = some c) :
    Text.isDigit c = false ∧ Input.isBlank c = false ∧ c ≠ '.' ∧ c ≠ 'e' ∧ c ≠ 'E' := by
  rcases h c hc with rfl | rfl | rfl <;> decide

theorem closes_cons {c : Char} (hc : c = ',' ∨ c = ']' ∨ c = '\x7d') (tail : List Char) :
    Closes (c :: tail) := by
  intro d hd
  cases hd
  exact hc

/-- A reader gets the same from a text with this tail. -/
def Local {α : Type} (tail : List Char) (read : Input → Read α) : Prop :=
  ∀ i j a i', j.rest = i.rest ++ tail → read i = .ok (a, i') →
    ∃ j', read j = .ok (a, j') ∧ j'.rest = i'.rest ++ tail

variable {tail : List Char}

/-! ## Digits -/

theorem Closes.takeWhile_append (h : Closes tail) (cs : List Char) :
    (cs ++ tail).takeWhile Text.isDigit = cs.takeWhile Text.isDigit := by
  induction cs with
  | nil =>
    cases tail with
    | nil => rfl
    | cons c tail => simp [(h.head rfl).1]
  | cons c cs ih => simp only [List.cons_append, List.takeWhile_cons, ih]

theorem Closes.dropWhile_append (h : Closes tail) (cs : List Char) :
    (cs ++ tail).dropWhile Text.isDigit = cs.dropWhile Text.isDigit ++ tail := by
  induction cs with
  | nil =>
    cases tail with
    | nil => rfl
    | cons c tail => simp [(h.head rfl).1]
  | cons c cs ih =>
    simp only [List.cons_append, List.dropWhile_cons, ih]
    split <;> rfl

theorem takeDigits_append (ht : Closes tail) {i j : Input} (h : j.rest = i.rest ++ tail) :
    j.takeDigits.1 = i.takeDigits.1 ∧ j.takeDigits.2.rest = i.takeDigits.2.rest ++ tail := by
  simp only [Input.takeDigits, List.span_eq_takeWhile_dropWhile, h, ht.takeWhile_append,
    ht.dropWhile_append, and_self]

@[simp]
theorem rest_pass (i : Input) (c : Char) (rest : List Char) : (i.pass c rest).rest = rest := by
  unfold Input.pass
  split <;> rfl

/-! ## What a number is read as does not depend on the place -/

theorem scale_go_ok {i : Input} {fuel : Nat} {x y : Float} {exponent : Int}
    (h : scale.go i fuel x exponent = .ok y) (j : Input) : scale.go j fuel x exponent = .ok y := by
  induction fuel generalizing x exponent with
  | zero => exact h
  | succ fuel ih =>
    unfold scale.go at h ⊢
    by_cases hpower : exponent.natAbs ≤ greatestPower
    · rw [if_pos hpower] at h ⊢
      by_cases hexp : exponent ≥ 0
      · rw [if_pos hexp] at h ⊢
        dsimp only at h ⊢
        split at h
        · cases h
        · rename_i hinf
          rw [if_neg hinf]
          exact h
      · rw [if_neg hexp] at h ⊢
        exact h
    · rw [if_neg hpower] at h ⊢
      by_cases hx : (x == 0) = true
      · rw [if_pos hx] at h ⊢
        exact h
      · rw [if_neg hx] at h ⊢
        by_cases hexp : exponent ≥ 0
        · rw [if_pos hexp] at h
          cases h
        · rw [if_neg hexp] at h ⊢
          exact ih h

theorem local_finishDouble (negative : Bool) (significand : Nat) (exponent : Int) :
    Local tail (finishDouble negative significand exponent) := by
  intro i j a i' hrest h
  unfold finishDouble scale at h
  cases hs : scale.go i 16 (Number.ofNat significand) exponent with
  | error f =>
    rw [hs] at h
    cases h
  | ok x =>
    rw [hs] at h
    cases h
    refine ⟨j, ?_, hrest⟩
    unfold finishDouble scale
    rw [scale_go_ok hs j]
    rfl

theorem local_hugeExponent (negative down zero : Bool) (digits : List Char) :
    Local tail fun i => hugeExponent negative down zero i digits := by
  intro i j a i' hrest h
  unfold hugeExponent at h ⊢
  dsimp only at h ⊢
  split at h
  · cases h
  · rename_i hz
    rw [if_neg hz]
    cases h
    exact ⟨j, rfl, hrest⟩

/-- The digits of an exponent, its sign already passed. -/
def exponentDigits (negative : Bool) (significand : Nat) (exponent : Int) (down : Bool) (i : Input) :
    Read JsonNumber :=
  match i.rest with
  | [] => .error (i.behind .eofInValue)
  | c :: _ =>
    if Text.isDigit c then
      let (ds, i) := i.takeDigits
      let n := Text.decimalValue ds
      if n > greatestExponentDigits then hugeExponent negative down (significand = 0) i ds
      else finishDouble negative significand (if down then exponent - n else exponent + n) i
    else .error (i.ahead .invalidNumber)

theorem readExponent_eq (negative : Bool) (significand : Nat) (exponent : Int) (i : Input) :
    readExponent negative significand exponent i =
      match i.rest with
      | c :: rest =>
        if c = '+' then exponentDigits negative significand exponent false (i.pass '+' rest)
        else if c = '-' then exponentDigits negative significand exponent true (i.pass '-' rest)
        else exponentDigits negative significand exponent false i
      | [] => exponentDigits negative significand exponent false i := by
  unfold readExponent
  split
  rename_i down k hsign
  split at hsign
  · rename_i heq
    cases hsign
    simp only [heq]
    rfl
  · rename_i heq
    cases hsign
    simp only [heq]
    rfl
  · rename_i hplus hminus
    cases hsign
    cases hi : i.rest with
    | nil => simp only [exponentDigits, hi]
    | cons c cs =>
      have hc : c ≠ '+' := fun h => hplus cs (by rw [hi, h])
      have hc' : c ≠ '-' := fun h => hminus cs (by rw [hi, h])
      simp only [exponentDigits, hi, if_neg hc, if_neg hc']

theorem local_exponentDigits (ht : Closes tail) (negative : Bool) (significand : Nat)
    (exponent : Int) (down : Bool) :
    Local tail (exponentDigits negative significand exponent down) := by
  intro i j a i' hrest h
  obtain ⟨hds, hafter⟩ := takeDigits_append ht hrest
  unfold exponentDigits at h ⊢
  cases hi : i.rest with
  | nil =>
    simp only [hi] at h
    cases h
  | cons c cs =>
    simp only [hi] at h
    simp only [hrest, hi, List.cons_append, hds]
    split at h
    · rename_i hc
      rw [if_pos hc]
      split at h
      · rename_i hn
        rw [if_pos hn]
        exact local_hugeExponent _ _ _ _ _ _ _ _ hafter h
      · rename_i hn
        rw [if_neg hn]
        exact local_finishDouble _ _ _ _ _ _ _ hafter h
    · cases h

theorem local_readExponent (ht : Closes tail) (negative : Bool) (significand : Nat)
    (exponent : Int) : Local tail (readExponent negative significand exponent) := by
  intro i j a i' hrest h
  rw [readExponent_eq] at h ⊢
  cases hi : i.rest with
  | nil =>
    simp only [exponentDigits, hi] at h
    cases h
  | cons c cs =>
    rw [hi] at hrest
    simp only [hrest, List.cons_append]
    simp only [hi] at h
    split at h
    · rename_i hc
      rw [if_pos hc]
      exact local_exponentDigits ht _ _ _ _ _ _ _ _ (by simp) h
    · rename_i hc
      rw [if_neg hc]
      split at h
      · rename_i hc
        rw [if_pos hc]
        exact local_exponentDigits ht _ _ _ _ _ _ _ _ (by simp) h
      · rename_i hc
        rw [if_neg hc]
        exact local_exponentDigits ht _ _ _ _ _ _ _ _ (by rw [hrest, hi]) h

theorem local_afterDigits (ht : Closes tail) (negative : Bool) (significand : Nat)
    (exponent : Int) : Local tail (afterDigits negative significand exponent) := by
  intro i j a i' hrest h
  unfold afterDigits at h ⊢
  cases hi : i.rest with
  | nil =>
    simp only [hi] at h
    have hfinish := local_finishDouble _ _ _ _ _ _ _ hrest h
    rw [hi, List.nil_append] at hrest
    cases tail with
    | nil => simpa only [hrest] using hfinish
    | cons c cs =>
      obtain ⟨-, -, -, he, hE⟩ := ht.head rfl
      simpa only [hrest, he, hE, or_self, if_false] using hfinish
  | cons c cs =>
    rw [hi] at hrest
    simp only [hrest, List.cons_append]
    simp only [hi] at h
    split at h
    · rename_i hc
      rw [if_pos hc]
      exact local_readExponent ht _ _ _ _ _ _ _ (by simp) h
    · rename_i hc
      rw [if_neg hc]
      exact local_finishDouble _ _ _ _ _ _ _ (by rw [hrest, hi]) h

theorem local_readFraction (ht : Closes tail) (negative : Bool) (significand : Nat)
    (exponent : Int) : Local tail (readFraction negative significand exponent) := by
  intro i j a i' hrest h
  obtain ⟨hds, hafter⟩ := takeDigits_append ht hrest
  unfold readFraction at h ⊢
  dsimp only at h ⊢
  rw [hds]
  cases hi : i.takeDigits.1 with
  | nil =>
    simp only [hi] at h
    cases h
  | cons d ds =>
    simp only [hi] at h
    exact local_afterDigits ht _ _ _ _ _ _ _ hafter h

theorem local_whole (negative : Bool) (n : Nat) (left : List Char) :
    Local tail fun i => afterWhole.whole negative i n left := by
  intro i j a i' hrest h
  simp only [afterWhole.whole] at h ⊢
  split at h
  · rename_i hleft
    rw [if_pos hleft]
    exact local_finishDouble _ _ _ _ _ _ _ hrest h
  · rename_i hleft
    rw [if_neg hleft]
    split at h
    · rename_i hneg
      rw [if_pos hneg]
      cases h
      exact ⟨j, rfl, hrest⟩
    · rename_i hneg
      rw [if_neg hneg]
      split at h
      · rename_i hn
        rw [if_pos hn]
        cases h
        exact ⟨j, rfl, hrest⟩
      · rename_i hn
        rw [if_neg hn]
        cases h
        exact ⟨j, rfl, hrest⟩

theorem afterWhole_eq (negative : Bool) (digits : List Char) (i : Input) :
    afterWhole negative digits i =
      let (n, _, left) := fillSignificand digits 0 0
      match i.rest with
      | c :: rest =>
        if c = '.' then readFraction negative n left.length (i.pass '.' rest)
        else if c = 'e' ∨ c = 'E' then afterDigits negative n left.length i
        else afterWhole.whole negative i n left
      | [] => afterWhole.whole negative i n left := by
  unfold afterWhole
  dsimp only
  cases hi : i.rest with
  | nil => rfl
  | cons c cs =>
    by_cases hc : c = '.'
    · subst hc
      simp only [if_true]
    · simp only [if_neg hc]

theorem local_afterWhole (ht : Closes tail) (negative : Bool) (digits : List Char) :
    Local tail (afterWhole negative digits) := by
  intro i j a i' hrest h
  rw [afterWhole_eq] at h ⊢
  dsimp only at h ⊢
  cases hi : i.rest with
  | nil =>
    simp only [hi] at h
    have hwhole := local_whole _ _ _ _ _ _ _ hrest h
    rw [hi, List.nil_append] at hrest
    cases tail with
    | nil => simpa only [hrest] using hwhole
    | cons c cs =>
      obtain ⟨-, -, hdot, he, hE⟩ := ht.head rfl
      simpa only [hrest, hdot, he, hE, or_self, if_false] using hwhole
  | cons c cs =>
    have hj : j.rest = c :: (cs ++ tail) := by rw [hrest, hi, List.cons_append]
    simp only [hj]
    simp only [hi] at h
    split at h
    · rename_i hc
      rw [if_pos hc]
      exact local_readFraction ht _ _ _ _ _ _ _ (by simp) h
    · rename_i hc
      rw [if_neg hc]
      split at h
      · rename_i he
        rw [if_pos he]
        exact local_afterDigits ht _ _ _ _ _ _ _ hrest h
      · rename_i he
        rw [if_neg he]
        exact local_whole _ _ _ _ _ _ _ hrest h

theorem readNumber_nil (negative : Bool) {i : Input} (hi : i.rest = []) :
    readNumber negative i = .error (i.behind .eofInValue) := by
  simp only [readNumber, hi]

theorem readNumber_cons (negative : Bool) {i : Input} {c : Char} {rest : List Char}
    (hi : i.rest = c :: rest) :
    readNumber negative i =
      if c = '0' then
        if rest.head?.any Text.isDigit then .error ((i.pass '0' rest).ahead .invalidNumber)
        else afterWhole negative ['0'] (i.pass '0' rest)
      else if Text.isDigit c then afterWhole negative i.takeDigits.1 i.takeDigits.2
      else .error (i.ahead .invalidNumber) := by
  unfold readNumber
  rw [hi]
  by_cases hc : c = '0'
  · subst hc
    cases rest with
    | nil => simp
    | cons d ds =>
      cases hd : Text.isDigit d <;> simp [hd]
  · simp only [if_neg hc]

/-- **A number is read from its own characters.** -/
theorem local_readNumber (ht : Closes tail) (negative : Bool) :
    Local tail (readNumber negative) := by
  intro i j a i' hrest h
  cases hi : i.rest with
  | nil =>
    rw [readNumber_nil _ hi] at h
    cases h
  | cons c cs =>
    have hj : j.rest = c :: (cs ++ tail) := by rw [hrest, hi, List.cons_append]
    obtain ⟨hds, hafter⟩ := takeDigits_append ht hrest
    rw [readNumber_cons _ hj, hds]
    rw [readNumber_cons _ hi] at h
    split at h
    · rename_i hc
      rw [if_pos hc]
      split at h
      · cases h
      · rename_i hd
        have hd' : ¬(cs ++ tail).head?.any Text.isDigit = true := by
          cases cs with
          | nil =>
            cases htail : tail.head? with
            | none => simp [htail]
            | some d => simp [htail, (ht.head htail).1]
          | cons e es => exact hd
        rw [if_neg hd']
        exact local_afterWhole ht _ _ _ _ _ _ (by simp) h
    · rename_i hc
      rw [if_neg hc]
      split at h
      · rename_i hdigit
        rw [if_pos hdigit]
        exact local_afterWhole ht _ _ _ _ _ _ hafter h
      · cases h

/-! ## Numbers among values -/

theorem rest_skipBlanks (i : Input) : i.skipBlanks.rest = i.rest.dropWhile Input.isBlank := by
  have hgo : ∀ (cs : List Char) (i : Input), i.rest = cs →
      (Input.skipBlanks.go cs i).rest = cs.dropWhile Input.isBlank := by
    intro cs
    induction cs with
    | nil => exact fun i hi => hi
    | cons c cs ih =>
      intro i hi
      unfold Input.skipBlanks.go
      cases hc : Input.isBlank c with
      | true =>
        rw [if_pos rfl, List.dropWhile_cons_of_pos hc]
        exact ih _ (rest_pass i c cs)
      | false => simpa [hc] using hi
  exact hgo _ i rfl

/-- Where a number stands: behind a sign, or at its first digit. -/
inductive Numeral (i : Input) (n : JsonNumber) (i' : Input) : Prop
  | signed {rest : List Char} : i.skipBlanks.rest = '-' :: rest →
      readNumber true (i.skipBlanks.pass '-' rest) = .ok (n, i') → Numeral i n i'
  | plain {c : Char} {rest : List Char} : i.skipBlanks.rest = c :: rest → Text.isDigit c = true →
      readNumber false i.skipBlanks = .ok (n, i') → Numeral i n i'

theorem isDigit_distinct {c : Char} (hc : Text.isDigit c = true) :
    c ≠ 'n' ∧ c ≠ 't' ∧ c ≠ 'f' ∧ c ≠ '-' := by
  refine ⟨?_, ?_, ?_, ?_⟩ <;> rintro rfl <;> revert hc <;> decide

theorem map_eq_ok {α β : Type} {r : Except Failure α} {f : α → β} {b : β} :
    r.map f = .ok b ↔ ∃ a, r = .ok a ∧ f a = b := by
  cases r <;> simp [Except.map]

/-- A value is a number exactly if a numeral stands there. -/
theorem readValue_number {fuel depth : Nat} {i i' : Input} {n : JsonNumber} :
    readValue (fuel + 1) depth i = .ok (.number n, i') ↔ Numeral i n i' := by
  unfold readValue
  constructor
  · intro h
    cases hrest : i.skipBlanks.rest with
    | nil =>
      simp only [hrest] at h
      cases h
    | cons c rest =>
      simp only [hrest] at h
      split at h
      · simp [map_eq_ok] at h
      split at h
      · simp [map_eq_ok] at h
      split at h
      · simp [map_eq_ok] at h
      split at h
      · rename_i hc
        subst hc
        simp only [map_eq_ok, Prod.mk.injEq, Json.number.injEq, Prod.exists] at h
        obtain ⟨m, j, hread, rfl, rfl⟩ := h
        exact .signed hrest hread
      split at h
      · rename_i hc
        simp only [map_eq_ok, Prod.mk.injEq, Json.number.injEq, Prod.exists] at h
        obtain ⟨m, j, hread, rfl, rfl⟩ := h
        exact .plain hrest hc hread
      split at h
      · simp [map_eq_ok] at h
      split at h
      · split at h <;> simp [map_eq_ok] at h
      split at h
      · split at h <;> simp [map_eq_ok, Json.ofMembers] at h
      · cases h
  · intro h
    cases h with
    | signed hrest hread =>
      simp only [hrest, hread]
      rfl
    | plain hrest hc hread =>
      obtain ⟨hn, ht, hf, hminus⟩ := isDigit_distinct hc
      simp only [hrest, if_neg hn, if_neg ht, if_neg hf, if_neg hminus, hc, if_true, hread]
      rfl

/-- A numeral is the same with a tail behind the text. -/
theorem Numeral.append (ht : Closes tail) {i j i' : Input} {n : JsonNumber} (h : Numeral i n i')
    (hj : j.rest.dropWhile Input.isBlank = i.rest.dropWhile Input.isBlank ++ tail) :
    ∃ j', Numeral j n j' ∧ j'.rest = i'.rest ++ tail := by
  rw [← rest_skipBlanks, ← rest_skipBlanks] at hj
  cases h with
  | @signed rest hrest hread =>
    rw [hrest, List.cons_append] at hj
    obtain ⟨j', hread', hj'⟩ :=
      local_readNumber ht true _ (j.skipBlanks.pass '-' (rest ++ tail)) _ _ (by simp) hread
    exact ⟨j', .signed hj hread', hj'⟩
  | plain hrest hc hread =>
    obtain ⟨j', hread', hj'⟩ := local_readNumber ht false _ j.skipBlanks _ _ hj hread
    rw [hrest, List.cons_append] at hj
    exact ⟨j', .plain hj hc hread', hj'⟩

theorem dropWhile_closes (ht : Closes tail) : tail.dropWhile Input.isBlank = tail := by
  cases tail with
  | nil => rfl
  | cons c cs => simp [(ht.head rfl).2.1]

theorem dropWhile_blank_append {cs : List Char} (ht : Closes tail) :
    (cs ++ tail).dropWhile Input.isBlank = cs.dropWhile Input.isBlank ++ tail := by
  rw [List.dropWhile_append, dropWhile_closes ht]
  split
  · rename_i hempty
    rw [List.isEmpty_iff.mp hempty, List.nil_append]
  · rfl

/-- A number that survives is read wherever it stands. -/
theorem readValue_survives {n : JsonNumber} (hn : n.Survives) (ht : Closes tail) {i : Input}
    (hi : i.rest.dropWhile Input.isBlank =
      (Json.number n).compact.toList.dropWhile Input.isBlank ++ tail) (fuel depth : Nat) :
    ∃ i', readValue (fuel + 1) depth i = .ok (.number n, i') ∧
      i'.rest.dropWhile Input.isBlank = tail := by
  unfold JsonNumber.Survives parse parseWithin at hn
  dsimp only at hn
  split at hn
  · cases hn
  · rename_i j k hread
    split at hn
    · rename_i hempty
      cases hn
      obtain ⟨i', hnumeral, hi'⟩ := (readValue_number.mp hread).append ht hi
      refine ⟨i', readValue_number.mpr hnumeral, ?_⟩
      rw [rest_skipBlanks, List.isEmpty_iff] at hempty
      rw [hi', dropWhile_blank_append ht, hempty, List.nil_append]
    · cases hn

/-- The text of a number that survives starts with a sign or a digit. -/
theorem survives_head {n : JsonNumber} (hn : n.Survives) :
    ∃ c cs, (Json.number n).compact.toList.dropWhile Input.isBlank = c :: cs ∧ c ≠ ']' := by
  unfold JsonNumber.Survives parse parseWithin at hn
  dsimp only at hn
  split at hn
  · cases hn
  · rename_i j k hread
    split at hn
    · cases hn
      cases readValue_number.mp hread with
      | signed hrest =>
        rw [rest_skipBlanks] at hrest
        exact ⟨_, _, hrest, by decide⟩
      | plain hrest hc =>
        rw [rest_skipBlanks] at hrest
        refine ⟨_, _, hrest, ?_⟩
        rintro rfl
        exact absurd hc (by decide)
    · cases hn

/-! ## Natural numbers -/

theorem head_toDigits {n : Nat} (hn : 0 < n) : (Nat.toDigits 10 n).head? ≠ some '0' := by
  induction n using Nat.strongRecOn with
  | ind n ih =>
    by_cases hlt : n < 10
    · have hdigit : ∀ k < 10, 0 < k → [Nat.digitChar k].head? ≠ some '0' := by decide
      rw [Nat.toDigits_of_lt_base hlt]
      exact hdigit n hlt hn
    · have hle : 10 ≤ n := Nat.le_of_not_lt hlt
      rw [Nat.toDigits_of_base_le (by decide) hle, List.head?_append]
      have hrec := ih (n / 10) (by omega) (by omega)
      cases hd : (Nat.toDigits 10 (n / 10)).head? with
      | none => exact absurd (List.head?_eq_none_iff.mp hd) Nat.toDigits_ne_nil
      | some c =>
        rw [hd] at hrec
        exact hrec

theorem le_ofDigitChars (cs : List Char) (init : Nat) : init ≤ Nat.ofDigitChars 10 cs init := by
  induction cs generalizing init with
  | nil => simp
  | cons c cs ih =>
    rw [Nat.ofDigitChars_cons]
    exact Nat.le_trans (by omega) (ih _)

theorem fillSignificand_eq (cs : List Char) (init count : Nat)
    (h : Nat.ofDigitChars 10 cs init ≤ greatestSignificand) :
    fillSignificand cs init count = (Nat.ofDigitChars 10 cs init, count + cs.length, []) := by
  induction cs generalizing init count with
  | nil => simp [fillSignificand]
  | cons c cs ih =>
    rw [Nat.ofDigitChars_cons] at h ⊢
    have hle := Nat.le_trans (le_ofDigitChars cs _) h
    unfold fillSignificand
    dsimp only
    rw [if_neg (Nat.not_lt.mpr hle), ih _ _ h]
    rw [List.length_cons, Nat.add_assoc, Nat.add_comm 1]

theorem isDigit_of_mem_toDigits {n : Nat} {c : Char} (hc : c ∈ Nat.toDigits 10 n) :
    Text.isDigit c = true := by
  have hdigit := Nat.isDigit_of_mem_toDigits (by decide) (by decide) hc
  simpa [Text.isDigit, Char.isDigit, Char.le_def] using hdigit

/-- Digits that do not start with a zero are read as the number they stand for. -/
theorem readNumber_digits {d : Char} {ds : List Char}
    (hdigits : ∀ c ∈ d :: ds, Text.isDigit c = true) (hd : d ≠ '0')
    (hle : Nat.ofDigitChars 10 (d :: ds) 0 ≤ greatestSignificand) (line column : Nat) :
    readNumber false ⟨d :: ds, line, column⟩ =
      .ok (.integer (Nat.ofDigitChars 10 (d :: ds) 0), ⟨[], line, column + (d :: ds).length⟩) := by
  have htake : Input.takeDigits ⟨d :: ds, line, column⟩ =
      (d :: ds, ⟨[], line, column + (d :: ds).length⟩) := by
    have hall := @List.takeWhile_append_of_pos _ Text.isDigit (d :: ds) [] hdigits
    have hnone := @List.dropWhile_append_of_pos _ Text.isDigit (d :: ds) [] hdigits
    rw [List.append_nil] at hall hnone
    simp only [Input.takeDigits, List.span_eq_takeWhile_dropWhile, hall, hnone,
      List.takeWhile_nil, List.dropWhile_nil, List.append_nil]
  rw [readNumber_cons false rfl]
  simp only [if_neg hd, hdigits d List.mem_cons_self, if_true, htake, afterWhole_eq,
    fillSignificand_eq _ _ _ hle]
  rfl

/-- **A natural number of 64 bits is read as what it was written as.** -/
theorem survives_ofNat {n : Nat} (hn : n ≤ greatestSignificand) :
    (JsonNumber.integer n).Survives := by
  rcases Nat.eq_zero_or_pos n with rfl | hpos
  · rfl
  have htext : (Json.number (.integer n)).compact.toList = Nat.toDigits 10 n := Nat.toList_repr
  have hvalue : Nat.ofDigitChars 10 (Nat.toDigits 10 n) 0 = n :=
    Nat.ofDigitChars_toDigits (by decide) (by decide)
  have hhead := head_toDigits hpos
  have hdigits : ∀ c ∈ Nat.toDigits 10 n, Text.isDigit c = true := fun c => isDigit_of_mem_toDigits
  unfold JsonNumber.Survives parse parseWithin
  rw [htext]
  generalize Nat.toDigits 10 n = ds at hdigits hvalue hhead
  cases ds with
  | nil =>
    rw [← hvalue] at hpos
    cases hpos
  | cons d ds =>
    have hd : Text.isDigit d = true := hdigits d List.mem_cons_self
    have hzero : d ≠ '0' := fun h => hhead (congrArg some h)
    have hskip : Input.skipBlanks ⟨d :: ds, 1, 0⟩ = ⟨d :: ds, 1, 0⟩ := by
      have hblank : Input.isBlank d = false := by
        cases hb : Input.isBlank d with
        | false => rfl
        | true =>
          simp only [Input.isBlank, Bool.or_eq_true, decide_eq_true_eq] at hb
          rcases hb with ((rfl | rfl) | rfl) | rfl <;> exact absurd hd (by decide)
      simp [Input.skipBlanks, Input.skipBlanks.go, hblank]
    have hnumber := readNumber_digits hdigits hzero (hvalue.symm ▸ hn) 1 0
    rw [hvalue] at hnumber
    have hread : ∀ fuel, readValue (fuel + 1) depthLimit ⟨d :: ds, 1, 0⟩ = _ := fun fuel =>
      readValue_number.mpr (.plain (by rw [hskip]) hd (by rw [hskip]; exact hnumber))
    dsimp only
    rw [hread]
    rfl

end Json

end Fermata
