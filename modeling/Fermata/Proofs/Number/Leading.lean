import Fermata.Proofs.Grammar.Numeral
import Fermata.Proofs.Number.Double

/-!
# Numbers in front of a text

A numeric text is `Infinity` or a decimal, after at most one sign. The reader of numbers in front of a text
takes the longest numeric text that stands there: a numeral is read from a mantissa that goes on as far as it
can (`start_shape`, `start_mantissa`), and from an exponent if there is one, so every numeric text in front is
in front of what is read (`start_append`). What is read means the same when it stands alone (`start_some`,
`ofText_decimal`). Only signs before `Infinity` are dropped without being counted.

* `Number.Numeric`, `Number.Longest`: numeric texts, and the longest of them in front of a text.
* `Number.floatStart_longest`: what is read in front of a text.
-/

namespace Fermata

open Text (isDigit)

theorem span_runs {P : Char → Bool} {run rest : List Char} (hrun : ∀ c ∈ run, P c = true) :
    (run ++ rest).span P = (run ++ rest.takeWhile P, rest.dropWhile P) := by
  rw [List.span_eq_takeWhile_dropWhile, List.takeWhile_append_of_pos hrun,
    List.dropWhile_append_of_pos hrun]

namespace Number

/-- Nothing, or a sign. -/
def Sign (s : List Char) : Prop := s = [] ∨ s = ['+'] ∨ s = ['-']

/-- Digits, any number of them. -/
def Digits (ds : List Char) : Prop := ∀ c ∈ ds, isDigit c = true

/-- A decimal without its sign and exponent: digits, or digits around a point. -/
inductive Mantissa : List Char → List Char → List Char → Prop
  | whole {ds : List Char} (hds : Digits ds) (hne : ds ≠ []) : Mantissa ds ds []
  | point {ds fs : List Char} (hds : Digits ds) (hfs : Digits fs) (hne : ¬(ds = [] ∧ fs = [])) :
    Mantissa (ds ++ '.' :: fs) ds fs

/-- A text that writes a number: after at most one sign `Infinity`, or digits with an optional point
among them and possibly an exponent. -/
inductive Numeric : List Char → Prop
  | infinity {s : List Char} (hs : Sign s) : Numeric (s ++ "Infinity".toList)
  | decimal {s m ds fs e : List Char} (hs : Sign s) (hm : Mantissa m ds fs) (he : Lexeme.Exponent e) :
    Numeric (s ++ (m ++ e))

/-- What follows a mantissa and does not continue it. -/
def Stops (m r : List Char) : Prop :=
  ∀ c cs, r = c :: cs → isDigit c = false ∧ ('.' ∉ m → c ≠ '.')

/-- The numeral of a mantissa, with the exponent that follows it if there is one. -/
def behind (negative : Bool) (ds fs r : List Char) : Numeral :=
  match takeExponent? r with
  | some (k, rest) => ⟨negative, ds, fs, k, rest⟩
  | none => ⟨negative, ds, fs, 0, r⟩

/-! ## Signs, mantissas and exponents -/

theorem takeSign_append {s t : List Char} (hs : Sign s)
    (ht : s = [] → ∀ c cs, t = c :: cs → c ≠ '+' ∧ c ≠ '-') :
    takeSign (s ++ t) = (decide (s = ['-']), t) := by
  rcases hs with rfl | rfl | rfl
  · exact takeSign_digits (ht rfl)
  · rfl
  · rfl

theorem takeSign_eq (t : List Char) : ∃ s u, Sign s ∧ t = s ++ u ∧
    takeSign t = (decide (s = ['-']), u) ∧ (s = [] → ∀ c cs, u = c :: cs → c ≠ '+' ∧ c ≠ '-') := by
  unfold takeSign
  split
  next u => exact ⟨['-'], u, .inr (.inr rfl), rfl, rfl, nofun⟩
  next u => exact ⟨['+'], u, .inr (.inl rfl), rfl, rfl, nofun⟩
  next hminus hplus =>
    refine ⟨[], t, .inl rfl, rfl, rfl, ?_⟩
    rintro - c cs rfl
    exact ⟨fun h => hplus cs (h ▸ rfl), fun h => hminus cs (h ▸ rfl)⟩

theorem ne_sign_of_isDigit {c : Char} (h : isDigit c = true) : c ≠ '+' ∧ c ≠ '-' := by
  constructor <;> rintro rfl <;> revert h <;> decide

theorem Mantissa.head {m ds fs r : List Char} (hm : Mantissa m ds fs) :
    ∀ c cs, m ++ r = c :: cs → c ≠ '+' ∧ c ≠ '-' := by
  intro c cs h
  cases hm with
  | whole hds hne =>
    obtain ⟨d, ds, rfl⟩ := List.exists_cons_of_ne_nil hne
    cases h
    exact ne_sign_of_isDigit (hds _ List.mem_cons_self)
  | point hds hfs hne =>
    cases ds with
    | nil =>
      cases h
      decide
    | cons d ds =>
      cases h
      exact ne_sign_of_isDigit (hds _ List.mem_cons_self)

/-- A numeral is taken apart at its mantissa. -/
theorem start_mantissa {s m ds fs r : List Char} (hs : Sign s) (hm : Mantissa m ds fs)
    (hr : Stops m r) :
    Numeral.start? (s ++ (m ++ r)) = some (behind (decide (s = ['-'])) ds fs r) := by
  unfold Numeral.start? behind
  rw [takeSign_append hs fun _ => hm.head]
  cases hm with
  | whole hds hne =>
    have hspan : (m ++ r).span isDigit = (m, r) := span_run hds fun c cs h => (hr c cs h).1
    have hnil : m.isEmpty = false := by simpa [List.isEmpty_iff] using hne
    have hpoint : ∀ cs, r ≠ '.' :: cs := fun cs h => (hr _ _ h).2
      (fun hmem => absurd (hds _ hmem) (by decide)) rfl
    simp only [hspan, hnil, Bool.false_and]
    cases takeExponent? r <;> rfl
  | point hds hfs hne =>
    have hspan : (ds ++ '.' :: fs ++ r).span isDigit = (ds, '.' :: (fs ++ r)) := by
      rw [List.append_assoc]
      refine span_run hds fun c cs h => ?_
      cases h
      decide
    have htail : (fs ++ r).span isDigit = (fs, r) := span_run hfs fun c cs h => (hr c cs h).1
    have hnil : (ds.isEmpty && fs.isEmpty) = false := by simpa [List.isEmpty_iff] using hne
    simp only [hspan, htail, hnil]
    cases takeExponent? r <;> rfl

/-- An exponent takes all digits that follow. -/
theorem takeExponent_run {c : Char} {s ds : List Char} (hc : c = 'e' ∨ c = 'E') (hs : Sign s)
    (hds : Digits ds) (hne : ds ≠ []) (r : List Char) :
    takeExponent? (c :: (s ++ (ds ++ r))) =
      some (if s = ['-'] then -(Text.decimalValue (ds ++ r.takeWhile isDigit) : Int)
        else Text.decimalValue (ds ++ r.takeWhile isDigit), r.dropWhile isDigit) := by
  have hsign : takeSign (s ++ (ds ++ r)) = (decide (s = ['-']), ds ++ r) := by
    refine takeSign_append hs fun _ c cs h => ?_
    obtain ⟨d, ds, rfl⟩ := List.exists_cons_of_ne_nil hne
    cases h
    exact ne_sign_of_isDigit (hds _ List.mem_cons_self)
  simp only [takeExponent?, hc, if_true, hsign, span_runs hds, decide_eq_true_eq]
  split
  next heq => exact absurd (List.append_eq_nil_iff.mp (congrArg Prod.fst heq)).1 hne
  next heq =>
    cases heq
    rfl

/-- The exponent that is read means the same when nothing follows. -/
theorem takeExponent_some {r rest : List Char} {k : Int} (h : takeExponent? r = some (k, rest)) :
    ∃ e, Lexeme.Exponent e ∧ r = e ++ rest ∧ takeExponent? e = some (k, []) := by
  unfold takeExponent? at h
  split at h
  next c cs =>
    split at h
    next hc =>
      obtain ⟨s, u, hs, rfl, htake, -⟩ := takeSign_eq cs
      simp only [htake] at h
      split at h
      · cases h
      next ds rest' hne hspan =>
        have hds : Digits ds := span_mem hspan
        have hne : ds ≠ [] := fun h => hne h
        have hu : u = ds ++ rest' := by
          rw [List.span_eq_takeWhile_dropWhile] at hspan
          cases hspan
          exact List.takeWhile_append_dropWhile.symm
        refine ⟨c :: (s ++ ds), .some hc hs hne hds, ?_, ?_⟩
        · cases h
          rw [hu, List.cons_append, List.append_assoc]
        · have hrun := takeExponent_run hc hs hds hne []
          simp only [List.append_nil, List.takeWhile_nil, List.dropWhile_nil] at hrun
          simp only [decide_eq_true_eq] at h
          cases h
          exact hrun
    · cases h
  · cases h

/-- Where an exponent stands in front, one is read that goes on at least as far. -/
theorem takeExponent_append {e : List Char} (he : Lexeme.Exponent e) (hne : e ≠ []) (y : List Char) :
    ∃ k rest, takeExponent? (e ++ y) = some (k, rest) ∧ rest <:+ y := by
  cases he with
  | none => exact absurd rfl hne
  | @some c s ds hc hs hnil hds =>
    rw [List.cons_append, List.append_assoc, takeExponent_run hc hs hds hnil y]
    exact ⟨_, _, rfl, List.dropWhile_suffix isDigit⟩

/-! ## The characters of a decimal -/

/-- A character of a decimal. -/
def Plain (c : Char) : Prop := isDigit c = true ∨ c ∈ ['+', '-', '.', 'e', 'E']

instance (c : Char) : Decidable (Plain c) := inferInstanceAs (Decidable (_ ∨ _))

theorem Sign.plain {s : List Char} (hs : Sign s) : ∀ c ∈ s, Plain c := by
  rcases hs with rfl | rfl | rfl <;> intro c hc <;> simp_all [Plain]

theorem Mantissa.plain {m ds fs : List Char} (hm : Mantissa m ds fs) : ∀ c ∈ m, Plain c := by
  cases hm with
  | whole hds => exact fun c hc => .inl (hds c hc)
  | point hds hfs =>
    intro c hc
    rcases List.mem_append.mp hc with hc | hc
    · exact .inl (hds c hc)
    · rcases List.mem_cons.mp hc with rfl | hc
      · exact .inr (by decide)
      · exact .inl (hfs c hc)

theorem exponent_plain {e : List Char} (he : Lexeme.Exponent e) : ∀ c ∈ e, Plain c := by
  cases he with
  | none => exact fun c hc => nomatch hc
  | some he hs _ hds =>
    intro c hc
    rcases List.mem_cons.mp hc with rfl | hc
    · exact .inr (by rcases he with rfl | rfl <;> decide)
    · exact (List.mem_append.mp hc).elim (Sign.plain hs c) fun hc => .inl (hds c hc)

theorem Plain.isBlank {c : Char} (hc : Plain c) : Text.isBlank c = false := by
  rcases hc with hc | hc
  · unfold isDigit at hc
    simp only [Bool.and_eq_true, decide_eq_true_eq, Char.le_def, UInt32.le_iff_toNat_le] at hc
    have hlow : 48 ≤ c.toNat := hc.1
    have hhigh : c.toNat ≤ 57 := hc.2
    unfold Text.isBlank
    simp
    omega
  · simp only [List.mem_cons, List.not_mem_nil, or_false] at hc
    rcases hc with rfl | rfl | rfl | rfl | rfl <;> decide

theorem dropWhile_none {P : Char → Bool} {t : List Char} (h : ∀ c ∈ t, P c = false) :
    t.dropWhile P = t := by
  cases t with
  | nil => rfl
  | cons c cs => rw [List.dropWhile_cons_of_neg (by rw [h c List.mem_cons_self]; decide)]

theorem trim_eq {t : List Char} (h : ∀ c ∈ t, Text.isBlank c = false) : Text.trim t = t := by
  unfold Text.trim Text.trimStart
  rw [dropWhile_none h, dropWhile_none fun c hc => h c (List.mem_reverse.mp hc), List.reverse_reverse]

theorem takeBase_plain {t : List Char} (h : ∀ c ∈ t, Plain c) : takeBase? t = none := by
  unfold takeBase?
  split
  next c rest =>
    have hc : Plain c := h c (by simp)
    rw [if_neg, if_neg, if_neg]
    all_goals
      rintro (rfl | rfl) <;> revert hc <;> decide
  · rfl

/-! ## What is read -/

theorem behind_consumed (negative : Bool) (ds fs r : List Char) : ∃ e, Lexeme.Exponent e ∧
    r = e ++ (behind negative ds fs r).rest ∧
    behind negative ds fs e = { behind negative ds fs r with rest := [] } := by
  unfold behind
  cases h : takeExponent? r with
  | none => exact ⟨[], .none, rfl, rfl⟩
  | some kr =>
    obtain ⟨k, rest⟩ := kr
    obtain ⟨e, he, hr, hwhole⟩ := takeExponent_some h
    exact ⟨e, he, hr, by rw [hwhole]⟩

theorem span_parts (P : Char → Bool) (u : List Char) : ∃ run rest, u = run ++ rest ∧
    u.span P = (run, rest) ∧ (∀ c ∈ run, P c = true) ∧ ∀ c cs, rest = c :: cs → P c = false := by
  refine ⟨u.takeWhile P, u.dropWhile P, List.takeWhile_append_dropWhile.symm,
    List.span_eq_takeWhile_dropWhile .., fun c hc => List.all_eq_true.mp List.all_takeWhile c hc,
    fun c cs h => ?_⟩
  have := List.head?_dropWhile_not P u
  rw [h] at this
  simpa using this

theorem digits_append {ds fs : List Char} (hds : Digits ds) (hfs : Digits fs) : Digits (ds ++ fs) :=
  fun c hc => (List.mem_append.mp hc).elim (hds c) (hfs c)

/-- A mantissa goes on as far as it can. -/
theorem Mantissa.extend {m ds fs : List Char} (hm : Mantissa m ds fs) (y : List Char) :
    ∃ m' ds' fs' r, Mantissa m' ds' fs' ∧ Stops m' r ∧ m ++ y = m' ++ r ∧ r <:+ y := by
  obtain ⟨run, r, rfl, -, hrun, hr⟩ := span_parts isDigit y
  cases hm with
  | whole hds hne =>
    have hdigits := digits_append hds hrun
    have hne' : ¬(m ++ run = [] ∧ ([] : List Char) = []) := fun h =>
      hne (List.append_eq_nil_iff.mp h.1).1
    by_cases hpoint : ∃ cs, r = '.' :: cs
    · obtain ⟨cs, rfl⟩ := hpoint
      obtain ⟨fs, r, rfl, -, hfs, hr⟩ := span_parts isDigit cs
      refine ⟨_, _, _, r, .point hdigits hfs fun h => hne' ⟨h.1, rfl⟩, ?_, ?_, ?_⟩
      · exact fun c cs h => ⟨hr c cs h, fun hmem => absurd (by simp) hmem⟩
      · simp only [List.append_assoc, List.cons_append]
      · exact ⟨run ++ '.' :: fs, by simp only [List.append_assoc, List.cons_append]⟩
    · refine ⟨_, _, _, r, .whole hdigits fun h => hne' ⟨h, rfl⟩, ?_, ?_, List.suffix_append run r⟩
      · exact fun c cs h => ⟨hr c cs h, fun _ hc => hpoint ⟨cs, hc ▸ h⟩⟩
      · rw [List.append_assoc]
  | @point ds _ hds hfs hne =>
    refine ⟨_, _, _, r, .point hds (digits_append hfs hrun) fun h => hne
      ⟨h.1, (List.append_eq_nil_iff.mp h.2).1⟩, ?_, ?_, List.suffix_append run r⟩
    · exact fun c cs h => ⟨hr c cs h, fun hmem => absurd (by simp) hmem⟩
    · simp only [List.append_assoc, List.cons_append]

/-- What a numeral is read from: a sign, and a mantissa that goes on as far as it can. -/
theorem start_shape {t : List Char} (h : Numeral.start? t ≠ none) : ∃ s m ds fs r,
    Sign s ∧ Mantissa m ds fs ∧ Stops m r ∧ t = s ++ (m ++ r) := by
  obtain ⟨s, u, hs, rfl, htake, -⟩ := takeSign_eq t
  obtain ⟨ds, r, rfl, hspan, hds, hr⟩ := span_parts isDigit u
  by_cases hne : ds = []
  · subst hne
    unfold Numeral.start? at h
    simp only [htake, hspan] at h
    split at h
    next cs =>
      obtain ⟨fs, r, rfl, hspan, hfs, hr⟩ := span_parts isDigit cs
      have hne : fs ≠ [] := by
        rintro rfl
        simp only [hspan] at h
        exact h rfl
      refine ⟨s, '.' :: fs, [], fs, r, hs, @Mantissa.point [] fs (fun _ h => nomatch h) hfs
        fun h => hne h.2, ?_, rfl⟩
      · exact fun c cs h => ⟨hr c cs h, fun hmem => absurd List.mem_cons_self hmem⟩
    next => exact absurd rfl h
  · obtain ⟨m, ds', fs, r', hm, hstop, heq, -⟩ := (Mantissa.whole hds hne).extend r
    exact ⟨s, m, ds', fs, r', hs, hm, hstop, by rw [heq]⟩

/-- What is read is a numeric text, and is read the same way if nothing follows it. -/
theorem start_some {t : List Char} {n : Numeral} (h : Numeral.start? t = some n) :
    ∃ p, t = p ++ n.rest ∧ Numeric p ∧ (∀ c ∈ p, Plain c) ∧
      Numeral.start? p = some { n with rest := [] } := by
  obtain ⟨s, m, ds, fs, r, hs, hm, hr, rfl⟩ := start_shape (t := t) (by rw [h]; nofun)
  rw [start_mantissa hs hm hr] at h
  obtain ⟨e, he, hrest, hwhole⟩ := behind_consumed (decide (s = ['-'])) ds fs r
  cases h
  refine ⟨s ++ (m ++ e), ?_, .decimal hs hm he, ?_, ?_⟩
  · rw [List.append_assoc, List.append_assoc, ← hrest]
  · simp only [List.mem_append]
    rintro c (hc | hc | hc)
    · exact hs.plain c hc
    · exact hm.plain c hc
    · exact exponent_plain he c hc
  · rw [start_mantissa hs hm fun c cs h => ⟨(exponent_head he h).1, fun _ => (exponent_head he h).2⟩,
      hwhole]

/-- Where a decimal stands in front, one is read that goes on at least as far. -/
theorem start_append {s m ds fs e : List Char} (hs : Sign s) (hm : Mantissa m ds fs)
    (he : Lexeme.Exponent e) (y : List Char) :
    ∃ n, Numeral.start? (s ++ (m ++ e) ++ y) = some n ∧ n.rest <:+ y := by
  rw [List.append_assoc, List.append_assoc]
  by_cases hne : e = []
  · subst hne
    obtain ⟨m', ds', fs', r, hm', hr, heq, hsuffix⟩ := hm.extend y
    rw [List.nil_append, heq, start_mantissa hs hm' hr]
    obtain ⟨e, -, hrest, -⟩ := behind_consumed (decide (s = ['-'])) ds' fs' r
    exact ⟨_, rfl, .trans ⟨e, hrest.symm⟩ hsuffix⟩
  · obtain ⟨k, rest, htake, hsuffix⟩ := takeExponent_append he hne y
    rw [start_mantissa hs hm]
    · refine ⟨_, rfl, ?_⟩
      unfold behind
      rwa [htake]
    · obtain ⟨c, cs, rfl⟩ := List.exists_cons_of_ne_nil hne
      rintro c cs ⟨⟩
      exact ⟨(exponent_head he rfl).1, fun _ => (exponent_head he rfl).2⟩

/-! ## A numeric text by itself -/

theorem isNaN_value (n : Numeral) : n.value.isNaN = false := isNaN_ofDecimal ..

/-- A decimal by itself stands for what is read from it. -/
theorem ofText_decimal {t : List Char} {n : Numeral} (ht : ∀ c ∈ t, Plain c)
    (h : Numeral.start? t = some { n with rest := [] }) : ofText (String.ofList t) = n.value := by
  have hne : t ≠ [] := by
    rintro rfl
    cases h
  have hletter : 'I' ∉ t := fun hmem => absurd (ht 'I' hmem) (by decide)
  unfold ofText
  rw [String.toList_ofList, trim_eq fun c hc => (ht c hc).isBlank]
  dsimp only
  rw [if_neg (by simpa [List.isEmpty_iff] using hne), if_neg, if_neg, takeBase_plain ht]
  · simp only [decimal?, h]
    rfl
  · rintro rfl
    exact hletter (by decide)
  · rintro (rfl | rfl)
    · exact hletter (by decide)
    · exact hletter (by decide)

theorem ofText_infinity {s : List Char} (hs : Sign s) :
    ofText (String.ofList (s ++ "Infinity".toList)) = infinity (decide (s = ['-'])) := by
  have hletters : ("Infinity".toList.all fun c => !Text.isBlank c) = true := rfl
  have hblank : ∀ c ∈ s ++ "Infinity".toList, Text.isBlank c = false :=
    List.forall_mem_append.mpr ⟨fun c hc => (Sign.plain hs c hc).isBlank,
      fun c hc => Bool.not_eq_true' _ ▸ List.all_eq_true.mp hletters c hc⟩
  unfold ofText
  rw [String.toList_ofList, trim_eq hblank]
  rcases hs with rfl | rfl | rfl <;> rfl

/-! ## The longest number in front of a text -/

/-- The longest numeric text in front of a text. -/
def Longest (t p : List Char) : Prop :=
  (Numeric p ∧ p <+: t) ∧ ∀ q, Numeric q → q <+: t → q <+: p

/-- A sign. -/
def isSign (c : Char) : Bool := c = '+' ∨ c = '-'

/-- Two signs or more, and then `Infinity`. -/
def Oversigned (t : List Char) : Prop :=
  ∃ signs r, t = signs ++ ("Infinity".toList ++ r) ∧ 2 ≤ signs.length ∧ ∀ c ∈ signs, isSign c = true

/-- The signs in front of `Infinity`. -/
theorem signs_infinity {signs r : List Char} (h : ∀ c ∈ signs, isSign c = true) :
    (signs ++ ("Infinity".toList ++ r)).span isSign = (signs, "Infinity".toList ++ r) := by
  refine span_run h ?_
  rintro c cs ⟨⟩
  decide

theorem Sign.all {s : List Char} (hs : Sign s) : ∀ c ∈ s, isSign c = true := by
  rcases hs with rfl | rfl | rfl <;> simp [isSign]

theorem sign_iff_length {s : List Char} (hs : ∀ c ∈ s, isSign c = true) :
    Sign s ↔ s.length < 2 := by
  constructor
  · rintro (rfl | rfl | rfl) <;> decide
  · intro hlength
    match s with
    | [] => exact .inl rfl
    | [c] =>
      have hc : c = '+' ∨ c = '-' := of_decide_eq_true (hs c List.mem_cons_self)
      exact .inr (hc.imp (congrArg (· :: [])) (congrArg (· :: [])))
    | _ :: _ :: _ => exact absurd hlength (by simp)

/-- A numeric text in front is one of the words for infinity, or a decimal is read there and it goes on
at least as far. -/
theorem Numeric.read {q t : List Char} (hq : Numeric q) (hfront : q <+: t) :
    (∃ s r, Sign s ∧ q = s ++ "Infinity".toList ∧ t = s ++ ("Infinity".toList ++ r)) ∨
      ∃ n y, t = q ++ y ∧ Numeral.start? t = some n ∧ n.rest <:+ y := by
  obtain ⟨y, rfl⟩ := hfront
  cases hq with
  | @infinity s hs => exact .inl ⟨s, y, hs, rfl, List.append_assoc ..⟩
  | decimal hs hm he =>
    obtain ⟨n, hn, hrest⟩ := start_append hs hm he y
    exact .inr ⟨n, y, rfl, hn, hrest⟩

theorem floatStart_infinity {text : String} {signs r : List Char}
    (hsigns : ∀ c ∈ signs, isSign c = true)
    (ht : Text.trimStart text.toList = signs ++ ("Infinity".toList ++ r)) :
    floatStart text = infinity (decide (signs.head? = some '-')) := by
  have hspan := signs_infinity (r := r) hsigns
  rw [List.span_eq_takeWhile_dropWhile] at hspan
  have hrest : (signs ++ ("Infinity".toList ++ r)).dropWhile (fun c => c = '+' ∨ c = '-') =
      "Infinity".toList ++ r := congrArg Prod.snd hspan
  unfold floatStart
  rw [ht]
  dsimp only
  rw [hrest, if_pos (List.isPrefixOf_iff_prefix.mpr ⟨r, rfl⟩)]
  cases signs <;> rfl

theorem floatStart_numeral {text : String}
    (h : ∀ signs r, (∀ c ∈ signs, isSign c = true) →
      Text.trimStart text.toList ≠ signs ++ ("Infinity".toList ++ r)) :
    floatStart text = match Numeral.start? (Text.trimStart text.toList) with
      | some n => n.value
      | none => nan := by
  have hfront : ¬"Infinity".toList.isPrefixOf ((Text.trimStart text.toList).dropWhile isSign) = true := by
    intro hfront
    obtain ⟨r, hr⟩ := List.isPrefixOf_iff_prefix.mp hfront
    refine h ((Text.trimStart text.toList).takeWhile isSign) r
      (fun c hc => List.all_eq_true.mp List.all_takeWhile c hc) ?_
    rw [hr]
    exact List.takeWhile_append_dropWhile.symm
  exact (if_neg hfront).trans rfl

/-- No decimal is read where signs stand before `Infinity`. -/
theorem start_infinity {signs r : List Char} (h : ∀ c ∈ signs, isSign c = true) :
    Numeral.start? (signs ++ ("Infinity".toList ++ r)) = none := by
  have hsign {c : Char} (hc : isSign c = true) : c = '+' ∨ c = '-' := of_decide_eq_true hc
  match signs with
  | [] => rfl
  | [c] => rcases hsign (h c (by simp)) with rfl | rfl <;> rfl
  | c :: d :: signs =>
    rcases hsign (h c (by simp)) with rfl | rfl <;> rcases hsign (h d (by simp)) with rfl | rfl <;> rfl

/-- A numeric text in front of signs and `Infinity` takes all the signs. -/
theorem Numeric.eq_infinity {q signs r : List Char} (hq : Numeric q)
    (hsigns : ∀ c ∈ signs, isSign c = true) (hfront : q <+: signs ++ ("Infinity".toList ++ r)) :
    Sign signs ∧ q = signs ++ "Infinity".toList := by
  rcases hq.read hfront with ⟨s, r', hs, rfl, ht⟩ | ⟨n, -, -, hn, -⟩
  · have hspan := signs_infinity (r := r') hs.all
    rw [← ht, signs_infinity hsigns] at hspan
    cases hspan
    exact ⟨hs, rfl⟩
  · rw [start_infinity hsigns] at hn
    cases hn

/-- A number is the one that the longest numeric text in front stands for; where none stands in front, it is
no number. -/
def ReadsLongest (t : List Char) (x : Float) : Prop :=
  (∃ p, Longest t p ∧ x = ofText (String.ofList p) ∧ x.isNaN = false) ∨
    (∀ p, p <+: t → ¬Numeric p) ∧ x.isNaN = true

theorem floatStart_oversigned {text : String} (h : Oversigned (Text.trimStart text.toList)) :
    floatStart text = infinity (decide ((Text.trimStart text.toList).head? = some '-')) ∧
      ∀ p, p <+: Text.trimStart text.toList → ¬Numeric p := by
  obtain ⟨signs, r, ht, hlength, hsigns⟩ := h
  refine ⟨?_, fun p hfront hp => ?_⟩
  · obtain ⟨c, cs, rfl⟩ := List.exists_cons_of_length_pos (Nat.lt_of_lt_of_le Nat.two_pos hlength)
    rw [floatStart_infinity hsigns ht, ht]
    rfl
  · rw [ht] at hfront
    have hlt := (sign_iff_length hsigns).mp (hp.eq_infinity hsigns hfront).1
    omega

theorem floatStart_signed {text : String} {signs r : List Char} (hsign : Sign signs)
    (ht : Text.trimStart text.toList = signs ++ ("Infinity".toList ++ r)) :
    ReadsLongest (Text.trimStart text.toList) (floatStart text) := by
  have hvalue := floatStart_infinity hsign.all ht
  rw [ht]
  refine .inl ⟨signs ++ "Infinity".toList, ⟨⟨.infinity hsign, r, List.append_assoc ..⟩, ?_⟩, ?_, ?_⟩
  · intro q hq hfront
    exact (hq.eq_infinity hsign.all hfront).2 ▸ List.prefix_rfl
  · rw [hvalue, ofText_infinity hsign]
    rcases hsign with rfl | rfl | rfl <;> rfl
  · rw [hvalue, isNaN_infinity]

theorem floatStart_decimal {text : String}
    (h : ∀ signs r, (∀ c ∈ signs, isSign c = true) →
      Text.trimStart text.toList ≠ signs ++ ("Infinity".toList ++ r)) :
    ReadsLongest (Text.trimStart text.toList) (floatStart text) := by
  have hvalue := floatStart_numeral h
  generalize Text.trimStart text.toList = t at *
  have hread {q : List Char} (hq : Numeric q) (hfront : q <+: t) :
      ∃ n y, t = q ++ y ∧ Numeral.start? t = some n ∧ n.rest <:+ y :=
    (hq.read hfront).resolve_left fun ⟨s, r, hs, _, ht⟩ => h s r hs.all ht
  cases hstart : Numeral.start? t with
  | some n =>
    rw [hstart] at hvalue
    obtain ⟨p, ht, hp, hplain, hwhole⟩ := start_some hstart
    refine .inl ⟨p, ⟨⟨hp, n.rest, ht.symm⟩, fun q hq hfront => ?_⟩, ?_, ?_⟩
    · obtain ⟨n', y, hy, hn', hrest⟩ := hread hq hfront
      obtain rfl : n = n' := Option.some.inj (hstart.symm.trans hn')
      refine List.prefix_of_prefix_length_le hfront ⟨_, ht.symm⟩ ?_
      have hlength := hrest.length_le
      have hsame : (q ++ y).length = (p ++ n.rest).length := by rw [← hy, ← ht]
      rw [List.length_append, List.length_append] at hsame
      omega
    · rw [hvalue, ofText_decimal hplain hwhole]
    · rw [hvalue, isNaN_value]
  | none =>
    rw [hstart] at hvalue
    refine .inr ⟨fun q hfront hq => ?_, hvalue ▸ isNaN_nan⟩
    obtain ⟨n, y, -, hn, -⟩ := hread hq hfront
    rw [hstart] at hn
    cases hn

/-- **The longest number in front of a text is read, if any, and signs before `Infinity` do not count.**
Unless two signs or more stand before `Infinity`, the result is a number exactly if a numeric text stands in
front, and then it is what the longest such text stands for. With more signs no numeric text stands in front,
and infinity is read all the same, its sign being the first of them. -/
theorem floatStart_longest (text : String) :
    let t := Text.trimStart text.toList
    (¬Oversigned t → ReadsLongest t (floatStart text)) ∧
      (Oversigned t → floatStart text = infinity (decide (t.head? = some '-')) ∧
        ∀ p, p <+: t → ¬Numeric p) := by
  refine ⟨fun hover => ?_, floatStart_oversigned⟩
  by_cases hinf : ∃ signs r, (∀ c ∈ signs, isSign c = true) ∧
      Text.trimStart text.toList = signs ++ ("Infinity".toList ++ r)
  · obtain ⟨signs, r, hsigns, ht⟩ := hinf
    refine floatStart_signed ((sign_iff_length hsigns).mpr ?_) ht
    exact Nat.lt_of_not_le fun hlength => hover ⟨signs, r, ht, hlength, hsigns⟩
  · exact floatStart_decimal fun signs r hsigns ht => hinf ⟨signs, r, hsigns, ht⟩

end Number

end Fermata
