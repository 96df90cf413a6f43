import Fermata.Proofs.Grammar.Place
import Fermata.Syntax.Literal

/-!
# Values of number tokens

The lexeme of a number and the reader of its value are written apart. Both take a decimal the same way, so
every decimal token has a value, however many digits it has; a hexadecimal one has a value if it fits 64
bits.

* `Lexeme.decimal_form`: what a decimal token is made of.
* `Number.start_decimal`: it is read to its end.
* `Literal.number_none`: which number tokens have no value.
-/

namespace Fermata

/-! ## Number tokens -/

/-- A run of characters is cut off where it ends. -/
theorem span_run {P : Char → Bool} {run rest : List Char} (hrun : ∀ c ∈ run, P c = true)
    (hrest : ∀ c cs, rest = c :: cs → P c = false) : (run ++ rest).span P = (run, rest) := by
  rw [List.span_eq_takeWhile_dropWhile, List.takeWhile_append_of_pos hrun,
    List.dropWhile_append_of_pos hrun]
  cases rest with
  | nil => simp
  | cons c cs => simp [hrest c cs rfl]

theorem span_mem {P : Char → Bool} {text run rest : List Char} (h : text.span P = (run, rest)) :
    ∀ c ∈ run, P c = true := by
  rw [List.span_eq_takeWhile_dropWhile] at h
  cases h
  exact fun c hc => List.all_eq_true.mp List.all_takeWhile c hc

namespace Lexeme

open Text (isDigit)

/-- Nothing, or an exponent with its digits. -/
inductive Exponent : List Char → Prop
  | none : Exponent []
  | some {e : Char} {sign ds : List Char} (he : e = 'e' ∨ e = 'E')
      (hsign : sign = [] ∨ sign = ['+'] ∨ sign = ['-']) (hne : ds ≠ [])
      (hds : ∀ c ∈ ds, isDigit c = true) : Exponent (e :: (sign ++ ds))

theorem exponentPart_exponent (taken text : List Char) :
    ∃ t, (exponentPart taken text).1 = taken ++ t ∧ Exponent t := by
  have hnone : ∃ t, taken = taken ++ t ∧ Exponent t := ⟨[], (List.append_nil _).symm, .none⟩
  unfold exponentPart
  split
  next e cs =>
    split
    next he =>
      split
      next sign digits hsign =>
        have hform : sign = [] ∨ sign = ['+'] ∨ sign = ['-'] := by
          split at hsign <;> cases hsign <;> simp
        split
        · exact hnone
        next ds rest hne hspan =>
          exact ⟨_, rfl, .some he hform (fun h => hne h) (span_mem hspan)⟩
    · exact hnone
  next => exact hnone

/-- What a decimal token is made of: digits with an optional point, and an exponent. -/
theorem decimal_form {text w rest : List Char} (h : decimal text = some (w, rest)) :
    ∃ whole fraction t, (∀ c ∈ whole, isDigit c = true) ∧ (∀ c ∈ fraction, isDigit c = true) ∧
      Exponent t ∧ (w = whole ++ '.' :: fraction ++ t ∧ ¬(whole = [] ∧ fraction = []) ∨
        w = whole ++ t ∧ whole ≠ [] ∧ fraction = []) := by
  unfold decimal at h
  split at h
  next cs hwhole =>
    split at h
    · cases h
    next ds after hne hspan =>
      obtain ⟨t, ht, hexp⟩ := exponentPart_exponent ('.' :: ds) after
      rw [Option.some.inj h] at ht
      exact ⟨[], ds, t, nofun, span_mem hspan, hexp, .inl ⟨ht, fun hnil => hne hnil.2⟩⟩
  next => cases h
  next whole cs hne hwhole =>
    generalize hspan : cs.span isDigit = r at h
    obtain ⟨ds, after⟩ := r
    obtain ⟨t, ht, hexp⟩ := exponentPart_exponent (whole ++ '.' :: ds) after
    rw [Option.some.inj h] at ht
    exact ⟨whole, ds, t, span_mem hwhole, span_mem hspan, hexp, .inl ⟨ht, fun hnil => hne hnil.1⟩⟩
  next whole after _ hne _ hwhole =>
    obtain ⟨t, ht, hexp⟩ := exponentPart_exponent whole after
    rw [Option.some.inj h] at ht
    exact ⟨whole, [], t, span_mem hwhole, nofun, hexp, .inr ⟨ht, hne, rfl⟩⟩

end Lexeme

namespace Number

open Text (isDigit)

/-- An exponent is read to its end. -/
theorem takeExponent_exponent {t : List Char} (ht : Lexeme.Exponent t) :
    takeExponent? t = none ∧ t = [] ∨ ∃ n, takeExponent? t = some (n, []) := by
  cases ht with
  | none => exact .inl ⟨rfl, rfl⟩
  | @some e sign ds he hsign hne hds =>
    have hspan : ds.span isDigit = (ds, []) := by
      simpa using span_run hds (nofun : ∀ c cs, ([] : List Char) = c :: cs → isDigit c = false)
    have htaken : takeSign (sign ++ ds) = (decide (sign = ['-']), ds) := by
      rcases hsign with rfl | rfl | rfl
      · cases ds with
        | nil => exact absurd rfl hne
        | cons d ds =>
          have hd := hds d List.mem_cons_self
          unfold takeSign
          split
          next heq => cases heq; exact absurd hd (by decide)
          next heq => cases heq; exact absurd hd (by decide)
          next => rfl
      · rfl
      · rfl
    refine .inr ?_
    simp only [takeExponent?, he, if_true, htaken, hspan]
    cases ds with
    | nil => exact absurd rfl hne
    | cons d ds => exact ⟨_, rfl⟩

/-- An exponent does not begin with a digit or a point. -/
theorem exponent_head {t : List Char} (ht : Lexeme.Exponent t) {c : Char} {cs : List Char}
    (h : t = c :: cs) : isDigit c = false ∧ c ≠ '.' := by
  cases ht with
  | none => cases h
  | some he =>
    cases h
    rcases he with rfl | rfl <;> decide

theorem takeSign_digits {text : List Char} (h : ∀ c cs, text = c :: cs → c ≠ '+' ∧ c ≠ '-') :
    takeSign text = (false, text) := by
  unfold takeSign
  split
  next cs => exact absurd rfl (h _ _ rfl).2
  next cs => exact absurd rfl (h _ _ rfl).1
  next => rfl

/-- A decimal token is read to its end. -/
theorem start_decimal {text w rest : List Char} (h : Lexeme.decimal text = some (w, rest)) :
    ∃ n, Numeral.start? w = some n ∧ n.rest = [] := by
  obtain ⟨whole, fraction, t, hwhole, hfraction, ht, hform⟩ := Lexeme.decimal_form h
  have hunsigned : takeSign w = (false, w) := by
    refine takeSign_digits fun c cs hw => ?_
    have hc : isDigit c = true ∨ c = '.' := by
      rcases whole with _ | ⟨d, ds⟩
      · rcases hform with ⟨hpoint, -⟩ | ⟨-, hne, -⟩
        · rw [hw] at hpoint
          exact .inr (List.cons.inj hpoint).1
        · exact absurd rfl hne
      · have hd := hwhole d List.mem_cons_self
        rcases hform with ⟨hpoint, -⟩ | ⟨hplain, -⟩
        · rw [hw] at hpoint
          exact .inl ((List.cons.inj hpoint).1 ▸ hd)
        · rw [hw] at hplain
          exact .inl ((List.cons.inj hplain).1 ▸ hd)
    constructor
    all_goals
      rintro rfl
      revert hc
      decide
  have hend := takeExponent_exponent ht
  unfold Numeral.start?
  rw [hunsigned]
  rcases hform with ⟨rfl, hne⟩ | ⟨rfl, hne, rfl⟩
  case' inl =>
    have hpoint : (whole ++ '.' :: fraction ++ t).span isDigit = (whole, '.' :: (fraction ++ t)) := by
      rw [List.append_assoc]
      refine span_run hwhole fun c cs h => ?_
      cases h
      decide
    have htail : (fraction ++ t).span isDigit = (fraction, t) :=
      span_run hfraction fun c cs h => (exponent_head ht h).1
    have hsome : (whole.isEmpty && fraction.isEmpty) = false := by simpa [List.isEmpty_iff] using hne
    simp only [hpoint, htail, hsome]
  case' inr =>
    have hplain : (whole ++ t).span isDigit = (whole, t) :=
      span_run hwhole fun c cs h => (exponent_head ht h).1
    have hsome : whole.isEmpty = false := by simpa [List.isEmpty_iff] using hne
    simp only [hplain]
    -- an exponent begins with neither a digit nor a point, so no fraction is read
    split
    case h_1 r => exact absurd rfl (exponent_head ht rfl).2
    simp only [hsome, Bool.false_and]
  all_goals
    rcases hend with ⟨hnone, hnil⟩ | ⟨k, hk⟩
    · rw [hnone]
      exact ⟨_, rfl, hnil⟩
    · rw [hk]
      exact ⟨_, rfl, rfl⟩

/-- **A decimal token always has a value.** -/
theorem decimal_token {text w rest : List Char} (h : Lexeme.decimal text = some (w, rest)) :
    ∃ x, decimal? w = some x := by
  obtain ⟨n, hn, hrest⟩ := start_decimal h
  refine ⟨n.value, ?_⟩
  unfold decimal?
  rw [hn]
  dsimp only
  rw [hrest]
  rfl

/-- What a hexadecimal token stands for is no decimal. -/
theorem decimal_hexadecimal {x : Char} (hx : x = 'x' ∨ x = 'X') (ds : List Char) :
    decimal? ('0' :: x :: ds) = none := by
  rcases hx with rfl | rfl <;> rfl

end Number

namespace Literal

open Text (digitIn? valueIn? wordIn?)

/-- Digits of a base write a number. -/
theorem valueIn_digits {base : Nat} {ds : List Char} (hne : ds ≠ [])
    (hds : ∀ c ∈ ds, (digitIn? base c).isSome = true) : ∃ value, valueIn? base ds = some value := by
  have hfold : ∀ n, ∃ value,
      ds.foldlM (fun n c => (digitIn? base c).map (base * n + ·)) n = some value := by
    clear hne
    induction ds with
    | nil => exact fun n => ⟨n, rfl⟩
    | cons c cs ih =>
      intro n
      obtain ⟨d, hd⟩ := Option.isSome_iff_exists.mp (hds c List.mem_cons_self)
      rw [List.foldlM_cons, hd]
      exact ih (fun c hc => hds c (List.mem_cons_of_mem _ hc)) _
  unfold valueIn?
  rw [if_neg (by simpa using hne)]
  exact hfold 0

/-- A hexadecimal number that does not fit 64 bits. -/
def Large (token : List Char) : Prop :=
  ∃ x ds value, token = '0' :: x :: ds ∧ (x = 'x' ∨ x = 'X') ∧ valueIn? 16 ds = some value ∧
    Number.greatestWord < value

theorem hexadecimal_value {text w rest : List Char} (h : Lexeme.hexadecimal text = some (w, rest)) :
    ∃ x ds value, w = '0' :: x :: ds ∧ (x = 'x' ∨ x = 'X') ∧ valueIn? 16 ds = some value ∧
      ds.head? ≠ some '+' := by
  unfold Lexeme.hexadecimal at h
  split at h
  next x cs =>
    split at h
    next hx =>
      split at h
      · cases h
      next ds after hne hspan =>
        cases h
        have hds := span_mem hspan
        obtain ⟨value, hvalue⟩ := valueIn_digits (fun hnil => hne hnil) hds
        refine ⟨x, ds, value, rfl, hx, hvalue, fun hplus => ?_⟩
        exact absurd (hds '+' (List.mem_of_mem_head? hplus)) (by decide)
    · cases h
  · cases h

theorem wordIn_value {base bound value : Nat} {ds : List Char} (hplus : ds.head? ≠ some '+')
    (h : valueIn? base ds = some value) :
    wordIn? base bound ds = if value ≤ bound then some value else none := by
  unfold wordIn?
  split
  · exact absurd rfl hplus
  · dsimp only
    rw [h, Option.filter_some]
    simp

theorem number_hexadecimal {x : Char} (hx : x = 'x' ∨ x = 'X') (ds : List Char) :
    number? ('0' :: x :: ds) = (wordIn? 16 Number.greatestWord ds).map Number.ofNat := by
  rcases hx with rfl | rfl <;> rfl

theorem number_decimal {token : List Char} {y : Float} (h : Number.decimal? token = some y) :
    number? token = some y := by
  unfold number?
  split
  next ds => exact absurd h (by rw [Number.decimal_hexadecimal (.inl rfl)]; nofun)
  next ds => exact absurd h (by rw [Number.decimal_hexadecimal (.inr rfl)]; nofun)
  next => exact h

/-- **The only number tokens without a value are the hexadecimal ones that do not fit 64 bits.** -/
theorem number_none {text w rest : List Char} (h : Lexeme.number text = some (w, rest)) :
    number? w = none ↔ Large w := by
  unfold Lexeme.number Lexeme.firstOf Lexeme.firstOf Lexeme.firstOf at h
  cases hhex : Lexeme.hexadecimal text with
  | some r =>
    rw [hhex] at h
    cases h
    obtain ⟨x, ds, value, rfl, hx, hvalue, hplus⟩ := hexadecimal_value hhex
    rw [number_hexadecimal hx, wordIn_value hplus hvalue, Option.map_eq_none_iff]
    constructor
    · intro hnone
      refine ⟨x, ds, value, rfl, hx, hvalue, Nat.lt_of_not_le fun hle => ?_⟩
      rw [if_pos hle] at hnone
      cases hnone
    · rintro ⟨_, _, value', heq, -, hvalue', hlarge⟩
      cases heq
      obtain rfl : value' = value := Option.some.inj (hvalue'.symm.trans hvalue)
      exact if_neg (Nat.not_le_of_lt hlarge)
  | none =>
    rw [hhex] at h
    cases hdec : Lexeme.decimal text with
    | none =>
      rw [hdec] at h
      cases h
    | some r =>
      rw [hdec] at h
      cases h
      obtain ⟨y, hy⟩ := Number.decimal_token hdec
      rw [number_decimal hy]
      constructor
      · intro hnone
        cases hnone
      · rintro ⟨x, ds, value, rfl, hx, -⟩
        rw [Number.decimal_hexadecimal hx] at hy
        cases hy

example : number? "0x10000000000000000".toList = none := rfl

end Literal

end Fermata
