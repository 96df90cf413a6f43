import Fermata.Proofs.Grammar.Place
import Fermata.Syntax.Grammar

/-!
# Closing parentheses

A text that is read behind an open parenthesis may go on behind the one that closes it. What was read up
to there does not depend on how it goes on: no comment, no string and no word reaches further, because
the closing parenthesis is in none of them (`Scan.closes`).

* `Cursor.skipFrom_closes`: skipping trivia in the longer text.
* `Lexeme.Stays`: a token is read from the longer text as from the shorter one, and leaves as many
  parentheses open. So do words, numbers, strings and operators.
-/

namespace Fermata

/-- Where a character stands: among tokens, in a comment of either kind, or in a string. -/
inductive Scan where
  | tokens
  | line
  | block
  | quoted (quote : Char)

/-- The last character of the text, and none before it, closes a parenthesis that was open in front of
the text; `opened` more of them were opened since. Parentheses in comments and strings do not count. -/
def Scan.closes : Scan → Nat → List Char → Bool
  | _, _, [] => false
  | .tokens, opened, '/' :: '/' :: cs => closes .line opened cs
  | .tokens, opened, '/' :: '*' :: cs => closes .block opened cs
  | .tokens, opened, c :: cs =>
    if c = '"' ∨ c = '\'' then closes (.quoted c) opened cs
    else if c = '(' then closes .tokens (opened + 1) cs
    else if c = ')' then
      if opened = 0 then cs.isEmpty else closes .tokens (opened - 1) cs
    else closes .tokens opened cs
  | .line, opened, c :: cs => closes (if c = '\n' then .tokens else .line) opened cs
  | .block, opened, '*' :: '/' :: cs => closes .tokens opened cs
  | .block, opened, _ :: cs => closes .block opened cs
  | .quoted quote, opened, '\\' :: _ :: cs => closes (.quoted quote) opened cs
  | .quoted quote, opened, c :: cs =>
    closes (if c = quote then .tokens else .quoted quote) opened cs

/-- The text goes on to where the parenthesis in front of it is closed. -/
def Closes (opened : Nat) (text : List Char) : Prop := Scan.tokens.closes opened text = true

/-- A character that neither counts itself nor begins a comment or a string. -/
def isPlain (c : Char) : Bool := !(['/', '"', '\'', '(', ')'].contains c)

variable {d : Nat} {c : Char} {cs : List Char}

theorem not_closes_nil : ¬Closes d [] := Bool.false_ne_true

theorem closes_cons_plain (hc : isPlain c = true) : Closes d (c :: cs) ↔ Closes d cs := by
  have hne : ∀ x ∈ ['/', '"', '\'', '(', ')'], c ≠ x := by
    rintro x hx rfl
    simp [isPlain, hx] at hc
  rw [Closes, Scan.closes.eq_4 _ _ _ (fun _ h => absurd h (hne _ (by simp)))
    (fun _ h => absurd h (hne _ (by simp))), if_neg, if_neg, if_neg, Closes]
  · exact hne _ (by simp)
  · exact hne _ (by simp)
  · exact not_or.mpr ⟨hne _ (by simp), hne _ (by simp)⟩

theorem closes_cons_open : Closes d ('(' :: cs) ↔ Closes (d + 1) cs := Iff.rfl

theorem closes_cons_close : Closes (d + 1) (')' :: cs) ↔ Closes d cs := Iff.rfl

theorem closes_cons_last : Closes 0 (')' :: cs) ↔ cs = [] := List.isEmpty_iff

theorem closes_cons_slash (hline : ∀ r, cs ≠ '/' :: r) (hblock : ∀ r, cs ≠ '*' :: r) :
    Closes d ('/' :: cs) ↔ Closes d cs := by
  simp [Closes, Scan.closes, hline, hblock]

theorem not_closes_slash : ¬Closes d ['/'] := by
  rw [closes_cons_slash (by simp) (by simp)]
  exact not_closes_nil

theorem closes_cons_slash_equal : Closes d ('/' :: '=' :: cs) ↔ Closes d cs := by
  rw [closes_cons_slash (by simp) (by simp), closes_cons_plain (by decide)]

/-- What is left of the text and of the longer one, and how much of it at most. -/
structure Left (s : List Char) (d n : Nat) (r r' : List Char) : Prop where
  append : r' = r ++ s
  closes : Closes d r
  length_lt : r.length < n

theorem Left.mono {s r r' : List Char} {n m : Nat} (h : Left s d n r r') (hle : n ≤ m) :
    Left s d m r r' :=
  ⟨h.append, h.closes, Nat.lt_of_lt_of_le h.length_lt hle⟩

/-! ## Trivia -/

namespace Cursor

/-- Where trivia stands. -/
def TriviaMode.scan : TriviaMode → Scan
  | .between => .tokens
  | .line => .line
  | .block _ _ => .block

theorem TriviaMode.eq_between {mode : TriviaMode} (h : mode.scan = .tokens) : mode = .between := by
  cases mode <;> first | rfl | cases h

theorem TriviaMode.eq_line {mode : TriviaMode} (h : mode.scan = .line) : mode = .line := by
  cases mode <;> first | rfl | cases h

theorem TriviaMode.eq_block {mode : TriviaMode} (h : mode.scan = .block) :
    ∃ opened at_, mode = .block opened at_ := by
  cases mode <;> first | exact ⟨_, _, rfl⟩ | cases h

theorem isPlain_of_isSpace (hc : isSpace c = true) : isPlain c = true := by
  by_contra hplain
  obtain rfl | rfl | rfl | rfl | rfl : c = '/' ∨ c = '"' ∨ c = '\'' ∨ c = '(' ∨ c = ')' := by
    simpa [isPlain, or_iff_not_imp_left] using hplain
  all_goals exact absurd hc (by decide)

/-- Trivia ends before the closing parenthesis. -/
theorem skipFrom_closes (s : List Char) {mode mode' : TriviaMode} {text : List Char}
    (hmode : mode'.scan = mode.scan) (h : mode.scan.closes d text = true) (p q : Position) :
    Left s d (text.length + 1) (skipFrom mode text p).1 (skipFrom mode' (text ++ s) q).1 := by
  fun_induction skipFrom mode text p generalizing mode' q with
  | case1 | case6 | case8 => simp [Scan.closes] at h
  | case2 p cs ih =>
    obtain rfl := TriviaMode.eq_between hmode
    simp only [TriviaMode.scan, Scan.closes] at h
    simp only [List.cons_append, skipFrom]
    exact (ih (by rfl) h _).mono (by simp)
  | case3 p cs ih =>
    obtain rfl := TriviaMode.eq_between hmode
    simp only [TriviaMode.scan, Scan.closes] at h
    simp only [List.cons_append, skipFrom]
    exact (ih (by rfl) h _).mono (by simp)
  | case4 ch cs p hline hblock hspace ih =>
    obtain rfl := TriviaMode.eq_between hmode
    have hrest := ih rfl ((closes_cons_plain (isPlain_of_isSpace hspace)).mp h) (q.advance ch)
    have hslash : ch ≠ '/' := by rintro rfl; exact absurd hspace (by decide)
    rw [List.cons_append, skipFrom, if_pos hspace]
    · exact hrest.mono (by simp)
    · exact fun _ h => absurd h hslash
    · exact fun _ h => absurd h hslash
  | case5 ch cs p hline hblock hspace =>
    obtain rfl := TriviaMode.eq_between hmode
    rw [List.cons_append, skipFrom, if_neg hspace]
    · exact ⟨rfl, h, by simp⟩
    all_goals
      rintro r rfl hr
      cases cs with
      | nil => simp [TriviaMode.scan, Scan.closes] at h
      | cons c cs =>
        cases hr
        first | exact hline _ rfl rfl | exact hblock _ rfl rfl
  | case7 ch cs p ih =>
    obtain rfl := TriviaMode.eq_line hmode
    simp only [TriviaMode.scan, Scan.closes] at h
    simp only [List.cons_append, skipFrom]
    refine (ih rfl ?_ _).mono (by simp)
    split <;> simpa [TriviaMode.scan, *] using h
  | case9 opened at_ cs p ih =>
    obtain ⟨_, _, rfl⟩ := TriviaMode.eq_block hmode
    simp only [TriviaMode.scan, Scan.closes] at h
    simp only [List.cons_append, skipFrom]
    exact (ih (by rfl) h _).mono (by simp)
  | case10 opened at_ ch cs p hstar ih =>
    obtain ⟨_, _, rfl⟩ := TriviaMode.eq_block hmode
    simp only [TriviaMode.scan] at h
    rw [Scan.closes] at h
    · rw [List.cons_append, skipFrom]
      · exact (ih (by rfl) h _).mono (by simp)
      · rintro r rfl hr
        cases cs with
        | nil => simp [Scan.closes] at h
        | cons c cs =>
          cases hr
          exact hstar _ rfl rfl
    · exact fun r hch hr => hstar r hch hr

end Cursor

/-! ## Tokens -/

/-- A run of plain characters ends before the closing parenthesis. -/
theorem span_closes (s : List Char) {P : Char → Bool} (hP : ∀ c, P c = true → isPlain c = true)
    {text : List Char} (h : Closes d text) :
    (text ++ s).span P = ((text.span P).1, (text.span P).2 ++ s) ∧
      Closes d (text.span P).2 := by
  rw [List.span_eq_takeWhile_dropWhile, List.span_eq_takeWhile_dropWhile]
  refine ⟨?_, ?_⟩
  · induction text with
    | nil => exact absurd h not_closes_nil
    | cons c cs ih =>
      rw [List.cons_append, List.takeWhile_cons, List.dropWhile_cons, List.takeWhile_cons,
        List.dropWhile_cons]
      split
      next hc =>
        have hrest := ih ((closes_cons_plain (hP c hc)).mp h)
        rw [Prod.mk.injEq] at hrest ⊢
        exact ⟨congrArg _ hrest.1, hrest.2⟩
      next => rfl
  · induction text with
    | nil => exact absurd h not_closes_nil
    | cons c cs ih =>
      rw [List.dropWhile_cons]
      split
      next hc => exact ih ((closes_cons_plain (hP c hc)).mp h)
      next => exact h

theorem span_left (P : Char → Bool) (text : List Char) :
    (text.span P).2.length ≤ text.length := by
  rw [List.span_eq_takeWhile_dropWhile]
  exact (List.dropWhile_suffix _).length_le

theorem span_left_lt (P : Char → Bool) {text : List Char} (hne : (text.span P).1 ≠ []) :
    (text.span P).2.length < text.length := by
  rw [List.span_eq_takeWhile_dropWhile] at hne ⊢
  have hlength := congrArg List.length (text.takeWhile_append_dropWhile (p := P))
  have hpos := List.length_pos_iff.mpr hne
  rw [List.length_append] at hlength
  dsimp only at hpos ⊢
  omega

namespace Lexeme

/-- What a lexeme makes of a text and of the longer one. -/
inductive Alike (s : List Char) (d n : Nat) :
    Option (List Char × List Char) → Option (List Char × List Char) → Prop
  | none : Alike s d n none none
  | some {w r r'} : Left s d n r r' → Alike s d n (some (w, r)) (some (w, r'))

/-- A token is read from the longer text as from the shorter one, and as many parentheses are open. -/
def Stays (l : Lexeme) : Prop :=
  ∀ s d text, Closes d text → Alike s d text.length (l text) (l (text ++ s))

/-- The characters that occur in words and numbers are plain. -/
theorem isPlain_of_ne (hc : c ≠ '/' ∧ c ≠ '"' ∧ c ≠ '\'' ∧ c ≠ '(' ∧ c ≠ ')') :
    isPlain c = true := by
  simp [isPlain, hc]

theorem isPlain_of_isNamePart (hc : Text.isNamePart c = true) : isPlain c = true := by
  refine isPlain_of_ne ⟨?_, ?_, ?_, ?_, ?_⟩
  all_goals
    rintro rfl
    exact absurd hc (by decide)

theorem word_stays : Stays word := by
  intro s d text h
  cases text with
  | nil => exact absurd h not_closes_nil
  | cons c cs =>
    rw [List.cons_append, word, word]
    split
    next hc =>
      have hpart : Text.isNamePart c = true := by rw [Text.isNamePart, hc, Bool.true_or]
      obtain ⟨hspan, hcloses⟩ := span_closes s (fun _ => isPlain_of_isNamePart) h
      have hword : ((c :: cs).span Text.isNamePart).1 ≠ [] := by
        rw [List.span_eq_takeWhile_dropWhile, List.takeWhile_cons, if_pos hpart]
        exact List.cons_ne_nil _ _
      have hlt := span_left_lt Text.isNamePart hword
      rw [← List.cons_append, hspan]
      exact .some ⟨rfl, hcloses, hlt⟩
    next => exact .none

theorem keyword_stays (k : String) : Stays (keyword k) := by
  intro s d text h
  have hword := word_stays s d text h
  unfold keyword
  generalize word text = a, word (text ++ s) = b at hword ⊢
  cases hword with
  | none => exact .none
  | some hleft =>
    dsimp only
    split
    · exact .some hleft
    · exact .none

theorem identifier_stays : Stays identifier := by
  intro s d text h
  have hword := word_stays s d text h
  unfold identifier
  generalize word text = a, word (text ++ s) = b at hword ⊢
  cases hword with
  | none => exact .none
  | some hleft =>
    dsimp only
    split
    · exact .none
    · exact .some hleft

/-! ### Operators -/

theorem strip?_closes {piece : List Char} (hpiece : piece.all isPlain = true) {text : List Char}
    (h : Closes d text) (s : List Char) :
    Matcher.strip? piece (text ++ s) = (Matcher.strip? piece text).map (· ++ s) ∧
      ∀ r, Matcher.strip? piece text = some r → Closes d r ∧ r.length + piece.length = text.length := by
  induction piece generalizing text with
  | nil =>
    refine ⟨rfl, fun r hr => ?_⟩
    cases hr
    exact ⟨h, rfl⟩
  | cons p ps ih =>
    rw [List.all_cons, Bool.and_eq_true] at hpiece
    cases text with
    | nil => exact absurd h not_closes_nil
    | cons c cs =>
      rw [List.cons_append, Matcher.strip?, Matcher.strip?]
      split
      next heq =>
        subst heq
        obtain ⟨happend, hleft⟩ := ih hpiece.2 ((closes_cons_plain hpiece.1).mp h)
        refine ⟨happend, fun r hr => ?_⟩
        obtain ⟨hcloses, hlength⟩ := hleft r hr
        exact ⟨hcloses, by rw [List.length_cons, List.length_cons, ← hlength, Nat.add_assoc]⟩
      next => exact ⟨rfl, nofun⟩

/-- An operator, if what follows the piece of text is settled. -/
theorem operator_alike {piece : String} {stops text s : List Char}
    (happend : Matcher.strip? piece.toList (text ++ s) =
      (Matcher.strip? piece.toList text).map (· ++ s))
    (hleft : ∀ r, Matcher.strip? piece.toList text = some r → ∃ c cs, r = c :: cs ∧
      (stops.contains c = false → Closes d r ∧ r.length < text.length)) :
    Alike s d text.length (operator piece stops text) (operator piece stops (text ++ s)) := by
  unfold operator
  rw [happend]
  cases hstrip : Matcher.strip? piece.toList text with
  | none => exact .none
  | some r =>
    obtain ⟨c, cs, rfl, hrest⟩ := hleft r hstrip
    dsimp only [Option.map_some, List.cons_append]
    split
    · exact .none
    next hc =>
      obtain ⟨hcloses, hlt⟩ := hrest (by simpa using hc)
      exact .some ⟨rfl, hcloses, hlt⟩

theorem operator_stays {piece : String} {stops : List Char}
    (hpiece : piece.toList.all isPlain = true) (hne : piece.toList ≠ []) :
    Stays (operator piece stops) := by
  intro s d text h
  obtain ⟨happend, hleft⟩ := strip?_closes hpiece h s
  refine operator_alike happend fun r hr => ?_
  obtain ⟨hcloses, hlength⟩ := hleft r hr
  cases r with
  | nil => exact absurd hcloses not_closes_nil
  | cons c cs =>
    have hpos := List.length_pos_iff.mpr hne
    exact ⟨c, cs, rfl, fun _ => ⟨hcloses, by omega⟩⟩

theorem ne_slash_of_closes (h : Closes d [c]) : '/' ≠ c := by
  rintro rfl
  exact not_closes_slash h

/-- The division operator is not read where a comment begins. -/
theorem slash_stays {stops : List Char} (hline : stops.contains '/' = true)
    (hblock : stops.contains '*' = true) : Stays (operator "/" stops) := by
  intro s d text h
  have hstrip : ∀ c cs, Matcher.strip? "/".toList (c :: cs) = if '/' = c then some cs else none :=
    fun _ _ => rfl
  match text with
  | [] => exact absurd h not_closes_nil
  | [c] =>
    refine operator_alike ?_ fun r hr => ?_
    · rw [List.cons_append, hstrip, hstrip, if_neg (ne_slash_of_closes h),
        if_neg (ne_slash_of_closes h)]
      rfl
    · rw [hstrip, if_neg (ne_slash_of_closes h)] at hr
      cases hr
  | c :: e :: cs =>
    refine operator_alike ?_ fun r hr => ?_
    · rw [List.cons_append, hstrip, hstrip]
      split <;> rfl
    · rw [hstrip] at hr
      split at hr
      next heq =>
        cases hr
        subst heq
        refine ⟨e, cs, rfl, fun he => ⟨(closes_cons_slash ?_ ?_).mp h, Nat.lt_succ_self _⟩⟩
        · rintro _ ⟨⟩
          rw [hline] at he
          cases he
        · rintro _ ⟨⟩
          rw [hblock] at he
          cases he
      next => cases hr

theorem slashEqual_stays {stops : List Char} : Stays (operator "/=" stops) := by
  intro s d text h
  have hstrip : ∀ c e cs, Matcher.strip? "/=".toList (c :: e :: cs) =
      if '/' = c then if '=' = e then some cs else none else none := fun _ _ _ => rfl
  match text with
  | [] => exact absurd h not_closes_nil
  | [c] =>
    have hnone : ∀ cs, Matcher.strip? "/=".toList (c :: cs) = none := fun cs =>
      if_neg (ne_slash_of_closes h)
    refine operator_alike ?_ fun r hr => ?_
    · rw [List.cons_append, hnone, hnone]
      rfl
    · rw [hnone] at hr
      cases hr
  | c :: e :: cs =>
    refine operator_alike ?_ fun r hr => ?_
    · rw [List.cons_append, List.cons_append, hstrip, hstrip]
      split
      · split <;> rfl
      · rfl
    · rw [hstrip] at hr
      split at hr
      next hc =>
        split at hr
        next he =>
          cases hr
          subst hc he
          have hcloses : Closes d cs := closes_cons_slash_equal.mp h
          cases cs with
          | nil => exact absurd hcloses not_closes_nil
          | cons x xs => exact ⟨x, xs, rfl, fun _ => ⟨hcloses, by simp⟩⟩
        next => cases hr
      next => cases hr

/-! ### Numbers -/

theorem isPlain_of_isDigit (hc : Text.isDigit c = true) : isPlain c = true := by
  refine isPlain_of_ne ⟨?_, ?_, ?_, ?_, ?_⟩
  all_goals
    rintro rfl
    exact absurd hc (by decide)

theorem isPlain_of_digitIn? (hc : (Text.digitIn? 16 c).isSome = true) : isPlain c = true := by
  refine isPlain_of_ne ⟨?_, ?_, ?_, ?_, ?_⟩
  all_goals
    rintro rfl
    exact absurd hc (by decide)

theorem hexadecimal_stays : Stays hexadecimal := by
  intro s d text h
  have hother : ∀ c cs, c ≠ '0' → hexadecimal (c :: cs) = none := by
    intro c cs hc
    unfold hexadecimal
    split
    next heq => exact absurd (List.cons.inj heq).1 hc
    next => rfl
  match text with
  | [] => exact absurd h not_closes_nil
  | [c] =>
    have hc : c ≠ '0' := by
      rintro rfl
      exact not_closes_nil ((closes_cons_plain (by decide)).mp h)
    rw [List.cons_append, hother _ _ hc, hother _ _ hc]
    exact .none
  | c :: x :: cs =>
    by_cases hc : c = '0'
    · subst hc
      simp only [List.cons_append, hexadecimal]
      split
      next hx =>
        have hplain : isPlain x = true := by rcases hx with rfl | rfl <;> decide
        have hcs : Closes d cs := (closes_cons_plain hplain).mp ((closes_cons_plain (by decide)).mp h)
        obtain ⟨hspan, hcloses⟩ := span_closes s (fun _ => isPlain_of_digitIn?) hcs
        have hle := (span_left (fun c => (Text.digitIn? 16 c).isSome) cs)
        rw [hspan]
        generalize cs.span (fun c => (Text.digitIn? 16 c).isSome) = q at hcloses hle ⊢
        obtain ⟨ds, rest⟩ := q
        cases ds with
        | nil => exact .none
        | cons => exact .some ⟨rfl, hcloses, Nat.lt_add_right 1 (Nat.lt_succ_of_le hle)⟩
      next => exact .none
    · rw [List.cons_append, hother _ _ hc, hother _ _ hc]
      exact .none

/-- An exponent behind its sign, or nothing of it. -/
def exponentTail (taken : List Char) (e : Char) (sign digits : List Char) :
    List Char × List Char :=
  match digits.span Text.isDigit with
  | ([], _) => (taken, e :: (sign ++ digits))
  | (ds, rest) => (taken ++ e :: (sign ++ ds), rest)

theorem exponentPart_cons (taken : List Char) {e : Char} (he : e = 'e' ∨ e = 'E') (x : Char)
    (xs : List Char) : exponentPart taken (e :: x :: xs) =
      if x = '+' ∨ x = '-' then exponentTail taken e [x] xs else exponentTail taken e [] (x :: xs) := by
  have hsigned : exponentPart taken (e :: x :: xs) = if e = 'e' ∨ e = 'E' then
      exponentTail taken e (if x = '+' ∨ x = '-' then [x] else [])
        (if x = '+' ∨ x = '-' then xs else x :: xs) else (taken, e :: x :: xs) := by
    by_cases hplus : x = '+'
    · subst hplus
      rfl
    · by_cases hminus : x = '-'
      · subst hminus
        rfl
      · rw [if_neg (not_or.mpr ⟨hplus, hminus⟩), if_neg (not_or.mpr ⟨hplus, hminus⟩), exponentPart]
        · rfl
        · exact fun r heq => hplus (List.cons.inj heq).1
        · exact fun r heq => hminus (List.cons.inj heq).1
  rw [hsigned, if_pos he]
  split <;> rfl

theorem exponentTail_closes {digits : List Char} (taken s : List Char) {e : Char} {sign : List Char}
    (h : Closes d digits) (hall : Closes d (e :: (sign ++ digits))) :
    (exponentTail taken e sign (digits ++ s)).1 = (exponentTail taken e sign digits).1 ∧
      Left s d ((e :: (sign ++ digits)).length + 1) (exponentTail taken e sign digits).2
        (exponentTail taken e sign (digits ++ s)).2 := by
  obtain ⟨hspan, hcloses⟩ := span_closes s (fun _ => isPlain_of_isDigit) h
  have hle := span_left Text.isDigit digits
  unfold exponentTail
  rw [hspan]
  generalize digits.span Text.isDigit = q at hcloses hle ⊢
  obtain ⟨ds, rest⟩ := q
  cases ds with
  | nil => exact ⟨rfl, by simp, hall, Nat.lt_succ_self _⟩
  | cons =>
    refine ⟨rfl, rfl, hcloses, ?_⟩
    simp only [List.length_cons, List.length_append] at hle ⊢
    omega

theorem exponentPart_closes {text : List Char} (h : Closes d text) (taken s : List Char) :
    (exponentPart taken (text ++ s)).1 = (exponentPart taken text).1 ∧
      Left s d (text.length + 1) (exponentPart taken text).2 (exponentPart taken (text ++ s)).2 := by
  match text with
  | [] => exact absurd h not_closes_nil
  | e :: cs =>
    by_cases he : e = 'e' ∨ e = 'E'
    · have hplain : isPlain e = true := by rcases he with rfl | rfl <;> decide
      have hcs : Closes d cs := (closes_cons_plain hplain).mp h
      match cs with
      | [] => exact absurd hcs not_closes_nil
      | x :: xs =>
        rw [List.cons_append, List.cons_append, exponentPart_cons _ he, exponentPart_cons _ he]
        split
        next hx =>
          have hsign : isPlain x = true := by rcases hx with rfl | rfl <;> decide
          exact exponentTail_closes taken s ((closes_cons_plain hsign).mp hcs) h
        next => exact exponentTail_closes taken s hcs h
    · have hnone : ∀ r, exponentPart taken (e :: r) = (taken, e :: r) := fun r => if_neg he
      rw [List.cons_append, hnone, hnone]
      exact ⟨rfl, rfl, h, Nat.lt_succ_self _⟩

/-- A decimal that is read so far. -/
theorem exponent_alike {text : List Char} {n : Nat} (h : Closes d text) (taken s : List Char)
    (hlt : text.length < n) :
    Alike s d n (some (exponentPart taken text)) (some (exponentPart taken (text ++ s))) := by
  obtain ⟨hfirst, hleft⟩ := exponentPart_closes h taken s
  generalize exponentPart taken text = a, exponentPart taken (text ++ s) = b at hfirst hleft
  obtain ⟨a, r⟩ := a
  obtain ⟨b, r'⟩ := b
  cases hfirst
  exact .some (hleft.mono hlt)

theorem decimal_stays : Stays decimal := by
  intro s d text h
  obtain ⟨hspan, hcloses⟩ := span_closes s (fun _ => isPlain_of_isDigit) h
  have hle := span_left Text.isDigit text
  unfold decimal
  rw [hspan]
  have hpos := @span_left_lt Text.isDigit text
  generalize text.span Text.isDigit = q at hcloses hle hpos ⊢
  obtain ⟨whole, rest⟩ := q
  dsimp only at hcloses hle hpos
  cases rest with
  | nil => exact absurd hcloses not_closes_nil
  | cons c cs =>
    by_cases hc : c = '.'
    · subst hc
      have hcs : Closes d cs := (closes_cons_plain (by decide)).mp hcloses
      obtain ⟨hspan', hcloses'⟩ := span_closes s (fun _ => isPlain_of_isDigit) hcs
      have hle' := span_left Text.isDigit cs
      rw [List.length_cons] at hle
      cases whole with
      | nil =>
        simp only [List.cons_append, hspan']
        generalize cs.span Text.isDigit = q' at hcloses' hle' ⊢
        obtain ⟨ds, rest⟩ := q'
        cases ds with
        | nil => exact .none
        | cons => exact exponent_alike hcloses' _ _ (Nat.lt_of_le_of_lt hle' hle)
      | cons w ws =>
        simp only [List.cons_append, hspan']
        exact exponent_alike hcloses' _ _ (Nat.lt_of_le_of_lt hle' hle)
    · cases whole with
      | nil =>
        simp [hc]
        exact .none
      | cons w ws =>
        simp [hc]
        exact exponent_alike hcloses _ _ (hpos (List.cons_ne_nil _ _))

theorem firstOf_stays {ls : List Lexeme} (hls : ∀ l ∈ ls, Stays l) : Stays (firstOf ls) := by
  intro s d text h
  induction ls with
  | nil => exact .none
  | cons l ls ih =>
    have hl := hls l List.mem_cons_self s d text h
    have hrest := ih fun l' hl' => hls l' (List.mem_cons_of_mem _ hl')
    unfold firstOf
    generalize l text = a, l (text ++ s) = b at hl ⊢
    cases hl with
    | none => exact hrest
    | some hleft => exact .some hleft

theorem number_stays : Stays number :=
  firstOf_stays (by simp [hexadecimal_stays, decimal_stays])

/-! ### Strings and blanks -/

theorem closes_quoted_cons {quote : Char} (hc : c ≠ '\\') :
    (Scan.quoted quote).closes d (c :: cs) =
      (if c = quote then Scan.tokens else Scan.quoted quote).closes d cs := by
  rw [Scan.closes]
  exact fun _ _ h => absurd h hc

theorem insideString_cons {quote : Char} (hc : c ≠ '\\') :
    insideString quote (c :: cs) =
      if c = quote then some ([c], cs)
      else if c = '\n' ∨ c = '\\' then none
      else (insideString quote cs).map fun (w, rest) => (c :: w, rest) := by
  rw [insideString]
  exact fun _ _ h => absurd h hc

theorem insideString_closes {quote : Char} {text : List Char}
    (h : (Scan.quoted quote).closes d text = true) (s : List Char) :
    Alike s d text.length (insideString quote text) (insideString quote (text ++ s)) := by
  have hescape : ∀ c cs, (Scan.quoted quote).closes d (c :: cs) = true →
      (∀ e r, c = '\\' → cs = e :: r → False) → c ≠ '\\' := by
    rintro c cs h hno rfl
    cases cs with
    | nil => simp [Scan.closes] at h
    | cons e r => exact hno e r rfl rfl
  fun_induction insideString quote text with
  | case1 => simp [Scan.closes] at h
  | case2 c cs ih =>
    rw [Scan.closes] at h
    rw [List.cons_append, List.cons_append, insideString]
    have hin := ih h
    generalize insideString quote cs = a, insideString quote (cs ++ s) = b at hin ⊢
    cases hin with
    | none => exact .none
    | some hleft => exact .some (hleft.mono (Nat.le_add_right _ 2))
  | case3 cs hno =>
    have hne := hescape _ _ h hno
    rw [closes_quoted_cons hne, if_pos rfl] at h
    rw [List.cons_append, insideString_cons hne, if_pos rfl]
    exact .some ⟨rfl, h, Nat.lt_succ_self _⟩
  | case4 c cs hno hquote hstop =>
    have hne := hescape _ _ h hno
    rw [List.cons_append, insideString_cons hne, if_neg hquote, if_pos hstop]
    exact .none
  | case5 c cs hno hquote hstop ih =>
    have hne := hescape _ _ h hno
    rw [closes_quoted_cons hne, if_neg hquote] at h
    rw [List.cons_append, insideString_cons hne, if_neg hquote, if_neg hstop]
    have hin := ih h
    generalize insideString quote cs = a, insideString quote (cs ++ s) = b at hin ⊢
    cases hin with
    | none => exact .none
    | some hleft => exact .some (hleft.mono (Nat.le_succ _))

theorem string_stays : Stays string := by
  intro s d text h
  cases text with
  | nil => exact absurd h not_closes_nil
  | cons c cs =>
    unfold string
    rw [List.cons_append]
    dsimp only
    split
    next hc =>
      have hquoted : (Scan.quoted c).closes d cs = true := by
        rcases hc with rfl | rfl <;> simpa [Closes, Scan.closes] using h
      have hin := insideString_closes hquoted s
      generalize insideString c cs = a, insideString c (cs ++ s) = b at hin ⊢
      cases hin with
      | none => exact .none
      | some hleft => exact .some (hleft.mono (Nat.le_succ _))
    next => exact .none

theorem inlineBlanks_stays : Stays inlineBlanks := by
  intro s d text h
  have hplain : ∀ c, decide (c = ' ' ∨ c = '\t') = true → isPlain c = true := by
    intro c hc
    rcases of_decide_eq_true hc with rfl | rfl <;> decide
  obtain ⟨hspan, hcloses⟩ := span_closes s hplain h
  have hpos := @span_left_lt (fun c => decide (c = ' ' ∨ c = '\t')) text
  unfold inlineBlanks
  rw [hspan]
  generalize text.span (fun c => decide (c = ' ' ∨ c = '\t')) = q at hcloses hpos ⊢
  obtain ⟨bs, rest⟩ := q
  cases bs with
  | nil => exact .none
  | cons => exact .some ⟨rfl, hcloses, hpos (List.cons_ne_nil _ _)⟩

end Lexeme

namespace Grammar

open Lexeme

/-- All tokens of a table. -/
def StayAll {α : Type} (table : List (Lexeme × α)) : Prop := ∀ e ∈ table, e.1.Stays

theorem precedence_stays : ∀ ops ∈ precedence, StayAll ops := by
  simp only [StayAll, precedence, List.forall_mem_cons, List.not_mem_nil, false_imp_iff,
    implies_true, and_true]
  repeat' constructor
  all_goals first
    | exact operator_stays (by decide) (by decide)
    | exact keyword_stays _
    | exact slash_stays (by decide) (by decide)

theorem unaryOps_stays : StayAll unaryOps := by
  simp only [StayAll, unaryOps, List.forall_mem_cons, List.not_mem_nil, false_imp_iff,
    implies_true, and_true]
  repeat' constructor
  all_goals first
    | exact operator_stays (by decide) (by decide)
    | exact keyword_stays _

theorem updateOps_stays : StayAll updateOps := by
  simp only [StayAll, updateOps, List.forall_mem_cons, List.not_mem_nil, false_imp_iff,
    implies_true, and_true]
  exact ⟨operator_stays (by decide) (by decide), operator_stays (by decide) (by decide)⟩

theorem assignOps_stays : StayAll assignOps := by
  simp only [StayAll, assignOps, List.forall_mem_cons, List.not_mem_nil, false_imp_iff,
    implies_true, and_true]
  repeat' constructor
  all_goals first
    | exact operator_stays (by decide) (by decide)
    | exact slashEqual_stays

end Grammar

end Fermata
