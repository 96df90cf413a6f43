import Fermata.Proofs.Grammar.BesideStatement
import Fermata.Proofs.Grammar.Result

/-!
# Operands

An operand is written as a name, as a number or in parentheses (`Written`), and is read on its own as one
expression statement (`Operand`). Followed by a blank or by nothing, it is read the same wherever it
stands.

* `Written.primary`: a reading of an operand on its own and one in front of other text agree.
-/

namespace Fermata

/-- Nothing, or a blank first. -/
def Apart (s : List Char) : Prop := s = [] ∨ ∃ r, s = ' ' :: r

variable {s x : List Char}

/-! ## Tokens in front of a blank -/

theorem span_apart (hs : Apart s) {P : Char → Bool} (hP : P ' ' = false) (x : List Char) :
    (x ++ s).span P = ((x.span P).1, (x.span P).2 ++ s) := by
  rw [List.span_eq_takeWhile_dropWhile, List.span_eq_takeWhile_dropWhile]
  induction x with
  | nil =>
    rcases hs with rfl | ⟨r, rfl⟩
    · rfl
    · rw [List.nil_append, List.takeWhile_cons, List.dropWhile_cons, hP]
      rfl
  | cons c cs ih =>
    rw [Prod.mk.injEq] at ih
    rw [List.cons_append, List.takeWhile_cons, List.dropWhile_cons, List.takeWhile_cons,
      List.dropWhile_cons]
    split
    · rw [ih.1, ih.2]
    · rfl

namespace Lexeme

/-- A blank behind the text does not matter. -/
def Steady (l : Lexeme) : Prop :=
  ∀ s, Apart s → ∀ x, l (x ++ s) = (l x).map fun r => (r.1, r.2 ++ s)

theorem word_steady : Steady word := by
  intro s hs x
  cases x with
  | nil => rcases hs with rfl | ⟨r, rfl⟩ <;> rfl
  | cons c cs =>
    rw [List.cons_append, word, word]
    split
    · rw [← List.cons_append, span_apart hs (by decide)]
      rfl
    · rfl

theorem keyword_steady (k : String) : Steady (keyword k) := by
  intro s hs x
  unfold keyword
  rw [word_steady s hs]
  rcases word x with _ | ⟨w, r⟩
  · rfl
  · dsimp only [Option.map_some]
    split <;> rfl

theorem identifier_steady : Steady identifier := by
  intro s hs x
  unfold identifier
  rw [word_steady s hs]
  rcases word x with _ | ⟨w, r⟩
  · rfl
  · dsimp only [Option.map_some]
    split <;> rfl

theorem hexadecimal_other {c : Char} (hc : c ≠ '0') (cs : List Char) :
    hexadecimal (c :: cs) = none := by
  unfold hexadecimal
  split
  next heq => exact absurd (List.cons.inj heq).1 hc
  next => rfl

theorem hexadecimal_steady : Steady hexadecimal := by
  intro s hs x
  match x with
  | [] => rcases hs with rfl | ⟨r, rfl⟩ <;> rfl
  | [c] =>
    by_cases hc : c = '0'
    · subst hc
      rcases hs with rfl | ⟨r, rfl⟩ <;> rfl
    · rw [List.cons_append, hexadecimal_other hc, hexadecimal_other hc]
      rfl
  | c :: y :: cs =>
    by_cases hc : c = '0'
    · subst hc
      simp only [List.cons_append, hexadecimal]
      split
      · rw [span_apart hs (by decide)]
        rcases cs.span (fun c => (Text.digitIn? 16 c).isSome) with ⟨_ | ⟨e, es⟩, rest⟩ <;> rfl
      · rfl
    · rw [List.cons_append, hexadecimal_other hc, hexadecimal_other hc]
      rfl

theorem exponentTail_apart (hs : Apart s) (taken : List Char) (e : Char) (sign digits : List Char) :
    exponentTail taken e sign (digits ++ s) =
      ((exponentTail taken e sign digits).1, (exponentTail taken e sign digits).2 ++ s) := by
  unfold exponentTail
  rw [span_apart hs (by decide)]
  rcases digits.span Text.isDigit with ⟨_ | ⟨c, cs⟩, rest⟩ <;> simp

theorem exponentPart_apart (hs : Apart s) (taken x : List Char) :
    exponentPart taken (x ++ s) =
      ((exponentPart taken x).1, (exponentPart taken x).2 ++ s) := by
  match x with
  | [] => rcases hs with rfl | ⟨r, rfl⟩ <;> rfl
  | [e] =>
    by_cases he : e = 'e' ∨ e = 'E'
    · rcases hs with rfl | ⟨r, rfl⟩
      · rw [List.append_nil, List.append_nil]
      · have hnone : exponentPart taken [e] = (taken, [e]) := by simp [exponentPart]
        rw [List.cons_append, List.nil_append, exponentPart_cons _ he, if_neg (by decide), hnone]
        rfl
    · have hnone : ∀ r, exponentPart taken (e :: r) = (taken, e :: r) := fun r => if_neg he
      rw [List.cons_append, hnone, hnone]
      rfl
  | e :: y :: ys =>
    by_cases he : e = 'e' ∨ e = 'E'
    · rw [List.cons_append, List.cons_append, exponentPart_cons _ he, exponentPart_cons _ he]
      split
      · exact exponentTail_apart hs taken e [y] ys
      · exact exponentTail_apart hs taken e [] (y :: ys)
    · have hnone : ∀ r, exponentPart taken (e :: r) = (taken, e :: r) := fun r => if_neg he
      rw [List.cons_append, hnone, hnone]
      rfl

theorem decimal_steady : Steady decimal := by
  intro s hs x
  unfold decimal
  rw [span_apart hs (by decide)]
  rcases x.span Text.isDigit with ⟨_ | ⟨w, ws⟩, _ | ⟨c, cs⟩⟩
  · rcases hs with rfl | ⟨r, rfl⟩ <;> rfl
  · by_cases hc : c = '.'
    · subst hc
      simp only [List.cons_append]
      rw [span_apart hs (by decide)]
      rcases cs.span Text.isDigit with ⟨_ | ⟨e, es⟩, rest⟩
      · rfl
      · simp only [exponentPart_apart hs, Option.map_some]
    · simp [hc]
  · rcases hs with rfl | ⟨r, rfl⟩
    · simp
    · have hnil := exponentPart_apart (.inr ⟨r, rfl⟩) (w :: ws) []
      rw [List.nil_append] at hnil
      simp [hnil]
  · by_cases hc : c = '.'
    · subst hc
      simp only [List.cons_append]
      rw [span_apart hs (by decide)]
      simp only [exponentPart_apart hs, Option.map_some]
    · have hcons := exponentPart_apart hs (w :: ws) (c :: cs)
      rw [List.cons_append] at hcons
      simp [hc, hcons]

theorem number_steady : Steady number := by
  intro s hs x
  unfold number firstOf firstOf firstOf
  rw [hexadecimal_steady s hs, decimal_steady s hs]
  rcases hexadecimal x with _ | r
  · rcases decimal x with _ | r <;> rfl
  · rfl

/-- Nothing is a word that does not begin like one. -/
theorem word_none {c : Char} (hc : Text.isNameStart c = false) (cs : List Char) :
    word (c :: cs) = none :=
  if_neg (by rw [hc]; exact Bool.false_ne_true)

end Lexeme

/-! ## How operands are written -/

/-- A text is a name, a number, or something in parentheses that the last character closes. -/
inductive Written : List Char → Prop
  | name {w} : Lexeme.identifier w = some (w, []) → Written w
  | number {w} : Lexeme.number w = some (w, []) → Written w
  | parentheses {w} : Closes 0 w → Written ('(' :: w)

/-- How an operand begins. -/
structure Grammar.Fresh (c : Cursor) : Prop where
  head : ∃ ch r, c.rest = ch :: r ∧
    (Text.isNameStart ch = true ∨ Text.isDigit ch = true ∨ ch = '.' ∨ ch = '(')
  keyword : ∀ k ∈ Lexeme.keywords, Lexeme.keyword k c.rest = none

theorem Lexeme.identifier_word {w rest : List Char} (h : identifier x = some (w, rest)) :
    word x = some (w, rest) ∧ isKeyword w = false := by
  unfold identifier at h
  split at h
  next hword =>
    split at h
    · cases h
    next hkey =>
      cases h
      exact ⟨hword, Bool.eq_false_iff.mpr hkey⟩
  next => cases h

theorem Lexeme.identifier_none (h : word x = none) : identifier x = none := by
  unfold identifier
  rw [h]

theorem Lexeme.number_head {c : Char} {cs : List Char} {r : List Char × List Char}
    (h : number (c :: cs) = some r) : Text.isDigit c = true ∨ c = '.' := by
  by_contra hc
  obtain ⟨hdigit, hdot⟩ := not_or.mp hc
  have hzero : c ≠ '0' := by
    rintro rfl
    exact hdigit (by decide)
  have hdecimal : decimal (c :: cs) = none := by
    have hspan : (c :: cs).span Text.isDigit = ([], c :: cs) := by
      rw [List.span_eq_takeWhile_dropWhile, List.takeWhile_cons, List.dropWhile_cons, if_neg hdigit,
        if_neg hdigit]
    unfold decimal
    rw [hspan]
    simp [hdot]
  unfold number firstOf firstOf firstOf at h
  rw [hexadecimal_other hzero, hdecimal] at h
  cases h

/-- Digits begin no word. -/
theorem isNameStart_digit {c : Char} (hc : Text.isDigit c = true) : Text.isNameStart c = false := by
  have hrange : 48 ≤ c.toNat ∧ c.toNat ≤ 57 := by
    simp only [Text.isDigit, Bool.and_eq_true, decide_eq_true_eq, Char.le_def] at hc
    exact hc
  have hle : ∀ e : Char, 57 < e.toNat → ¬e ≤ c := by
    intro e he hec
    have hnat : e.toNat ≤ c.toNat := Char.le_def.mp hec
    omega
  have hne : ∀ e : Char, e.toNat < 48 ∨ 57 < e.toNat → c ≠ e := by
    rintro e he rfl
    omega
  rw [Text.isNameStart, Text.isLetter, decide_eq_false (hle 'a' (by decide)),
    decide_eq_false (hle 'A' (by decide)), decide_eq_false (hne '_' (by decide)),
    decide_eq_false (hne '$' (by decide))]
  rfl

/-- No word begins with a number. -/
theorem word_number {r : List Char × List Char} (h : Lexeme.number x = some r) :
    Lexeme.word x = none := by
  cases x with
  | nil => rfl
  | cons c cs =>
    refine Lexeme.word_none ?_ cs
    rcases Lexeme.number_head h with hc | rfl
    · exact isNameStart_digit hc
    · decide

theorem Lexeme.keyword_none (h : word x = none) (k : String) : keyword k x = none := by
  unfold keyword
  rw [h]

theorem Written.fresh (h : Written x) (hs : Apart s) (p : Position) (i : Nat) :
    Grammar.Fresh ⟨x ++ s, p, i⟩ := by
  cases h with
  | name h =>
    obtain ⟨hword, hkey⟩ := Lexeme.identifier_word h
    refine ⟨?_, fun k hk => ?_⟩
    · cases x with
      | nil => cases hword
      | cons c cs =>
        refine ⟨c, cs ++ s, rfl, .inl ?_⟩
        by_contra hc
        rw [Lexeme.word_none (Bool.eq_false_iff.mpr hc)] at hword
        cases hword
    · rw [Lexeme.keyword_steady k s hs, Option.map_eq_none_iff]
      unfold Lexeme.keyword
      rw [hword]
      refine if_neg fun heq => ?_
      rw [heq, Lexeme.isKeyword, List.any_eq_false] at hkey
      exact hkey k hk (by simp)
  | number h =>
    cases x with
    | nil => cases h
    | cons c cs =>
      have hc := Lexeme.number_head h
      refine ⟨⟨c, cs ++ s, rfl, .inr (hc.imp_right .inl)⟩, fun k _ => Lexeme.keyword_none ?_ k⟩
      rw [Lexeme.word_steady s hs, word_number h, Option.map_none]
  | parentheses h => exact ⟨⟨'(', _, rfl, by simp⟩, fun k _ =>
      Lexeme.keyword_none (Lexeme.word_none (by decide) _) k⟩

namespace Grammar

open Matcher

variable {c : Cursor}

theorem pick_fails {α : Type} {table : List (Lexeme × α)} (h : ∀ e ∈ table, e.1 c.rest = none) :
    Fails (pick table) c := by
  unfold pick
  induction table with
  | nil => rfl
  | cons entry rest ih =>
    obtain ⟨l, a⟩ := entry
    have hl : l c.rest = none := h _ List.mem_cons_self
    unfold Fails pick.go
    beta_reduce
    rw [hl]
    exact ih fun e he => h e (List.mem_cons_of_mem _ he)

/-- A token stops the skipping of trivia. -/
theorem skip_eq {ch : Char} {cs : List Char} (hrest : c.rest = ch :: cs)
    (hspace : Cursor.isSpace ch = false) (hslash : ch ≠ '/') : c.skip = c := by
  unfold Cursor.skip
  rw [hrest, Cursor.skipFrom, if_neg (by rw [hspace]; exact Bool.false_ne_true), ← hrest]
  · exact fun _ h => absurd h hslash
  · exact fun _ h => absurd h hslash

/-- An operand does not begin with a blank. -/
theorem isSpace_head {ch : Char} (hch : Text.isNameStart ch = true ∨ Text.isDigit ch = true ∨ ch = '.' ∨
    ch = '(') : Cursor.isSpace ch = false := by
  by_contra hspace
  rw [Bool.not_eq_false] at hspace
  have hne : ∀ e : Char, Text.isNameStart e = false ∧ Text.isDigit e = false ∧ e ≠ '.' ∧ e ≠ '(' →
      ch ≠ e := by
    rintro e he rfl
    simp [he] at hch
  have hcode : ∀ n, ch.toNat = n → ch = Char.ofNat n := by
    rintro n rfl
    exact (Char.ofNat_toNat ch).symm
  simp only [Cursor.isSpace, Bool.or_eq_true, decide_eq_true_eq] at hspace
  rcases hspace with ((((heq | heq) | heq) | heq) | heq) | heq
  · exact hne ' ' (by decide) heq
  · exact hne '\t' (by decide) heq
  · exact hne '\r' (by decide) heq
  · exact hne '\n' (by decide) heq
  · exact hne (Char.ofNat 0xFEFF) (by decide) (hcode _ heq)
  · exact hne (Char.ofNat 0xA0) (by decide) (hcode _ heq)

namespace Fresh

/-- Punctuation does not begin an operand. -/
theorem head_ne (h : Fresh c) {ch : Char} {cs : List Char} (hrest : c.rest = ch :: cs) {e : Char}
    (he : Text.isNameStart e = false ∧ Text.isDigit e = false ∧ e ≠ '.' ∧ e ≠ '(') : e ≠ ch := by
  rintro rfl
  obtain ⟨ch, r, hhead, hch⟩ := h.head
  rw [hrest] at hhead
  obtain ⟨rfl, -⟩ := List.cons.inj hhead
  simp [he] at hch

theorem text_fails (h : Fresh c) {piece : List Char} {e : Char}
    (he : Text.isNameStart e = false ∧ Text.isDigit e = false ∧ e ≠ '.' ∧ e ≠ '(') :
    Fails (Matcher.text (e :: piece)) c := by
  obtain ⟨ch, r, hhead, -⟩ := h.head
  unfold Fails Matcher.text
  rw [hhead, strip?, if_neg (h.head_ne hhead he)]

theorem operator_none (h : Fresh c) {piece : String} {e : Char} {cs stops : List Char}
    (hpiece : piece.toList = e :: cs)
    (he : Text.isNameStart e = false ∧ Text.isDigit e = false ∧ e ≠ '.' ∧ e ≠ '(') :
    Lexeme.operator piece stops c.rest = none := by
  obtain ⟨ch, r, hhead, -⟩ := h.head
  unfold Lexeme.operator
  rw [hhead, hpiece, strip?, if_neg (h.head_ne hhead he)]

theorem kw_fails (h : Fresh c) {k : String} (hk : k ∈ Lexeme.keywords) : Fails (kw k) c := by
  unfold Fails kw token
  rw [h.keyword k hk]

theorem unaryOps_fails (h : Fresh c) : Fails (pick unaryOps) c := by
  refine pick_fails ?_
  simp only [unaryOps, List.forall_mem_cons, List.not_mem_nil, false_imp_iff, implies_true, and_true]
  exact ⟨h.operator_none rfl (by decide), h.operator_none rfl (by decide),
    h.operator_none rfl (by decide), h.operator_none rfl (by decide), h.keyword _ (by decide),
    h.keyword _ (by decide), h.keyword _ (by decide)⟩

theorem updateOps_fails (h : Fresh c) : Fails (pick updateOps) c := by
  refine pick_fails ?_
  simp only [updateOps, List.forall_mem_cons, List.not_mem_nil, false_imp_iff, implies_true, and_true]
  exact ⟨h.operator_none rfl (by decide), h.operator_none rfl (by decide)⟩

/-- No trivia stands in front of an operand. -/
theorem skip (h : Fresh c) : c.skip = c := by
  obtain ⟨ch, r, hhead, hch⟩ := h.head
  exact skip_eq hhead (isSpace_head hch) (h.head_ne hhead (by decide)).symm

theorem functionExpr_fails (h : Fresh c) (n : Nat) : Fails (functionExpr n) c := by
  cases n with
  | zero => rfl
  | succ n =>
    rw [functionExpr]
    refine Fails.rule (Fails.andThen ?_)
    unfold Fails kw token
    dsimp only
    rw [h.keyword "function" (by decide)]

theorem thisExpr_fails (h : Fresh c) : Fails thisExpr c := (h.kw_fails (by decide)).map

theorem newExpr_fails (h : Fresh c) (n : Nat) : Fails (newExpr n) c := by
  cases n with
  | zero => rfl
  | succ n =>
    rw [newExpr]
    exact ((h.kw_fails (by decide)).andThen).rule

end Fresh

/-! ## Operands as parts of expressions -/

theorem reads_token {l : Lexeme} {w r : List Char} (hl : l c.rest = some (w, r)) :
    Reads (token l) c (fun t => t.chars = w) r c.nextFunction := by
  refine ⟨⟨⟨c.pos, (c.passText w r).pos⟩, w⟩, (c.passText w r).pos, rfl, ?_⟩
  unfold token
  rw [hl]
  rfl

theorem Fresh.string_fails (h : Fresh c) : Fails (token .string) c := by
  obtain ⟨ch, r, hhead, -⟩ := h.head
  have hquote : ¬(ch = '"' ∨ ch = '\'') := not_or.mpr
    ⟨(h.head_ne hhead (by decide)).symm, (h.head_ne hhead (by decide)).symm⟩
  unfold Fails token Lexeme.string
  rw [hhead]
  dsimp only
  rw [if_neg hquote]

theorem Fresh.literal_fails (h : Fresh c) (hnumber : Lexeme.number c.rest = none) :
    Fails literal c := by
  have htoken : Fails (token .number) c := by
    unfold Fails token
    rw [hnumber]
  refine Fails.rule (Fails.firstOf ?_)
  simp only [List.forall_mem_cons, List.not_mem_nil, false_imp_iff, implies_true, and_true]
  exact ⟨htoken.map, h.string_fails.map, (h.kw_fails (by decide)).map,
    (h.kw_fails (by decide)).map, (h.kw_fails (by decide)).map⟩

theorem primary_name {r : List Char} (h : Fresh c) (hname : Lexeme.identifier c.rest = some (x, r))
    (n : Nat) : Reads (primary (n + 1)) c (fun v => ∃ σ, v = .ok (.ident σ (String.ofList x))) r
      c.nextFunction := by
  have hnumber : Lexeme.number c.rest = none := by
    by_contra hnone
    obtain ⟨found, hfound⟩ := Option.ne_none_iff_exists'.mp hnone
    rw [Lexeme.identifier_none (word_number hfound)] at hname
    cases hname
  rw [primary]
  refine Reads.rule ?_ fun _ _ h => h
  refine .firstOf_cons (h.functionExpr_fails n) <| .firstOf_cons h.thisExpr_fails <|
    .firstOf_cons (h.literal_fails hnumber) <| .firstOf_head ?_
  refine (reads_token hname).map fun t ht => ⟨t.span, ?_⟩
  rw [Token.text, ht]

theorem primary_number {r : List Char} (h : Fresh c) (hnumber : Lexeme.number c.rest = some (x, r))
    (n : Nat) : Reads (primary (n + 1)) c
      (fun v => ∃ t : Token, t.chars = x ∧ v = do return .number t.span (← numberValue t t.span)) r
      c.nextFunction := by
  rw [primary]
  refine Reads.rule ?_ fun _ _ h => h
  refine .firstOf_cons (h.functionExpr_fails n) <| .firstOf_cons h.thisExpr_fails <|
    .firstOf_head ?_
  refine Reads.rule ?_ fun _ _ h => h
  exact .firstOf_head <| (reads_token hnumber).map fun t ht => ⟨t, ht, rfl⟩

/-- What is in parentheses, if the text begins with one. -/
theorem result_parentheses {cs : List Char} (h : Fresh c) (hrest : c.rest = '(' :: cs) (n : Nat) :
    (primary (n + 1) c).result =
      ((expression n).closedBy (sym ")") (c.passText ['('] cs).skip).result := by
  have hnumber : Lexeme.number c.rest = none := by
    by_contra hnone
    obtain ⟨found, hfound⟩ := Option.ne_none_iff_exists'.mp hnone
    rw [hrest] at hfound
    rcases Lexeme.number_head hfound with hdigit | hdot
    · exact absurd hdigit (by decide)
    · exact absurd hdot (by decide)
  have hname : Fails nameExpr c := by
    refine Fails.map ?_
    unfold Fails ident token Lexeme.identifier
    rw [hrest, Lexeme.word_none (by decide)]
  have hopen : (sym "(" c).result = some ((), c.passText ['('] cs) := by
    unfold sym Matcher.text
    rw [hrest]
    rfl
  have harray : Fails (rule (bracketed n "[" "]" (assignment n)) fun span es =>
      (return .array span (← es.mapM id) : Built Expr)) c := (h.text_fails (by decide)).andThen.rule
  have hobject : Fails (rule (bracketed n "\x7b" "\x7d" (property n)) fun span ps =>
      (return .object span (← ps.mapM id) : Built Expr)) c := (h.text_fails (by decide)).andThen.rule
  rw [primary, result_rule, result_firstOf_cons (h.functionExpr_fails n),
    result_firstOf_cons h.thisExpr_fails, result_firstOf_cons (h.literal_fails hnumber),
    result_firstOf_cons hname, result_firstOf_cons harray, result_firstOf_cons hobject,
    result_firstOf_last, result_rule, result_andThen, hopen]
  simp

/-- The parenthesis that was open in front of the text, where nothing else is open. -/
theorem last_parenthesis {δ : Nat} {k : Cursor} (hck : c.Beside s δ 0 k) :
    (sym ")" c).result = none ∨ ∃ p q, (sym ")" c).result = some ((), ⟨[], p, c.nextFunction⟩) ∧
      (sym ")" k).result = some ((), ⟨s, q, c.nextFunction + δ⟩) := by
  obtain ⟨ch, cs, hrest⟩ := List.exists_cons_of_ne_nil hck.rest_ne
  have hstrip : ∀ cs, strip? ")".toList (ch :: cs) = if ')' = ch then some cs else none :=
    fun _ => rfl
  unfold sym Matcher.text
  rw [hck.rest, hrest, List.cons_append, hstrip, hstrip]
  by_cases hch : ')' = ch
  · subst hch
    obtain rfl : cs = [] := closes_cons_last.mp (hrest ▸ hck.closes)
    rw [if_pos rfl, if_pos rfl, ← hck.next]
    exact .inr ⟨_, _, rfl, rfl⟩
  · rw [if_neg hch]
    exact .inl rfl

theorem closed_agree {α : Type} {R : α → α → Prop} {p q : Matcher α} {δ N : Nat} {k : Cursor}
    (h : Agree s δ 0 N R (p c) (q k)) : Fails (p.closedBy (sym ")")) c ∨ ∃ v w j,
      Reads (p.closedBy (sym ")")) c (· = v) [] j ∧
        Reads (q.closedBy (sym ")")) k (· = w) s (j + δ) ∧ R v w := by
  unfold Fails Reads Matcher.closedBy
  rw [result_andThen, result_andThen]
  generalize p c = a, q k = b at h
  cases h with
  | fail => exact .inl rfl
  | @found _ _ v w c₁ k₁ hvw h₁ _ =>
    dsimp only [Option.bind_some]
    rcases last_parenthesis h₁.skip with hnone | ⟨pos, pos', hleft, hright⟩
    · exact .inl (congrArg (Option.map _) hnone : _)
    · refine .inr ⟨v, w, _, ⟨v, pos, rfl, (congrArg (Option.map _) hleft : _)⟩,
        ⟨w, pos', rfl, (congrArg (Option.map _) hright : _)⟩, hvw⟩

/-- **An operand is read the same on its own and in front of other text.** On its own it may also be
refused. -/
theorem primary_written (h : Written x) (hs : Apart s) {p q : Position} {i δ n m : Nat}
    (hn : 32 * x.length + 2 ≤ n) (hm : 32 * x.length + 2 ≤ m) :
    (Fails (primary n) ⟨x, p, i⟩) ∨ ∃ v w j, Reads (primary n) ⟨x, p, i⟩ (· = v) [] j ∧
      Reads (primary m) ⟨x ++ s, q, i + δ⟩ (· = w) s (j + δ) ∧ Same Expr.bare δ v w := by
  have hfresh : Fresh ⟨x, p, i⟩ := by
    have hnil := h.fresh (.inl rfl) p i
    rwa [List.append_nil] at hnil
  have hfresh' := h.fresh hs q (i + δ)
  obtain ⟨n, rfl⟩ : ∃ n', n = n' + 1 := ⟨n - 1, by omega⟩
  obtain ⟨m, rfl⟩ : ∃ m', m = m' + 1 := ⟨m - 1, by omega⟩
  cases h with
  | name h =>
    obtain ⟨_, pos, ⟨σ, rfl⟩, hread⟩ := primary_name hfresh h n
    have h' : Lexeme.identifier (x ++ s) = some (x, s) := by
      rw [Lexeme.identifier_steady s hs, h]
      rfl
    obtain ⟨_, pos', ⟨τ, rfl⟩, hread'⟩ := primary_name hfresh' h' m
    refine .inr ⟨_, _, _, ⟨_, pos, rfl, hread⟩, ⟨_, pos', rfl, hread'⟩, .built ?_⟩
    rw [Expr.bare, Expr.bare]
  | number h =>
    obtain ⟨_, pos, ⟨t, ht, rfl⟩, hread⟩ := primary_number hfresh h n
    have h' : Lexeme.number (x ++ s) = some (x, s) := by
      rw [Lexeme.number_steady s hs, h]
      rfl
    obtain ⟨_, pos', ⟨u, hu, rfl⟩, hread'⟩ := primary_number hfresh' h' m
    refine .inr ⟨_, _, _, ⟨_, pos, rfl, hread⟩, ⟨_, pos', rfl, hread'⟩, ?_⟩
    refine Same.bind (same_numberValue (ht.trans hu.symm) _ _) fun x y hxy => Same.pure ?_
    rw [Expr.bare, Expr.bare, show x = y from hxy]
  | @parentheses u h =>
    rw [List.length_cons] at hn hm
    have hck : Cursor.Beside s δ 0 ((⟨'(' :: u, p, i⟩ : Cursor).passText ['('] u)
        ((⟨'(' :: u ++ s, q, i + δ⟩ : Cursor).passText ['('] (u ++ s)) := ⟨rfl, rfl, h⟩
    have hlength := hck.length_skip
    change _ ≤ u.length at hlength
    have hagree := agree_expression (n := n) (m := m) (shorter s δ _) ⟨by omega, by omega⟩ hck.skip
      (Nat.le_refl _)
    have hleft := result_parentheses hfresh rfl n
    have hright := result_parentheses hfresh' rfl m
    rcases closed_agree hagree with hfails | ⟨_, _, j, ⟨v, pos, rfl, hv⟩, ⟨w, pos', rfl, hw⟩, hvw⟩
    · exact .inl (hleft.trans hfails)
    · exact .inr ⟨v, w, j, ⟨v, pos, rfl, hleft.trans hv⟩, ⟨w, pos', rfl, hright.trans hw⟩, hvw⟩

end Grammar

end Fermata
