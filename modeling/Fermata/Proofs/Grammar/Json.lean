import Fermata.Proofs.Grammar.Single
import Fermata.Proofs.Json.Data

/-!
# JSON as source text

The text of data is an operand: every text in quotes is a string token that denotes the text, and arrays,
objects and the three words are literals of the same shape as the tree. Behind it stands nothing, a comma
or a closing bracket, so no operator goes on with it.

* `Literal.string_quote`: the token in quotes denotes the text.
* `Expr.Spells`: a literal that is made like a tree.
* **`Grammar.primary_json`**: the text of data is read as such a literal.
* **`Grammar.parse_json`**: in parentheses it is a program, of one statement with this literal.
-/

namespace Fermata

/-! ## Texts in quotes -/

namespace Literal

theorem unescape_control {n : Nat} (hn : n < 0x20) (rest : List Char) :
    unescape ('\\' :: 'u' :: '0' :: '0' :: hexDigit (n / 16) :: hexDigit (n % 16) :: rest) =
      Char.ofNat n :: unescape rest := by
  have hcoded : ∀ n < 0x20, coded ['0', '0', hexDigit (n / 16), hexDigit (n % 16)] = [Char.ofNat n] := by
    decide +kernel
  rw [unescape]
  · simp only [List.take_succ_cons, List.take_zero, List.drop_succ_cons, List.drop_zero]
    rw [hcoded n hn]
    rfl
  · rintro _ ⟨⟩

/-- What is written for a character denotes it. -/
theorem unescape_escapeChar (c : Char) (rest : List Char) :
    unescape (Json.escapeChar c ++ rest) = c :: unescape rest := by
  have hpaired : ∀ p ∈ Json.paired, p.1 ≠ 'x' ∧ p.1 ≠ 'u' ∧ escaped p.1 = [p.2] := by decide
  have hc := Json.escapes_escapeChar c
  generalize Json.escapeChar c = w at hc ⊢
  cases hc with
  | pair he =>
    obtain ⟨hx, hu, hescaped⟩ := hpaired _ he
    dsimp only at hx hu hescaped
    rw [List.cons_append, List.cons_append, List.nil_append, unescape, hescaped]
    · rfl
    all_goals
      intros
      contradiction
  | control hcontrol =>
    rw [List.cons_append]
    have hread := unescape_control hcontrol rest
    rwa [Char.ofNat_toNat] at hread
  | plain _ hback _ => rw [List.singleton_append, unescape] <;> intros <;> contradiction

theorem unescape_escape (cs : List Char) : unescape (cs.flatMap Json.escapeChar) = cs := by
  induction cs with
  | nil => simp [unescape]
  | cons c cs ih => rw [List.flatMap_cons, unescape_escapeChar, ih]

/-- **A text in quotes denotes the text**, whatever characters it has. -/
theorem string_quote (s : String) : string (Json.quote s).toList = s := by
  rw [string, Json.toList_quote, List.drop_one, List.tail_cons, List.dropLast_concat, unescape_escape,
    String.ofList_toList]

end Literal

namespace Lexeme

/-- A character inside a string that does nothing. -/
theorem insideString_plain {c : Char} (hc : c ≠ '"' ∧ c ≠ '\\' ∧ c ≠ '\n') (rest : List Char) :
    insideString '"' (c :: rest) = (insideString '"' rest).map fun r => (c :: r.1, r.2) := by
  rw [insideString, if_neg hc.1, if_neg (by simp [hc])]
  rintro e cs rfl -
  exact hc.2.1 rfl

theorem insideString_escapeChar (c : Char) (rest : List Char) :
    insideString '"' (Json.escapeChar c ++ rest) =
      (insideString '"' rest).map fun r => (Json.escapeChar c ++ r.1, r.2) := by
  have hdigit : ∀ n < 16, hexDigit n ≠ '"' ∧ hexDigit n ≠ '\\' ∧ hexDigit n ≠ '\n' := by decide
  have hc := Json.escapes_escapeChar c
  generalize Json.escapeChar c = w at hc ⊢
  cases hc with
  | pair _ =>
    rw [List.cons_append, List.cons_append, List.nil_append, insideString]
    rfl
  | control hcontrol =>
    have hhigh := hdigit (c.toNat / 16) (by omega)
    have hlow := hdigit (c.toNat % 16) (by omega)
    simp only [List.cons_append, List.nil_append]
    rw [insideString, insideString_plain (by decide), insideString_plain (by decide),
      insideString_plain hhigh, insideString_plain hlow]
    simp only [Option.map_map, Function.comp_def]
  | plain hquote hback hlow =>
    refine insideString_plain ⟨hquote, hback, ?_⟩ rest
    rintro rfl
    exact absurd hlow (by decide)

theorem insideString_escape (cs rest : List Char) :
    insideString '"' (cs.flatMap Json.escapeChar ++ '"' :: rest) =
      some (cs.flatMap Json.escapeChar ++ ['"'], rest) := by
  induction cs with
  | nil => simp [insideString]
  | cons c cs ih =>
    rw [List.flatMap_cons, List.append_assoc, insideString_escapeChar, ih, Option.map_some,
      List.append_assoc]

/-- A text in quotes is one token. -/
theorem string_quote (s : String) (rest : List Char) :
    string ((Json.quote s).toList ++ rest) = some ((Json.quote s).toList, rest) := by
  rw [Json.toList_quote, List.cons_append, List.append_assoc, List.singleton_append, string,
    if_pos (.inl rfl), insideString_escape, Option.map_some]

end Lexeme

/-! ## Literals -/

/-- The literal is made like the tree. -/
inductive Expr.Spells : Expr → Json → Prop
  | null (σ : Span) : Spells (.null σ) .null
  | bool (σ : Span) (b : Bool) : Spells (.bool σ b) (.bool b)
  | string (σ : Span) (s : String) : Spells (.string σ s) (.string s)
  | array (σ : Span) {es : List Expr} {js : List Json} : es.length = js.length →
      (∀ e j, (e, j) ∈ es.zip js → Spells e j) → Spells (.array σ es) (.array js)
  | object (σ : Span) {ps : List PropertyDef} {ms : List (String × Json)} : ps.length = ms.length →
      (∀ p m, (p, m) ∈ ps.zip ms → p.key = m.1) →
      (∀ p m, (p, m) ∈ ps.zip ms → Spells p.value m.2) → Spells (.object σ ps) (.object ms)

/-- The property is made like the member. -/
def PropertyDef.Spells (p : PropertyDef) (m : String × Json) : Prop :=
  p.key = m.1 ∧ p.value.Spells m.2

theorem Expr.spells_array (σ : Span) {es : List Expr} {js : List Json}
    (h : List.Forall₂ Expr.Spells es js) : (Expr.array σ es).Spells (.array js) :=
  .array σ h.length_eq fun _ _ hmem => List.forall₂_zip h hmem

theorem Expr.spells_object (σ : Span) {ps : List PropertyDef} {ms : List (String × Json)}
    (h : List.Forall₂ PropertyDef.Spells ps ms) : (Expr.object σ ps).Spells (.object ms) :=
  .object σ h.length_eq (fun _ _ hmem => (List.forall₂_zip h hmem).1)
    fun _ _ hmem => (List.forall₂_zip h hmem).2

namespace Grammar

open Matcher

variable {c : Cursor} {α β : Type} {P : Built Expr → Prop} {t : List Char} {i n : Nat}

/-! ### Behind a literal -/

/-- Nothing, a comma or a closing bracket. -/
def Ended (t : List Char) : Prop :=
  t = [] ∨ ∃ r, t = ',' :: r ∨ t = ']' :: r ∨ t = '\x7d' :: r ∨ t = ')' :: r

theorem Ended.stop (ht : Ended t) : Stop t := by
  rcases ht with rfl | ⟨r, rfl | rfl | rfl | rfl⟩
  · exact stop_nil
  all_goals exact ⟨fun _ _ => rfl, by simp, none_of_all rfl, none_of_all rfl⟩

/-- All tables fail if each entry does, which can be computed. -/
theorem none_of_all_tables {tables : List (List (Lexeme × α))}
    (h : (tables.all fun table => table.all fun entry => (entry.1 t).isNone) = true) :
    ∀ table ∈ tables, ∀ entry ∈ table, entry.1 t = none :=
  fun table htable => none_of_all (List.all_eq_true.mp h table htable)

theorem Ended.precedence (ht : Ended t) :
    ∀ table ∈ precedence, ∀ entry ∈ table, entry.1 t = none := by
  rcases ht with rfl | ⟨r, rfl | rfl | rfl | rfl⟩ <;> exact none_of_all_tables rfl

theorem Ended.power_fails (ht : Ended t) (pos : Position) (i : Nat) : Fails power ⟨t, pos, i⟩ := by
  rcases ht with rfl | ⟨r, rfl | rfl | rfl | rfl⟩ <;> rfl

theorem Ended.question_fails (ht : Ended t) (pos : Position) (i : Nat) : Fails (sym "?") ⟨t, pos, i⟩ := by
  rcases ht with rfl | ⟨r, rfl | rfl | rfl | rfl⟩ <;> rfl

/-- An operand that is all of an expression. -/
theorem assignment_operand (hc : Unprefixed c) (h : Reads (primary n) c P t i) (ht : Ended t)
    (hn : 15 ≤ n) : Reads (assignment (n + 2)) c P t i := by
  have hstop := ht.stop
  have hlhs := lhsExpr_alone hc h hstop.skips hstop
  have hunary : ∀ m, Reads (unary (m + 2) (some (lhsExpr (n + 1) c))) c P t i :=
    fun m => unary_alone hc hlhs hstop
  have hlevel := levels_alone hunary hstop.skips (fun pos => ht.power_fails pos i) precedence
    ht.precedence (n - 15)
  rw [show n - 15 + 2 + 2 + precedence.length = n by
    rw [show precedence.length = 11 from rfl]; omega] at hlevel
  exact assignment_alone hlhs hstop
    (conditional_alone hlevel hstop.skips fun pos => ht.question_fails pos i)

/-! ### Lists in brackets -/

/-- The characters that close a list. -/
structure Brackets (opening closing : String) (o e : Char) : Prop where
  opens : ∀ x pos i, Reads (sym opening) ⟨o :: x, pos, i⟩ (fun _ => True) x i
  closes : ∀ x pos i, Reads (sym closing) ⟨e :: x, pos, i⟩ (fun _ => True) x i
  ended : ∀ x, Ended (e :: x)
  comma : ∀ x pos i, Fails (sym ",") ⟨e :: x, pos, i⟩

theorem brackets_array : Brackets "[" "]" '[' ']' where
  opens _ _ _ := ⟨_, _, trivial, rfl⟩
  closes _ _ _ := ⟨_, _, trivial, rfl⟩
  ended x := .inr ⟨x, .inr (.inl rfl)⟩
  comma _ _ _ := rfl

theorem brackets_object : Brackets "\x7b" "\x7d" '\x7b' '\x7d' where
  opens _ _ _ := ⟨_, _, trivial, rfl⟩
  closes _ _ _ := ⟨_, _, trivial, rfl⟩
  ended x := .inr ⟨x, .inr (.inr (.inl rfl))⟩
  comma _ _ _ := rfl

section Lists

variable {p : Matcher α} {w : β → List Char} {R : α → β → Prop} {b : β} {bs : List β}
  {opening closing : String} {o e : Char}

/-- The text of an element is read in front of what ends it. -/
structure Element (p : Matcher α) (w : β → List Char) (R : α → β → Prop) (i : Nat) (b : β) :
    Prop where
  reads : ∀ t pos, Ended t → Reads p ⟨w b ++ t, pos, i⟩ (R · b) t i
  skips : ∀ t, Ended t → Skips (w b ++ t) (w b ++ t)

/-- The elements behind the first one, each behind a comma. -/
theorem reads_elements (hbrackets : Brackets opening closing o e)
    (hbs : ∀ b ∈ bs, Element p w R i b) (fuel : Nat) (hfuel : bs.length ≤ fuel) (pos : Position) :
    Reads (more ((sym ",").before p) fuel) ⟨(bs.flatMap fun b => ',' :: w b) ++ e :: t, pos, i⟩
      (List.Forall₂ R · bs) (e :: t) i := by
  induction bs generalizing fuel pos with
  | nil =>
    refine (reads_more_nil ((hbrackets.ended t).stop.skip pos i) (hbrackets.comma t pos i).before fuel).mono ?_
    rintro _ rfl
    exact .nil
  | cons b bs ih =>
    obtain ⟨fuel, rfl⟩ : ∃ m, fuel = m + 1 := by
      rw [List.length_cons] at hfuel
      exact ⟨fuel - 1, by omega⟩
    have hb := hbs b List.mem_cons_self
    have hended : Ended ((bs.flatMap fun b => ',' :: w b) ++ e :: t) := by
      cases bs with
      | nil => exact hbrackets.ended t
      | cons b' bs => exact .inr ⟨_, .inl rfl⟩
    rw [List.flatMap_cons, List.cons_append, List.cons_append, List.append_assoc]
    refine reads_more_cons (P := (R · b)) (Ended.stop (.inr ⟨_, .inl rfl⟩) |>.skip pos i) ?_
      fun v hv pos => (ih (fun b' hb' => hbs b' (List.mem_cons_of_mem b hb')) fuel
        (Nat.le_of_succ_le_succ hfuel) pos).mono fun vs hvs => .cons hv hvs
    have hcomma : Reads (sym ",") ⟨',' :: (w b ++ ((bs.flatMap fun b => ',' :: w b) ++ e :: t)),
        pos, i⟩ (fun _ => True) (w b ++ ((bs.flatMap fun b => ',' :: w b) ++ e :: t)) i :=
      ⟨_, _, trivial, rfl⟩
    exact hcomma.andThen (hb.skips _ hended) fun _ _ pos => hb.reads _ pos hended

/-- A list with elements. -/
theorem reads_bracketed_cons (hbrackets : Brackets opening closing o e)
    (hbs : ∀ b' ∈ b :: bs, Element p w R i b') (hn : bs.length ≤ n) (pos : Position) :
    Reads (bracketed n opening closing p)
      ⟨o :: (w b ++ ((bs.flatMap fun b => ',' :: w b) ++ e :: t)), pos, i⟩
      (List.Forall₂ R · (b :: bs)) t i := by
  have hb := hbs b List.mem_cons_self
  have hended : Ended ((bs.flatMap fun b => ',' :: w b) ++ e :: t) := by
    cases bs with
    | nil => exact hbrackets.ended t
    | cons b' bs => exact .inr ⟨_, .inl rfl⟩
  have hclosing := (hbrackets.ended t).stop
  have hlist : ∀ pos, Reads (commaList n p)
      ⟨w b ++ ((bs.flatMap fun b => ',' :: w b) ++ e :: t), pos, i⟩
      (List.Forall₂ R · (b :: bs)) (e :: t) i := fun pos =>
    (hb.reads _ pos hended).andThen hended.stop.skips fun v hv pos =>
      (reads_many_of_more (hended.stop.skip pos i) (reads_elements hbrackets
        (fun b' hb' => hbs b' (List.mem_cons_of_mem b hb')) (n + 1) (Nat.le_succ_of_le hn) pos)).map
          fun vs hvs => .cons hv hvs
  refine (hbrackets.opens _ pos i).andThen (hb.skips _ hended) fun _ _ pos => ?_
  refine Reads.andThen (P := fun vs => List.Forall₂ R vs (b :: bs)) (x := e :: t) (i := i) ?_
    hclosing.skips fun vs hvs pos => (hbrackets.closes t pos i).map fun _ _ => hvs
  refine Reads.map (P := fun found => ∃ vs, found = some vs ∧ List.Forall₂ R vs (b :: bs)) ?_ ?_
  · refine .optional_some ((hlist pos).andThen hclosing.skips fun vs hvs pos => ?_)
    exact (Reads.optional_none (hbrackets.comma t pos i)).map fun _ _ => ⟨vs, rfl, hvs⟩
  · rintro _ ⟨vs, rfl, hvs⟩
    exact hvs

/-- A list without elements. -/
theorem reads_bracketed_nil (hbrackets : Brackets opening closing o e)
    (hp : ∀ pos, Fails p ⟨e :: t, pos, i⟩) (pos : Position) :
    Reads (bracketed n opening closing p) ⟨o :: e :: t, pos, i⟩ (· = []) t i := by
  have hclosing := (hbrackets.ended t).stop
  refine (hbrackets.opens _ pos i).andThen hclosing.skips fun _ _ pos => ?_
  refine Reads.andThen (P := (· = [])) (x := e :: t) (i := i) ?_ hclosing.skips fun vs hvs pos =>
    (hbrackets.closes t pos i).map fun _ _ => hvs
  refine (Reads.optional_none (hp pos).andThen.closedBy).map ?_
  rintro _ rfl
  rfl

end Lists

/-! ### Where no element begins -/

theorem bland_bracket (t : List Char) (pos : Position) (i : Nat) : Bland ⟨']' :: t, pos, i⟩ where
  skip := rfl
  words k _ := Lexeme.keyword_none (Lexeme.word_none (by decide) t) k
  brace := rfl
  semicolon := rfl
  unaryOps := rfl
  updateOps := rfl

theorem primary_bracket (t : List Char) (pos : Position) (i n : Nat) :
    Fails (primary n) ⟨']' :: t, pos, i⟩ := by
  cases n with
  | zero => rfl
  | succ n =>
    rw [primary]
    refine Fails.rule (Fails.firstOf ?_)
    simp only [List.forall_mem_cons, List.not_mem_nil, false_imp_iff, implies_true, and_true]
    refine ⟨?_, rfl, rfl, rfl, rfl, rfl, rfl⟩
    cases n <;> rfl

theorem property_brace (t : List Char) (pos : Position) (i n : Nat) :
    Fails (property n) ⟨'\x7d' :: t, pos, i⟩ := by
  cases n with
  | zero => rfl
  | succ n =>
    rw [property]
    exact Fails.rule (Fails.or (Fails.andThen rfl) (Fails.map rfl))

/-! ### The text of a tree -/

open Json (chars memberText moreItems moreMembers escapeChar quote toList_quote)

variable {j : Json} {pos : Position} {Q : List String → Prop}

theorem word_ended {w : List Char} (hw : w ∈ ["null".toList, "true".toList, "false".toList])
    (ht : Ended t) : Lexeme.word (w ++ t) = some (w, t) := by
  simp only [List.mem_cons, List.not_mem_nil, or_false] at hw
  rcases hw with rfl | rfl | rfl <;> rcases ht with rfl | ⟨r, rfl | rfl | rfl | rfl⟩ <;> rfl

/-- No operator and no keyword but the three words stands in front of a tree. -/
structure Begins (c : Cursor) : Prop where
  skip : c.skip = c
  words : ∀ k ∈ ["function", "this", "new", "typeof", "void", "delete"], Lexeme.keyword k c.rest = none
  number : Lexeme.number c.rest = none
  unaryOps : ∀ entry ∈ unaryOps.take 4, entry.1 c.rest = none
  updateOps : Fails (pick updateOps) c

theorem begins_punctuation {ch : Char} (hch : ch = '"' ∨ ch = '[' ∨ ch = '\x7b') (r : List Char)
    (pos : Position) (i : Nat) : Begins ⟨ch :: r, pos, i⟩ := by
  rcases hch with rfl | rfl | rfl <;>
    exact ⟨rfl, fun k _ => Lexeme.keyword_none (Lexeme.word_none (by decide) r) k, rfl, none_of_all rfl,
      rfl⟩

theorem begins_word {w : List Char} (hw : w ∈ ["null".toList, "true".toList, "false".toList])
    (ht : Ended t) (pos : Position) (i : Nat) : Begins ⟨w ++ t, pos, i⟩ := by
  have hne : ∀ k ∈ ["function", "this", "new", "typeof", "void", "delete"],
      ∀ w ∈ ["null".toList, "true".toList, "false".toList], w ≠ k.toList := by decide
  have hwords : ∀ k ∈ ["function", "this", "new", "typeof", "void", "delete"],
      Lexeme.keyword k (w ++ t) = none := by
    intro k hk
    unfold Lexeme.keyword
    rw [word_ended hw ht]
    exact if_neg (hne k hk w hw)
  simp only [List.mem_cons, List.not_mem_nil, or_false] at hw
  rcases hw with rfl | rfl | rfl <;> exact ⟨rfl, hwords, rfl, none_of_all rfl, rfl⟩

theorem begins_json (hj : j.DataWith Q) (ht : Ended t) (pos : Position) (i : Nat) :
    Begins ⟨chars j ++ t, pos, i⟩ := by
  cases hj with
  | null => exact begins_word (by decide) ht pos i
  | bool b => cases b <;> exact begins_word (by decide) ht pos i
  | string s =>
    rw [chars, Json.compact, toList_quote]
    exact begins_punctuation (.inl rfl) _ pos i
  | @array items =>
    cases items with
    | nil => exact begins_punctuation (.inr (.inl rfl)) _ pos i
    | cons j js =>
      rw [Json.chars_array_cons]
      exact begins_punctuation (.inr (.inl rfl)) _ pos i
  | @object members =>
    cases members with
    | nil => exact begins_punctuation (.inr (.inr rfl)) _ pos i
    | cons m ms =>
      rw [Json.chars_object_cons]
      exact begins_punctuation (.inr (.inr rfl)) _ pos i

theorem kw_fails_of {k : String} (h : Lexeme.keyword k c.rest = none) : Fails (kw k) c := by
  unfold Fails kw token
  rw [h]

theorem Begins.unprefixed (h : Begins c) : Unprefixed c where
  new := kw_fails_of (h.words "new" (by decide))
  unaryOps := by
    refine pick_fails ?_
    rw [← List.take_append_drop 4 Grammar.unaryOps]
    refine List.forall_mem_append.mpr ⟨h.unaryOps, ?_⟩
    simp only [Grammar.unaryOps, List.drop_succ_cons, List.drop_zero, List.forall_mem_cons,
      List.not_mem_nil, false_imp_iff, implies_true, and_true]
    exact ⟨h.words _ (by decide), h.words _ (by decide), h.words _ (by decide)⟩
  updateOps := h.updateOps

theorem Begins.functionExpr_fails (h : Begins c) (n : Nat) : Fails (functionExpr n) c := by
  cases n with
  | zero => rfl
  | succ n =>
    rw [functionExpr]
    exact (kw_fails_of (c := { c with nextFunction := c.nextFunction + 1 })
      (h.words "function" (by decide))).andThen.rule

theorem Begins.thisExpr_fails (h : Begins c) : Fails thisExpr c :=
  (kw_fails_of (h.words "this" (by decide))).map

theorem Begins.number_fails (h : Begins c) : Fails (token .number) c := by
  unfold Fails token
  rw [h.number]

/-- A literal of one token is an operand. -/
theorem Begins.primary_literal (h : Begins c) (hread : Reads literal c P t i) (n : Nat) :
    Reads (primary (n + 1)) c P t i := by
  rw [primary]
  refine Reads.rule (P := P) ?_ fun _ _ hv => hv
  exact .firstOf_cons (h.functionExpr_fails n) <| .firstOf_cons h.thisExpr_fails <| .firstOf_head hread

/-- What is read for a tree. -/
def Means (j : Json) (v : Built Expr) : Prop := ∃ e, v = .ok e ∧ e.Spells j

theorem reads_kw {k : String} {w : List Char} (hw : w ∈ ["null".toList, "true".toList, "false".toList])
    (hk : w = k.toList) (ht : Ended t) (pos : Position) (i : Nat) :
    Reads (kw k) ⟨w ++ t, pos, i⟩ (fun _ => True) t i := by
  refine (reads_token (w := w) (r := t) ?_).mono fun _ _ => trivial
  unfold Lexeme.keyword
  dsimp only
  rw [word_ended hw ht]
  exact if_pos hk

/-- A text in quotes, as the token that is read. -/
theorem reads_quote (s : String) (t : List Char) (pos : Position) (i : Nat) :
    Reads (token .string) ⟨(quote s).toList ++ t, pos, i⟩ (fun tok => tok.chars = (quote s).toList) t i :=
  reads_token (c := ⟨(quote s).toList ++ t, pos, i⟩) (Lexeme.string_quote s t)

theorem literal_string (s : String) (t : List Char) (pos : Position) (i : Nat) :
    Reads literal ⟨(quote s).toList ++ t, pos, i⟩ (Means (.string s)) t i := by
  have hbegins : Begins ⟨(quote s).toList ++ t, pos, i⟩ := by
    rw [toList_quote]
    exact begins_punctuation (.inl rfl) _ pos i
  refine Reads.rule (P := Means (.string s)) ?_ fun _ _ hv => hv
  refine .firstOf_cons hbegins.number_fails.map <| .firstOf_head ?_
  refine (reads_quote s t pos i).map fun tok htok => ?_
  rw [htok, Literal.string_quote]
  exact ⟨_, rfl, .string _ s⟩

theorem string_fails_word {w : List Char} (hw : w ∈ ["null".toList, "true".toList, "false".toList])
    (t : List Char) (pos : Position) (i : Nat) : Fails (token .string) ⟨w ++ t, pos, i⟩ := by
  simp only [List.mem_cons, List.not_mem_nil, or_false] at hw
  rcases hw with rfl | rfl | rfl <;> rfl

theorem kw_fails_word {k : String} {w : List Char}
    (hw : w ∈ ["null".toList, "true".toList, "false".toList]) (hk : w ≠ k.toList) (ht : Ended t)
    (pos : Position) (i : Nat) : Fails (kw k) ⟨w ++ t, pos, i⟩ := by
  refine kw_fails_of ?_
  unfold Lexeme.keyword
  dsimp only
  rw [word_ended hw ht]
  exact if_neg hk

theorem literal_null (ht : Ended t) (pos : Position) (i : Nat) :
    Reads literal ⟨"null".toList ++ t, pos, i⟩ (Means .null) t i := by
  have hw : "null".toList ∈ ["null".toList, "true".toList, "false".toList] := by decide
  refine Reads.rule (P := Means .null) ?_ fun _ _ hv => hv
  refine .firstOf_cons (begins_word hw ht pos i).number_fails.map <|
    .firstOf_cons (string_fails_word hw t pos i).map <|
    .firstOf_cons (kw_fails_word hw (by decide) ht pos i).map <|
    .firstOf_cons (kw_fails_word hw (by decide) ht pos i).map <| .firstOf_head ?_
  exact (reads_kw hw rfl ht pos i).map fun tok _ => ⟨_, rfl, .null _⟩

theorem literal_true (ht : Ended t) (pos : Position) (i : Nat) :
    Reads literal ⟨"true".toList ++ t, pos, i⟩ (Means (.bool true)) t i := by
  have hw : "true".toList ∈ ["null".toList, "true".toList, "false".toList] := by decide
  refine Reads.rule (P := Means (.bool true)) ?_ fun _ _ hv => hv
  refine .firstOf_cons (begins_word hw ht pos i).number_fails.map <|
    .firstOf_cons (string_fails_word hw t pos i).map <| .firstOf_head ?_
  exact (reads_kw hw rfl ht pos i).map fun tok _ => ⟨_, rfl, .bool _ true⟩

theorem literal_false (ht : Ended t) (pos : Position) (i : Nat) :
    Reads literal ⟨"false".toList ++ t, pos, i⟩ (Means (.bool false)) t i := by
  have hw : "false".toList ∈ ["null".toList, "true".toList, "false".toList] := by decide
  refine Reads.rule (P := Means (.bool false)) ?_ fun _ _ hv => hv
  refine .firstOf_cons (begins_word hw ht pos i).number_fails.map <|
    .firstOf_cons (string_fails_word hw t pos i).map <|
    .firstOf_cons (kw_fails_word hw (by decide) ht pos i).map <| .firstOf_head ?_
  exact (reads_kw hw rfl ht pos i).map fun tok _ => ⟨_, rfl, .bool _ false⟩

/-- Parts that were all built. -/
theorem mapM_built {R : α → β → Prop} {vs : List (Built α)} {bs : List β}
    (h : List.Forall₂ (fun v b => ∃ a, v = .ok a ∧ R a b) vs bs) :
    ∃ as, (vs.mapM id : Built (List α)) = .ok as ∧ List.Forall₂ R as bs := by
  induction h with
  | nil => exact ⟨[], rfl, .nil⟩
  | @cons _ b vs bs hv _ ih =>
    obtain ⟨a, rfl, ha⟩ := hv
    obtain ⟨as, has, hall⟩ := ih
    refine ⟨a :: as, ?_, .cons ha hall⟩
    rw [List.mapM_cons, has]
    rfl

theorem element_item (hj : j.DataWith Q) (hn : 15 ≤ n)
    (h : ∀ t pos, Ended t → Reads (primary n) ⟨chars j ++ t, pos, i⟩ (Means j) t i) :
    Element (assignment (n + 2)) chars (fun v j => Means j v) i j where
  reads t pos ht := assignment_operand (begins_json hj ht pos i).unprefixed (h t pos ht) ht hn
  skips _ ht pos i := ⟨pos, (begins_json hj ht pos i).skip⟩

/-- What is read for a member. -/
def MeansMember (m : String × Json) (v : Built PropertyDef) : Prop := ∃ p, v = .ok p ∧ p.Spells m

theorem memberText_eq (name : String) (j : Json) (t : List Char) :
    memberText name j ++ t = (quote name).toList ++ ':' :: (chars j ++ t) := by
  simp [memberText, toList_quote]

theorem element_member {m : String × Json} (hj : m.2.DataWith Q) (hn : 15 ≤ n)
    (h : ∀ t pos, Ended t → Reads (primary n) ⟨chars m.2 ++ t, pos, i⟩ (Means m.2) t i) :
    Element (property (n + 3)) (fun m => memberText m.1 m.2) (fun v m => MeansMember m v) i m where
  reads t pos ht := by
    obtain ⟨name, j⟩ := m
    have hkey : ∀ t pos, Reads propertyKey ⟨(quote name).toList ++ t, pos, i⟩
        (fun key => ∀ σ, key σ = .ok name) t i := by
      intro t pos
      refine Reads.rule (P := fun key => ∀ σ, key σ = .ok name) ?_ fun _ _ hv => hv
      refine .firstOf_head ((reads_quote name t pos i).map fun tok htok σ => ?_)
      rw [htok, Literal.string_quote]
    have hcolon : ∀ x pos, Reads (sym ":") ⟨':' :: x, pos, i⟩ (fun _ => True) x i :=
      fun _ _ => ⟨_, _, trivial, rfl⟩
    rw [memberText_eq, property]
    refine Reads.rule (P := fun node => ∀ σ, MeansMember (name, j) (node σ)) ?_ fun σ _ hv => hv σ
    refine .or_left <| Reads.andThen (P := fun key => ∀ σ, key σ = .ok name)
      (x := chars j ++ t) (i := i) ?_ (fun pos i => ⟨pos, (begins_json hj ht pos i).skip⟩) ?_
    · refine (hkey _ pos).andThen (fun pos i => ⟨pos, rfl⟩) fun key hv pos => ?_
      exact (hcolon _ pos).map fun _ _ => hv
    · intro key hv pos
      refine ((element_item hj hn h).reads t pos ht).map ?_
      rintro _ ⟨e, rfl, he⟩ σ
      refine ⟨⟨name, e, σ⟩, ?_, rfl, he⟩
      beta_reduce
      rw [hv]
      rfl
  skips t ht pos i := by
    rw [memberText_eq, toList_quote]
    exact ⟨pos, rfl⟩

theorem length_flatMap_le {w : β → List Char} {bs : List β} {b : β} (hb : b ∈ bs) :
    (w b).length + 1 ≤ (bs.flatMap fun b => ',' :: w b).length := by
  induction bs with
  | nil => cases hb
  | cons b' bs ih =>
    rw [List.flatMap_cons, List.length_append, List.length_cons]
    rcases List.mem_cons.mp hb with rfl | hb
    · omega
    · have := ih hb
      omega

theorem length_le_flatMap (w : β → List Char) (bs : List β) :
    bs.length ≤ (bs.flatMap fun b => ',' :: w b).length := by
  induction bs with
  | nil => exact Nat.le_refl 0
  | cons b bs ih =>
    rw [List.flatMap_cons, List.length_append, List.length_cons, List.length_cons]
    omega

/-- Each element is shorter than the list, by the brackets. -/
theorem length_element_le {w : β → List Char} {b b' : β} {bs : List β} {o e : Char}
    (hb : b' ∈ b :: bs) : (w b').length + 2 ≤
      (o :: (w b ++ ((bs.flatMap fun b => ',' :: w b) ++ [e]))).length := by
  rw [List.length_cons, List.length_append, List.length_append, List.length_singleton]
  rcases List.mem_cons.mp hb with rfl | hb
  · omega
  · have := length_flatMap_le (w := w) hb
    omega

theorem length_memberText (name : String) (j : Json) :
    (chars j).length + 3 ≤ (memberText name j).length := by
  simp only [memberText, List.length_cons, List.length_append]
  omega

theorem literal_fails_bracket {ch : Char} (hch : ch = '[' ∨ ch = '\x7b') (r : List Char) (pos : Position)
    (i : Nat) : Fails literal ⟨ch :: r, pos, i⟩ := by
  refine Fails.rule (Fails.firstOf ?_)
  simp only [List.forall_mem_cons, List.not_mem_nil, false_imp_iff, implies_true, and_true]
  rcases hch with rfl | rfl <;> exact ⟨rfl, rfl, rfl, rfl, rfl⟩

/-- A list of items is an operand. -/
theorem primary_array {r : List Char} {js : List Json}
    (h : Reads (bracketed n "[" "]" (assignment n)) ⟨'[' :: r, pos, i⟩
      (List.Forall₂ (fun v j => Means j v) · js) t i) :
    Reads (primary (n + 1)) ⟨'[' :: r, pos, i⟩ (Means (.array js)) t i := by
  have hbegins := begins_punctuation (.inr (.inl rfl)) r pos i
  rw [primary]
  refine Reads.rule (P := Means (.array js)) ?_ fun _ _ hv => hv
  refine .firstOf_cons (hbegins.functionExpr_fails n) <| .firstOf_cons hbegins.thisExpr_fails <|
    .firstOf_cons (literal_fails_bracket (.inl rfl) r pos i) <|
    .firstOf_cons (Fails.map rfl) <| .firstOf_head ?_
  refine Reads.rule h fun σ vs hvs => ?_
  obtain ⟨es, hes, hall⟩ := mapM_built hvs
  exact ⟨.array σ es, by rw [hes]; rfl, Expr.spells_array σ hall⟩

/-- A list of members is an operand. -/
theorem primary_object {r : List Char} {ms : List (String × Json)}
    (h : Reads (bracketed n "\x7b" "\x7d" (property n)) ⟨'\x7b' :: r, pos, i⟩
      (List.Forall₂ (fun v m => MeansMember m v) · ms) t i) :
    Reads (primary (n + 1)) ⟨'\x7b' :: r, pos, i⟩ (Means (.object ms)) t i := by
  have hbegins := begins_punctuation (.inr (.inr rfl)) r pos i
  have harray : Fails (sym "[") ⟨'\x7b' :: r, pos, i⟩ := rfl
  rw [primary]
  refine Reads.rule (P := Means (.object ms)) ?_ fun _ _ hv => hv
  refine .firstOf_cons (hbegins.functionExpr_fails n) <| .firstOf_cons hbegins.thisExpr_fails <|
    .firstOf_cons (literal_fails_bracket (.inr rfl) r pos i) <|
    .firstOf_cons (Fails.map rfl) <| .firstOf_cons harray.andThen.rule <| .firstOf_head ?_
  refine Reads.rule h fun σ vs hvs => ?_
  obtain ⟨ps, hps, hall⟩ := mapM_built hvs
  exact ⟨.object σ ps, by rw [hps]; rfl, Expr.spells_object σ hall⟩

/-- **The text of data is read as a literal that is made like it**, in front of whatever ends it. -/
theorem primary_json (hj : j.DataWith Q) (hn : 32 * (chars j).length ≤ n) (ht : Ended t)
    (pos : Position) : Reads (primary n) ⟨chars j ++ t, pos, i⟩ (Means j) t i := by
  have hbegins := begins_json hj ht pos i
  have hfuel : ∀ {j : Json} {n : Nat}, j.DataWith Q → 32 * (chars j).length ≤ n → ∃ m, n = m + 4 := by
    intro j n hj hn
    have := Json.chars_length hj.legible
    exact ⟨n - 4, by omega⟩
  induction hj generalizing n t pos with
  | null =>
    obtain ⟨n, rfl⟩ := hfuel .null hn
    exact hbegins.primary_literal (literal_null ht pos i) (n + 3)
  | bool b =>
    obtain ⟨n, rfl⟩ := hfuel (.bool b) hn
    cases b with
    | true => exact hbegins.primary_literal (literal_true ht pos i) (n + 3)
    | false => exact hbegins.primary_literal (literal_false ht pos i) (n + 3)
  | string s =>
    obtain ⟨n, rfl⟩ := hfuel (.string s) hn
    exact hbegins.primary_literal (literal_string s t pos i) (n + 3)
  | @array items hitems ih =>
    obtain ⟨n, rfl⟩ := hfuel (.array hitems) hn
    cases items with
    | nil =>
      refine primary_array ((reads_bracketed_nil brackets_array (fun pos => ?_) pos).mono ?_)
      · exact (bland_bracket t pos i).assignment_fails (primary_bracket t pos i (n + 1))
      · rintro _ rfl
        exact .nil
    | cons j js =>
      rw [Json.chars_array_cons] at hn ⊢
      have hlength := fun j' (hj' : j' ∈ j :: js) =>
        length_element_le (w := chars) (o := '[') (e := ']') hj'
      have hcount := length_le_flatMap chars js
      have htotal := hlength j List.mem_cons_self
      simp only [moreItems, List.length_cons, List.length_append, List.length_nil] at hn hlength htotal
      have hitem : ∀ j' ∈ j :: js,
          Element (assignment (n + 3)) chars (fun v j => Means j v) i j' := fun j' hj' =>
        have := hlength j' hj'
        element_item (hitems j' hj') (by omega) fun t pos ht =>
          ih j' hj' (by omega) ht pos (begins_json (hitems j' hj') ht pos i)
      rw [List.cons_append, List.append_assoc, List.append_assoc]
      exact primary_array (reads_bracketed_cons brackets_array hitem (by omega) pos)
  | @object members hnames hmembers ih =>
    obtain ⟨n, rfl⟩ := hfuel (.object hnames hmembers) hn
    cases members with
    | nil =>
      refine primary_object ((reads_bracketed_nil brackets_object (fun pos => ?_) pos).mono ?_)
      · exact property_brace t pos i (n + 3)
      · rintro _ rfl
        exact .nil
    | cons m ms =>
      rw [Json.chars_object_cons] at hn ⊢
      have hlength := fun m' (hm' : m' ∈ m :: ms) =>
        length_element_le (w := fun m => memberText m.1 m.2) (o := '\x7b') (e := '\x7d') hm'
      have hcount := length_le_flatMap (fun m => memberText m.1 m.2) ms
      have htotal := hlength m List.mem_cons_self
      simp only [moreMembers, List.length_cons, List.length_append, List.length_nil] at hn hlength htotal
      have hmember : ∀ m' ∈ m :: ms, Element (property (n + 3)) (fun m => memberText m.1 m.2)
          (fun v m => MeansMember m v) i m' := fun m' hm' =>
        have := hlength m' hm'
        have := length_memberText m'.1 m'.2
        element_member (hmembers m' hm') (by omega) fun t pos ht =>
          ih m' hm' (by omega) ht pos (begins_json (hmembers m' hm') ht pos i)
      rw [List.cons_append, List.append_assoc, List.append_assoc]
      exact primary_object (reads_bracketed_cons brackets_object hmember (by omega) pos)

/-- In parentheses it is an operand. -/
theorem primary_parenthesized (hj : j.DataWith Q) (hn : 32 * (chars j).length + 3 ≤ n)
    (hc : Fresh ⟨'(' :: (chars j ++ [')']), pos, i⟩) :
    Reads (primary (n + 1)) ⟨'(' :: (chars j ++ [')']), pos, i⟩ (Means j) [] i := by
  have hended : Ended [')'] := .inr ⟨[], .inr (.inr (.inr rfl))⟩
  have hlong := Json.chars_length hj.legible
  obtain ⟨n, rfl⟩ : ∃ m, n = m + 3 := ⟨n - 3, by omega⟩
  have hread : ∀ pos, Reads ((expression (n + 3)).closedBy (sym ")")) ⟨chars j ++ [')'], pos, i⟩
      (Means j) [] i := by
    intro pos
    have hoperand := assignment_operand (begins_json hj hended pos i).unprefixed
      (primary_json hj (n := n) (by omega) hended pos) hended (by omega)
    refine (expression_alone hoperand hended.stop.skips fun _ => rfl).andThen hended.stop.skips
      fun v hv pos => ?_
    exact ⟨v, _, hv, rfl⟩
  obtain ⟨v, pos', hv, hresult⟩ := hread (pos.through ['('])
  have hskip := (begins_json hj hended (pos.through ['(']) i).skip
  refine ⟨v, pos', hv, (result_parentheses hc rfl _).trans ?_⟩
  rw [Cursor.passText, hskip]
  exact hresult

/-- **In parentheses it is a program**, of one statement. -/
theorem parse_json (hj : j.DataWith Q) : ∃ σ τ e, e.Spells j ∧
    parse ("(" ++ j.compact ++ ")") = .ok ⟨[.expression σ e], τ, 1⟩ := by
  have hword : Lexeme.word ('(' :: (chars j ++ [')'])) = none := Lexeme.word_none (by decide) _
  have hfresh : Fresh ⟨'(' :: (chars j ++ [')']), {}, 1⟩ :=
    ⟨⟨'(', _, rfl, by simp⟩, fun k _ => Lexeme.keyword_none hword k⟩
  have hlabel : Fails (ident.closedBy (sym ":")) ⟨'(' :: (chars j ++ [')']), {}, 1⟩ := by
    refine Fails.closedBy ?_
    unfold Fails ident token
    rw [Lexeme.identifier_none hword]
  have hfuel : 32 * (chars j).length + 3 ≤ 32 * ('(' :: (chars j ++ [')'])).length + 59 := by
    simp only [List.length_cons, List.length_append]
    omega
  obtain ⟨_, pos, ⟨e, rfl, he⟩, hread⟩ := primary_parenthesized hj hfuel hfresh
  obtain ⟨σ, τ, hparse⟩ := parse_operand hfresh.bland hlabel ⟨_, pos, rfl, hread⟩
  refine ⟨σ, τ, e, he, ?_⟩
  have htext : "(" ++ j.compact ++ ")" = String.ofList ('(' :: (chars j ++ [')'])) :=
    String.toList_injective (by simp [chars])
  rw [htext, hparse]
  rfl

end Grammar

end Fermata
