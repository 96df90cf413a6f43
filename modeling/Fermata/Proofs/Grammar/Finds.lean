import Fermata.Proofs.Grammar.Place

/-!
# Where matchers get to

`Matcher.Lands` says of a matcher, tried at a place of the text, that it stops at a place of the text no
earlier than that, and what its value and the cursor behind it are like. Mostly what is known of a value is
how far it reaches at most, and this is as true of every later place: `Matcher.Finds`. There is one rule for
each way to combine matchers. What is known of the values alone is `Matcher.Takes`.
-/

namespace Fermata

namespace Matcher

variable {α β : Type} {whole : List Char} {c : Cursor} {p q : Matcher α}

/-- Where the matcher stops if it matches here, and what its value and the cursor behind it are like. -/
def Lands (whole : List Char) (p : Matcher α) (c : Cursor) (T : α → Cursor → Prop) : Prop :=
  c.At whole → ∀ v c', (p c).result = some (v, c') →
    c'.At whole ∧ c.pos.offset ≤ c'.pos.offset ∧ T v c'

namespace Lands

variable {T : α → Cursor → Prop} {R : β → Cursor → Prop}

theorem weaken {S : α → Cursor → Prop} (hp : Lands whole p c S)
    (hS : ∀ v c', c'.At whole → c.pos.offset ≤ c'.pos.offset → S v c' → T v c') :
    Lands whole p c T := by
  intro hc v c' h
  obtain ⟨hc', hle, hv⟩ := hp hc v c' h
  exact ⟨hc', hle, hS v c' hc' hle hv⟩

theorem and {S : α → Cursor → Prop} (hp : Lands whole p c S) (hp' : Lands whole p c T) :
    Lands whole p c fun v c' => S v c' ∧ T v c' := by
  intro hc v c' h
  obtain ⟨hc', hle, hv⟩ := hp hc v c' h
  exact ⟨hc', hle, hv, (hp' hc v c' h).2.2⟩

/-- What a matcher lands at is its result. -/
theorem exact (hp : Lands whole p c T) :
    Lands whole p c fun v c' => T v c' ∧ (p c).result = some (v, c') := by
  intro hc v c' h
  obtain ⟨hc', hle, hv⟩ := hp hc v c' h
  exact ⟨hc', hle, hv, h⟩

theorem fail : Lands whole fail c T := fun _ _ _ h => nomatch h

theorem succeed {v : α} (hv : T v c) : Lands whole (succeed v) c T := by
  intro hc w c' h
  cases h
  exact ⟨hc, Nat.le_refl _, hv⟩

theorem map {f : α → β} (hp : Lands whole p c fun v c' => R (f v) c') :
    Lands whole (p.map f) c R := by
  intro hc w c' h
  obtain ⟨⟨v, c₁⟩, hv, heq⟩ := Option.map_eq_some_iff.mp h
  cases heq
  exact hp hc v c' hv

theorem tight {f : α → Matcher β} (hp : Lands whole p c T)
    (hf : ∀ v c₁, c.pos.offset ≤ c₁.pos.offset → T v c₁ → Lands whole (f v) c₁ R) :
    Lands whole (p.tight f) c R := by
  intro hc w c' h
  unfold Matcher.tight at h
  cases hpc : p c with
  | mk reach result =>
    rw [hpc] at h
    cases result with
    | none => cases h
    | some r =>
      obtain ⟨v, c₁⟩ := r
      obtain ⟨hc₁, hle, hv⟩ := hp hc v c₁ (by rw [hpc])
      obtain ⟨hc', hle', hw⟩ := hf v c₁ hle hv hc₁ w c' h
      exact ⟨hc', Nat.le_trans hle hle', hw⟩

/-- Skipping trivia before a matcher. -/
theorem skip (hp : Lands whole p c.skip T) : Lands whole (fun c => p c.skip) c T := by
  intro hc v c' h
  obtain ⟨hc', hle, hv⟩ := hp (hc.onward c.skip_onward) v c' h
  exact ⟨hc', Nat.le_trans c.skip_onward.offset_le hle, hv⟩

theorem andThen {f : α → Matcher β} (hp : Lands whole p c T)
    (hf : ∀ v c₁, c.pos.offset ≤ c₁.pos.offset → T v c₁ → Lands whole (f v) c₁.skip R) :
    Lands whole (p.andThen f) c R :=
  tight hp fun v c₁ hle hv => skip (hf v c₁ hle hv)

theorem or (hp : Lands whole p c T) (hq : Lands whole q c T) : Lands whole (p.or q) c T := by
  intro hc v c' h
  unfold Matcher.or at h
  cases hpc : p c with
  | mk reach result =>
    rw [hpc] at h
    cases result with
    | none => exact hq hc v c' h
    | some r =>
      refine hp hc v c' ?_
      rw [hpc]
      exact h

theorem optional {T : Option α → Cursor → Prop} (hp : Lands whole p c fun v c' => T (some v) c')
    (hnone : T none c) : Lands whole (optional p) c T := by
  intro hc v c' h
  unfold Matcher.optional at h
  cases hpc : p c with
  | mk reach result =>
    rw [hpc] at h
    cases result with
    | none =>
      cases h
      exact ⟨hc, Nat.le_refl _, hnone⟩
    | some r =>
      cases h
      exact hp hc _ _ (by rw [hpc])

/-- The span of a rule is the stretch that was passed. -/
theorem rule {f : Span → α → β} (hp : Lands whole p c fun v c' =>
    Span.Of whole ⟨c.pos, c'.pos⟩ → R (f ⟨c.pos, c'.pos⟩ v) c') : Lands whole (rule p f) c R := by
  intro hc w c' h
  unfold Matcher.rule at h
  cases hpc : p c with
  | mk reach result =>
    rw [hpc] at h
    cases result with
    | none => cases h
    | some r =>
      cases h
      obtain ⟨hc', hle, hv⟩ := hp hc _ _ (by rw [hpc])
      exact ⟨hc', hle, hv (hc.span hc' hle)⟩

theorem text (piece : List Char) (c : Cursor) : Lands whole (Matcher.text piece) c fun _ c' =>
    c.rest = piece ++ c'.rest ∧ c'.pos = c.pos.through piece := by
  intro hc v c' h
  unfold Matcher.text at h
  split at h
  next rest hstrip =>
    cases h
    have hrest := Lexeme.strip?_append hstrip
    have honward := c.passText_onward hrest
    exact ⟨hc.onward honward, honward.offset_le, hrest, rfl⟩
  next => cases h

theorem token {l : Lexeme} (hl : l.Splits) (c : Cursor) : Lands whole (token l) c fun t c' =>
    t.span = ⟨c.pos, c'.pos⟩ ∧ l c.rest = some (t.chars, c'.rest) ∧
      c'.pos = c.pos.through t.chars := by
  intro hc v c' h
  unfold Matcher.token at h
  split at h
  next w rest hw =>
    cases h
    have honward := c.passText_onward (hl _ _ _ hw)
    exact ⟨hc.onward honward, honward.offset_le, rfl, hw, rfl⟩
  next => cases h

end Lands

/-! ## What is found -/

/-- Where the matcher stops if it matches here, and what its value and every offset from there on are
like. -/
def Finds (whole : List Char) (p : Matcher α) (c : Cursor) (T : α → Nat → Prop) : Prop :=
  Lands whole p c fun v c' => ∀ b, c'.pos.offset ≤ b → T v b

namespace Finds

variable {T : α → Nat → Prop} {R : β → Nat → Prop}

theorem weaken {S : α → Nat → Prop} (hp : Finds whole p c S)
    (hS : ∀ v b, c.pos.offset ≤ b → S v b → T v b) : Finds whole p c T :=
  Lands.weaken hp fun v _ _ hle h b hb => hS v b (Nat.le_trans hle hb) (h b hb)

theorem fail : Finds whole fail c T := Lands.fail

theorem succeed {v : α} (hv : ∀ b, c.pos.offset ≤ b → T v b) : Finds whole (succeed v) c T :=
  Lands.succeed hv

theorem map {f : α → β} (hp : Finds whole p c fun v b => R (f v) b) : Finds whole (p.map f) c R :=
  Lands.map hp

theorem tight {f : α → Matcher β} (hp : Finds whole p c T)
    (hf : ∀ v c₁, c.pos.offset ≤ c₁.pos.offset → T v c₁.pos.offset → Finds whole (f v) c₁ R) :
    Finds whole (p.tight f) c R :=
  Lands.tight hp fun v c₁ hle hv => hf v c₁ hle (hv _ (Nat.le_refl _))

theorem andThen {f : α → Matcher β} (hp : Finds whole p c T)
    (hf : ∀ v c₁, c.pos.offset ≤ c₁.pos.offset → T v c₁.pos.offset → Finds whole (f v) c₁ R) :
    Finds whole (p.andThen f) c R := by
  refine Lands.andThen hp fun v c₁ hle hv => ?_
  have hskip := c₁.skip_onward.offset_le
  exact hf v c₁.skip (Nat.le_trans hle hskip) (hv _ hskip)

theorem before {q : Matcher β} (hp : Finds whole p c T)
    (hq : ∀ c₁, c.pos.offset ≤ c₁.pos.offset → Finds whole q c₁ R) : Finds whole (p.before q) c R :=
  andThen hp fun _ c₁ hle _ => hq c₁ hle

theorem closedBy {q : Matcher β} (hp : Finds whole p c T)
    (hq : ∀ c₁, Finds whole q c₁ fun _ _ => True) : Finds whole (p.closedBy q) c T := by
  refine Lands.andThen hp fun v c₁ _ hv => Lands.map (Lands.weaken (hq c₁.skip) ?_)
  exact fun _ c' _ hle _ b hb =>
    hv b (Nat.le_trans c₁.skip_onward.offset_le (Nat.le_trans hle hb))

theorem or (hp : Finds whole p c T) (hq : Finds whole q c T) : Finds whole (p.or q) c T :=
  Lands.or hp hq

theorem firstOf_cons {ps : List (Matcher α)} (hp : Finds whole p c T)
    (hps : Finds whole (firstOf ps) c T) : Finds whole (firstOf (p :: ps)) c T :=
  hp.or hps

theorem optional {T : Option α → Nat → Prop} (hp : Finds whole p c fun v b => T (some v) b)
    (hnone : ∀ b, c.pos.offset ≤ b → T none b) : Finds whole (optional p) c T :=
  Lands.optional hp hnone

/-- A rule that gives its value a span. -/
theorem rule {f : Span → α → β} (hp : Finds whole p c T)
    (hf : ∀ v span, span.Of whole → span.start.offset = c.pos.offset → T v span.stop.offset →
      ∀ b, span.stop.offset ≤ b → R (f span v) b) : Finds whole (rule p f) c R := by
  refine Lands.rule (Lands.weaken hp fun v c' _ hle hv hspan b hb => ?_)
  exact hf v _ hspan rfl (hv _ (Nat.le_refl _)) b hb

/-- A rule that does not care for the span. -/
theorem rule_plain {f : α → β} (hp : Finds whole p c fun v b => R (f v) b) :
    Finds whole (Matcher.rule p fun _ v => f v) c R :=
  Lands.rule (Lands.weaken hp fun _ _ _ _ hv _ => hv)

/-! ## Repetition -/

/-- Values found one after the other. -/
inductive Chain (Q : Nat → α → Nat → Prop) : Nat → List α → Nat → Prop
  | nil {a b} : a ≤ b → Chain Q a [] b
  | cons {a a' b d v vs} : a ≤ a' → Q a' v b → Chain Q b vs d → Chain Q a (v :: vs) d

variable {Q : Nat → α → Nat → Prop}

theorem Chain.from {a a' b : Nat} {vs : List α} (h : Chain Q a vs b) (ha : a' ≤ a) :
    Chain Q a' vs b := by
  cases h with
  | nil hle => exact .nil (Nat.le_trans ha hle)
  | cons hle hv hvs => exact .cons (Nat.le_trans ha hle) hv hvs

/-- What is passed in front of each value does not matter. -/
theorem Chain.slack {a b : Nat} {vs : List α}
    (h : Chain (fun a v b => ∃ a', a ≤ a' ∧ Q a' v b) a vs b) : Chain Q a vs b := by
  induction h with
  | nil hle => exact .nil hle
  | cons hle hv _ ih =>
    obtain ⟨a', ha', hv⟩ := hv
    exact .cons (Nat.le_trans hle ha') hv ih

theorem more (hp : ∀ c, Finds whole p c (Q c.pos.offset)) (fuel : Nat) (c : Cursor) :
    Finds whole (more p fuel) c (Chain Q c.pos.offset) := by
  induction fuel generalizing c with
  | zero => exact succeed (v := []) fun _ => .nil
  | succ fuel ih =>
    intro hc vs c' h
    unfold Matcher.more at h
    cases hpc : p c.skip with
    | mk reach result =>
      rw [hpc] at h
      cases result with
      | none =>
        cases h
        exact ⟨hc, Nat.le_refl _, fun b hb => .nil hb⟩
      | some r =>
        obtain ⟨v, c₁⟩ := r
        obtain ⟨⟨ws, c₂⟩, hws, heq⟩ := Option.map_eq_some_iff.mp h
        cases heq
        have hskip := c.skip_onward
        obtain ⟨hc₁, hle, hv⟩ := hp c.skip (hc.onward hskip) v c₁ (by rw [hpc])
        obtain ⟨hc', hle', hws'⟩ := ih c₁ hc₁ ws c' hws
        refine ⟨hc', Nat.le_trans hskip.offset_le (Nat.le_trans hle hle'), fun b hb => ?_⟩
        exact .cons hskip.offset_le (hv _ (Nat.le_refl _)) (hws' b hb)

theorem many (hp : ∀ c, Finds whole p c (Q c.pos.offset)) (fuel : Nat) (c : Cursor) :
    Finds whole (many fuel p) c (Chain Q c.pos.offset) := by
  intro hc vs c' h
  unfold Matcher.many at h
  cases hpc : p c with
  | mk reach result =>
    rw [hpc] at h
    cases result with
    | none =>
      cases h
      exact ⟨hc, Nat.le_refl _, fun b hb => .nil hb⟩
    | some r =>
      obtain ⟨v, c₁⟩ := r
      obtain ⟨⟨ws, c₂⟩, hws, heq⟩ := Option.map_eq_some_iff.mp h
      cases heq
      obtain ⟨hc₁, hle, hv⟩ := hp c hc v c₁ (by rw [hpc])
      obtain ⟨hc', hle', hws'⟩ := more hp fuel c₁ hc₁ ws c' hws
      refine ⟨hc', Nat.le_trans hle hle', fun b hb => ?_⟩
      exact .cons (Nat.le_refl _) (hv _ (Nat.le_refl _)) (hws' b hb)

/-! ## Tokens -/

theorem text (piece : List Char) (c : Cursor) :
    Finds whole (Matcher.text piece) c fun _ _ => True :=
  (Lands.text piece c).weaken fun _ _ _ _ _ _ _ => trivial

theorem notNext (ch : Char) (c : Cursor) : Finds whole (notNext ch) c fun _ _ => True := by
  intro hc v c' h
  unfold Matcher.notNext at h
  split at h
  · cases h
  · cases h
    exact ⟨hc, Nat.le_refl _, fun _ _ => trivial⟩

/-- The span is a stretch of the text between the two offsets. -/
structure Between (whole : List Char) (a : Nat) (s : Span) (b : Nat) : Prop where
  of : s.Of whole
  start : a ≤ s.start.offset
  stop : s.stop.offset ≤ b

theorem token {l : Lexeme} (hl : l.Splits) (c : Cursor) :
    Finds whole (token l) c fun t b => Between whole c.pos.offset t.span b := by
  intro hc t c' h
  obtain ⟨hc', hle, hspan, -, -⟩ := Lands.token hl c hc t c' h
  refine ⟨hc', hle, fun b hb => ?_⟩
  dsimp only
  rw [hspan]
  exact ⟨hc.span hc' hle, Nat.le_refl _, hb⟩

theorem silent {l : Lexeme} (hl : l.Splits) (c : Cursor) :
    Finds whole (silent l) c fun _ _ => True := by
  intro hc v c' h
  unfold Matcher.silent at h
  split at h
  next w rest hw =>
    cases h
    have honward := c.passText_onward (hl _ _ _ hw)
    exact ⟨hc.onward honward, honward.offset_le, fun _ _ => trivial⟩
  next => cases h

end Finds

/-! ## What is taken -/

/-- Whatever the matcher takes from the text, anywhere, is like this. -/
def Takes (whole : List Char) (p : Matcher α) (P : α → Prop) : Prop :=
  ∀ c, Lands whole p c fun v _ => P v

namespace Takes

variable {P : α → Prop} {R : β → Prop}

theorem of_finds {T : Cursor → α → Nat → Prop} (h : ∀ c, Finds whole p c (T c)) :
    Takes whole p fun _ => True :=
  fun c => Lands.weaken (h c) fun _ _ _ _ _ => trivial

theorem weaken {S : α → Prop} (hp : Takes whole p S) (hS : ∀ v, S v → P v) : Takes whole p P :=
  fun c => (hp c).weaken fun v _ _ _ h => hS v h

theorem fail : Takes whole Matcher.fail P := fun _ => Lands.fail

theorem map {f : α → β} (hp : Takes whole p fun v => R (f v)) : Takes whole (p.map f) R :=
  fun c => Lands.map (hp c)

theorem andThen {f : α → Matcher β} (hp : Takes whole p P)
    (hf : ∀ v, P v → Takes whole (f v) R) : Takes whole (p.andThen f) R :=
  fun c => Lands.andThen (hp c) fun v c₁ _ hv => hf v hv c₁.skip

theorem tight {f : α → Matcher β} (hp : Takes whole p P)
    (hf : ∀ v, P v → Takes whole (f v) R) : Takes whole (p.tight f) R :=
  fun c => Lands.tight (hp c) fun v c₁ _ hv => hf v hv c₁

theorem before {q : Matcher β} (hp : Takes whole p P) (hq : Takes whole q R) :
    Takes whole (p.before q) R := andThen hp fun _ _ => hq

theorem closedBy {q : Matcher β} (hp : Takes whole p P) (hq : Takes whole q fun _ => True) :
    Takes whole (p.closedBy q) P :=
  andThen hp fun _ hv => map (hq.weaken fun _ _ => hv)

theorem or (hp : Takes whole p P) (hq : Takes whole q P) : Takes whole (p.or q) P :=
  fun c => (hp c).or (hq c)

theorem firstOf_cons {ps : List (Matcher α)} (hp : Takes whole p P)
    (hps : Takes whole (firstOf ps) P) : Takes whole (firstOf (p :: ps)) P := hp.or hps

/-- What is taken if it is there. -/
theorem optional (hp : Takes whole p P) :
    Takes whole (Matcher.optional p) fun v => ∀ x, v = some x → P x := by
  refine fun c => Lands.optional ((hp c).weaken fun v _ _ _ hv x hx => ?_) nofun
  cases hx
  exact hv

theorem rule {f : Span → α → β} (hp : Takes whole p fun v => ∀ span, R (f span v)) :
    Takes whole (Matcher.rule p f) R :=
  fun c => Lands.rule ((hp c).weaken fun _ _ _ _ hv _ => hv _)

/-- What is known of each value that is found. -/
theorem chain_all {a b : Nat} {vs : List α} (h : Finds.Chain (fun _ v _ => P v) a vs b) :
    ∀ v ∈ vs, P v := by
  induction h with
  | nil => nofun
  | cons _ hv _ ih => exact List.forall_mem_cons.mpr ⟨hv, ih⟩

theorem many (hp : Takes whole p P) (fuel : Nat) :
    Takes whole (many fuel p) fun vs => ∀ v ∈ vs, P v := by
  intro c
  have hchain := Finds.many (Q := fun _ v _ => P v)
    (fun c => (hp c).weaken fun _ _ _ _ hv _ _ => hv) fuel c
  exact Lands.weaken hchain fun _ _ _ _ h => chain_all (h _ (Nat.le_refl _))

end Takes

end Matcher

namespace Grammar

open Matcher

variable {whole : List Char}

theorem finds_sym (s : String) (c : Cursor) : Finds whole (sym s) c fun _ _ => True := .text _ c

theorem finds_kw (k : String) (c : Cursor) :
    Finds whole (kw k) c fun t b => Finds.Between whole c.pos.offset t.span b :=
  .token (Lexeme.keyword_splits k) c

theorem finds_ident (c : Cursor) :
    Finds whole ident c fun t b => Finds.Between whole c.pos.offset t.span b :=
  .token Lexeme.identifier_splits c

theorem finds_pick {α : Type} {table : List (Lexeme × α)} (htable : ∀ e ∈ table, e.1.Splits)
    (c : Cursor) : Finds whole (pick table) c fun _ _ => True := by
  intro hc v c' h
  unfold pick at h
  induction table with
  | nil => cases h
  | cons entry rest ih =>
    obtain ⟨l, a⟩ := entry
    unfold pick.go at h
    split at h
    next w after hw =>
      cases h
      have honward := c.passText_onward (htable _ List.mem_cons_self _ _ _ hw)
      exact ⟨hc.onward honward, honward.offset_le, fun _ _ => trivial⟩
    next => exact ih (fun e he => htable e (List.mem_cons_of_mem _ he)) h

theorem finds_commaList {α : Type} {p : Matcher α} {Q : Nat → α → Nat → Prop}
    (hp : ∀ c, Finds whole p c (Q c.pos.offset)) (fuel : Nat) (c : Cursor) :
    Finds whole (commaList fuel p) c (Finds.Chain Q c.pos.offset) := by
  refine (hp c).andThen fun v c₁ _ hv => Finds.map ?_
  refine (Finds.many (Q := fun a v b => ∃ a', a ≤ a' ∧ Q a' v b) (fun c₂ => ?_) fuel c₁).weaken
    fun vs b _ hvs => .cons (Nat.le_refl _) hv hvs.slack
  exact (finds_sym "," c₂).before fun c₃ hle => (hp c₃).weaken fun v b _ hv => ⟨_, hle, hv⟩

theorem finds_bracketed {α : Type} {p : Matcher α} {Q : Nat → α → Nat → Prop}
    (hp : ∀ c, Finds whole p c (Q c.pos.offset)) (fuel : Nat) (opening closing : String)
    (c : Cursor) :
    Finds whole (bracketed fuel opening closing p) c (Finds.Chain Q c.pos.offset) := by
  refine (finds_sym opening c).andThen fun _ c₁ hle _ => ?_
  refine Finds.closedBy (Finds.map (Finds.optional ?_ fun b hb => .nil (Nat.le_trans hle hb)))
    (finds_sym closing)
  refine Finds.closedBy ?_ fun c₂ => Finds.optional (finds_sym "," c₂) fun _ _ => trivial
  exact (finds_commaList hp fuel c₁).weaken fun vs b _ hvs => hvs.from hle

/-! ## What is taken -/

theorem sym_takes (s : String) : Takes whole (sym s) fun _ => True := .of_finds (finds_sym s)

theorem kw_takes (k : String) : Takes whole (kw k) fun _ => True := .of_finds (finds_kw k)

theorem ident_takes : Takes whole ident fun _ => True := .of_finds finds_ident

theorem pick_takes {α : Type} {table : List (Lexeme × α)} (htable : ∀ e ∈ table, e.1.Splits) :
    Takes whole (pick table) fun _ => True := .of_finds (finds_pick htable)

theorem commaList_takes {α : Type} {p : Matcher α} {P : α → Prop} (hp : Takes whole p P)
    (fuel : Nat) : Takes whole (commaList fuel p) fun vs => ∀ v ∈ vs, P v :=
  hp.andThen fun _ hv => Takes.map ((((sym_takes ",").before hp).many fuel).weaken fun _ hvs =>
    List.forall_mem_cons.mpr ⟨hv, hvs⟩)

theorem bracketed_takes {α : Type} {p : Matcher α} {P : α → Prop} (hp : Takes whole p P)
    (fuel : Nat) (opening closing : String) :
    Takes whole (bracketed fuel opening closing p) fun vs => ∀ v ∈ vs, P v := by
  have hcomma : Takes whole (optional (sym ",")) fun _ => True :=
    (sym_takes ",").optional.weaken fun _ _ => trivial
  refine (sym_takes opening).andThen fun _ _ => Takes.closedBy (Takes.map ?_) (sym_takes closing)
  refine ((commaList_takes hp fuel).closedBy hcomma).optional.weaken fun vs hvs => ?_
  cases vs with
  | none => nofun
  | some vs => exact hvs vs rfl

theorem semicolon_takes : Takes whole (optional (sym ";")) fun _ => True :=
  (sym_takes ";").optional.weaken fun _ _ => trivial

theorem params_takes (fuel : Nat) : Takes whole (params fuel) fun _ => True :=
  Takes.rule (((sym_takes "(").andThen fun _ _ =>
    (commaList_takes ident_takes fuel).optional.closedBy (sym_takes ")")).weaken
      fun _ _ _ => trivial)

end Grammar

end Fermata
