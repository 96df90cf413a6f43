import Fermata.Proofs.Grammar.Place

/-!
# What matchers find

For each way to combine matchers, the result of the combination. `Matcher.Reads` leaves the position
open: a property of the value, what is left of the text and the next number of a literal are what reading
goes on with.
-/

namespace Fermata

namespace Matcher

variable {α β : Type} {p q : Matcher α} {c : Cursor} {x y z : List Char}
  {i j : Nat} {P : α → Prop} {Q : β → Prop}

/-- The matcher fails here. -/
def Fails (p : Matcher α) (c : Cursor) : Prop := (p c).result = none

/-- The matcher succeeds here with a value of which `P` holds; `x` is left, and `i` is the next
number. -/
def Reads (p : Matcher α) (c : Cursor) (P : α → Prop) (x : List Char) (i : Nat) : Prop :=
  ∃ v pos, P v ∧ (p c).result = some (v, ⟨x, pos, i⟩)

/-- Trivia in front of the first text leaves the second one. -/
def Skips (x y : List Char) : Prop :=
  ∀ pos i, ∃ pos', (⟨x, pos, i⟩ : Cursor).skip = ⟨y, pos', i⟩

theorem result_tight (p : Matcher α) (f : α → Matcher β) (c : Cursor) :
    (p.tight f c).result = (p c).result.bind fun r => (f r.1 r.2).result := by
  unfold tight
  rcases p c with ⟨reach, _ | ⟨v, c'⟩⟩ <;> rfl

theorem result_andThen (p : Matcher α) (f : α → Matcher β) (c : Cursor) :
    (p.andThen f c).result = (p c).result.bind fun r => (f r.1 r.2.skip).result :=
  result_tight ..

theorem result_or (p q : Matcher α) (c : Cursor) :
    (p.or q c).result = (p c).result.or (q c).result := by
  unfold Matcher.or
  rcases p c with ⟨reach, _ | ⟨v, c'⟩⟩ <;> rfl

theorem result_firstOf_cons {ps : List (Matcher α)} (h : Fails p c) :
    (firstOf (p :: ps) c).result = (firstOf ps c).result := by
  rw [firstOf, result_or, h, Option.none_or]

theorem result_firstOf_last (p : Matcher α) (c : Cursor) : (firstOf [p] c).result = (p c).result := by
  rw [firstOf, result_or]
  exact Option.or_none

theorem result_rule (p : Matcher α) (f : Span → α → β) (c : Cursor) :
    (rule p f c).result = (p c).result.map fun r => (f ⟨c.pos, r.2.pos⟩ r.1, r.2) := by
  unfold rule
  rcases p c with ⟨reach, _ | ⟨v, c'⟩⟩ <;> rfl

theorem result_optional (p : Matcher α) (c : Cursor) :
    (optional p c).result =
      some ((p c).result.elim (none, c) fun r => (some r.1, r.2)) := by
  unfold optional
  rcases p c with ⟨reach, _ | ⟨v, c'⟩⟩ <;> rfl

namespace Fails

theorem tight {f : α → Matcher β} (h : Fails p c) : Fails (p.tight f) c := by
  rw [Fails, result_tight, h, Option.bind_none]

theorem andThen {f : α → Matcher β} (h : Fails p c) : Fails (p.andThen f) c := tight h

theorem before {q : Matcher β} (h : Fails p c) : Fails (p.before q) c := h.andThen

theorem closedBy {q : Matcher β} (h : Fails p c) : Fails (p.closedBy q) c := h.andThen

theorem map {f : α → β} (h : Fails p c) : Fails (p.map f) c :=
  (congrArg (Option.map _) h : _)

theorem or (h : Fails p c) (h' : Fails q c) : Fails (p.or q) c := by
  rw [Fails, result_or, h, h', Option.none_or]

theorem rule {f : Span → α → β} (h : Fails p c) : Fails (rule p f) c := by
  rw [Fails, result_rule, h, Option.map_none]

theorem firstOf {ps : List (Matcher α)} (h : ∀ p ∈ ps, Fails p c) : Fails (firstOf ps) c := by
  induction ps with
  | nil => rfl
  | cons p ps ih =>
    exact (h p List.mem_cons_self).or (ih fun q hq => h q (List.mem_cons_of_mem _ hq))

end Fails

namespace Reads

theorem mono (h : Reads p c P x i) {P' : α → Prop} (hP : ∀ v, P v → P' v) : Reads p c P' x i := by
  obtain ⟨v, pos, hv, h⟩ := h
  exact ⟨v, pos, hP v hv, h⟩

theorem andThen {f : α → Matcher β} (h : Reads p c P x i) (hskip : Skips x y)
    (hf : ∀ v, P v → ∀ pos, Reads (f v) ⟨y, pos, i⟩ Q z j) : Reads (p.andThen f) c Q z j := by
  obtain ⟨v, pos, hv, h⟩ := h
  obtain ⟨pos', hskip⟩ := hskip pos i
  obtain ⟨w, pos'', hw, hf⟩ := hf v hv pos'
  refine ⟨w, pos'', hw, ?_⟩
  rw [result_andThen, h, Option.bind_some]
  dsimp only
  rw [hskip, hf]

/-- The part behind fails. -/
theorem andThen_fails {f : α → Matcher β} (h : Reads p c P x i) (hskip : Skips x y)
    (hf : ∀ v, P v → ∀ pos, Fails (f v) ⟨y, pos, i⟩) : Fails (p.andThen f) c := by
  obtain ⟨v, pos, hv, h⟩ := h
  obtain ⟨pos', hskip⟩ := hskip pos i
  rw [Fails, result_andThen, h, Option.bind_some]
  dsimp only
  rw [hskip, hf v hv]

theorem map {f : α → β} (h : Reads p c P x i) (hf : ∀ v, P v → Q (f v)) :
    Reads (p.map f) c Q x i := by
  obtain ⟨v, pos, hv, h⟩ := h
  exact ⟨f v, pos, hf v hv, (congrArg (Option.map _) h : _)⟩

theorem or_left (h : Reads p c P x i) : Reads (p.or q) c P x i := by
  obtain ⟨v, pos, hv, h⟩ := h
  refine ⟨v, pos, hv, ?_⟩
  rw [result_or, h, Option.some_or]

theorem or_right (h : Fails p c) (h' : Reads q c P x i) : Reads (p.or q) c P x i := by
  obtain ⟨v, pos, hv, h'⟩ := h'
  refine ⟨v, pos, hv, ?_⟩
  rw [result_or, h, h', Option.none_or]

theorem firstOf_cons {ps : List (Matcher α)} (h : Fails p c) (h' : Reads (firstOf ps) c P x i) :
    Reads (firstOf (p :: ps)) c P x i :=
  or_right h h'

theorem firstOf_head {ps : List (Matcher α)} (h : Reads p c P x i) :
    Reads (firstOf (p :: ps)) c P x i :=
  or_left h

theorem rule {f : Span → α → β} (h : Reads p c P x i) (hf : ∀ σ v, P v → Q (f σ v)) :
    Reads (rule p f) c Q x i := by
  obtain ⟨v, pos, hv, h⟩ := h
  refine ⟨f ⟨c.pos, pos⟩ v, pos, hf _ v hv, ?_⟩
  rw [result_rule, h, Option.map_some]

theorem optional_some {P : Option α → Prop} (h : Reads p c (fun v => P (some v)) x i) :
    Reads (optional p) c P x i := by
  obtain ⟨v, pos, hv, h⟩ := h
  refine ⟨some v, pos, hv, ?_⟩
  rw [result_optional, h, Option.elim_some]

theorem optional_none (h : Fails p c) : Reads (optional p) c (· = none) c.rest c.nextFunction := by
  refine ⟨none, c.pos, rfl, ?_⟩
  rw [result_optional, h, Option.elim_none]

end Reads

/-! ## Repetition -/

theorem result_many_nil (h : Fails p c) (fuel : Nat) : (many fuel p c).result = some ([], c) := by
  unfold Fails at h
  unfold many
  rcases hp : p c with ⟨reach, _ | r⟩
  · rfl
  · rw [hp] at h
    cases h

theorem reads_many_nil (h : Fails p c) (fuel : Nat) :
    Reads (many fuel p) c (· = []) c.rest c.nextFunction :=
  ⟨[], c.pos, rfl, result_many_nil h fuel⟩

theorem reads_more_nil (hskip : c.skip = c) (h : Fails p c) (fuel : Nat) :
    Reads (more p fuel) c (· = []) c.rest c.nextFunction := by
  refine ⟨[], c.pos, rfl, ?_⟩
  cases fuel with
  | zero => rfl
  | succ fuel =>
    unfold Fails at h
    unfold more
    rw [hskip]
    rcases hp : p c with ⟨reach, _ | r⟩
    · rfl
    · rw [hp] at h
      cases h

theorem reads_more_cons {Q : List α → Prop} {fuel : Nat} (hskip : c.skip = c)
    (h : Reads p c P x i)
    (hmore : ∀ v, P v → ∀ pos, Reads (more p fuel) ⟨x, pos, i⟩ (fun vs => Q (v :: vs)) y j) :
    Reads (more p (fuel + 1)) c Q y j := by
  obtain ⟨v, pos, hv, h⟩ := h
  obtain ⟨vs, pos', hvs, hmore⟩ := hmore v hv pos
  refine ⟨v :: vs, pos', hvs, ?_⟩
  unfold more
  rw [hskip]
  rcases hp : p c with ⟨reach, _ | r⟩
  · rw [hp] at h
    cases h
  · rw [hp] at h
    cases h
    exact (congrArg (Option.map _) hmore : _)

/-- Between two tokens, the first round is like the others. -/
theorem reads_many_of_more {P : List α → Prop} {fuel : Nat} (hskip : c.skip = c)
    (h : Reads (more p (fuel + 1)) c P x i) : Reads (many fuel p) c P x i := by
  obtain ⟨vs, pos, hvs, h⟩ := h
  refine ⟨vs, pos, hvs, ?_⟩
  unfold more at h
  rw [hskip] at h
  unfold many
  exact h

end Matcher

end Fermata
