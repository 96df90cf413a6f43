import Fermata.Code.Basic
import Mathlib.Data.List.TakeDrop

/-!
# Places of a text

A place of a text is where some first part of it ends, with the line and the column that this part ends
in (`Position.Of`). Passing tokens and skipping trivia moves a cursor from one place of the text to a later
one (`Onward`), so that a cursor that starts at the front is always at a place of the text (`Cursor.At`).

* `Lexeme.Splits`: a lexeme takes its token off the front of a text.
* `skipFrom_onward`: so does skipping trivia.
* `sliceBytes_append`: the slice between two places is the text that lies between them.
-/

namespace Fermata

open Text (byteLength byteLength_append byteLength_cons byteLength_nil)

/-- Reading on from one place gets to another. -/
def Onward (cs : List Char) (p : Position) (ds : List Char) (q : Position) : Prop :=
  ∃ passed, cs = passed ++ ds ∧ q = p.through passed

namespace Onward

variable {cs ds es : List Char} {p q r : Position}

theorem refl (cs : List Char) (p : Position) : Onward cs p cs p := ⟨[], rfl, rfl⟩

theorem trans (h : Onward cs p ds q) (h' : Onward ds q es r) : Onward cs p es r := by
  obtain ⟨a, rfl, rfl⟩ := h
  obtain ⟨b, rfl, rfl⟩ := h'
  exact ⟨a ++ b, (List.append_assoc ..).symm, (Position.through_append ..).symm⟩

theorem step (c : Char) (cs : List Char) (p : Position) : Onward (c :: cs) p cs (p.advance c) :=
  ⟨[c], rfl, rfl⟩

theorem offset_le (h : Onward cs p ds q) : p.offset ≤ q.offset := by
  obtain ⟨a, -, rfl⟩ := h
  rw [Position.offset_through]
  exact Nat.le_add_right ..

end Onward

/-! ## Trivia -/

namespace Cursor

/-- Where skipping trivia gets to. An open comment gives up to the place where it was opened. -/
theorem skipFrom_onward (mode : TriviaMode) (cs : List Char) (p : Position) :
    match mode with
    | .block opened start => skipFrom mode cs p = (opened, start) ∨
        Onward cs p (skipFrom mode cs p).1 (skipFrom mode cs p).2
    | _ => Onward cs p (skipFrom mode cs p).1 (skipFrom mode cs p).2 := by
  fun_induction skipFrom mode cs p with
  | case1 | case6 => exact .refl _ _
  | case2 _ cs ih => exact (Onward.step ..).trans ((Onward.step ..).trans ih)
  | case3 p cs ih =>
    rcases ih with ih | ih
    · rw [ih]
      exact .refl _ _
    · exact (Onward.step ..).trans ((Onward.step ..).trans ih)
  | case4 _ _ _ _ _ _ ih => exact (Onward.step ..).trans ih
  | case5 => exact .refl _ _
  | case7 ch cs p ih =>
    refine (Onward.step ..).trans ?_
    by_cases hc : ch = '\n'
    · simpa only [hc, if_pos] using ih
    · simpa only [hc, if_false] using ih
  | case8 => exact .inl rfl
  | case9 _ _ _ _ ih => exact .inr ((Onward.step ..).trans ((Onward.step ..).trans ih))
  | case10 _ _ _ _ _ _ ih => exact ih.imp_right (Onward.step ..).trans

theorem skip_onward (c : Cursor) : Onward c.rest c.pos c.skip.rest c.skip.pos :=
  skipFrom_onward .between c.rest c.pos

end Cursor

/-! ## Tokens -/

/-- A lexeme takes its token off the front of a text. -/
def Lexeme.Splits (l : Lexeme) : Prop := ∀ text w rest, l text = some (w, rest) → text = w ++ rest

namespace Lexeme

open Matcher (strip?)

theorem strip?_append {piece text rest : List Char} (h : strip? piece text = some rest) :
    text = piece ++ rest := by
  induction piece generalizing text with
  | nil => exact Option.some.inj h
  | cons p ps ih =>
    cases text with
    | nil => cases h
    | cons c cs =>
      unfold strip? at h
      split at h
      next hc => rw [hc, List.cons_append, ← ih h]
      next => cases h

theorem span_append {p : Char → Bool} {text w rest : List Char} (h : text.span p = (w, rest)) :
    text = w ++ rest := by
  rw [List.span_eq_takeWhile_dropWhile] at h
  cases h
  exact (List.takeWhile_append_dropWhile ..).symm

theorem word_splits : Splits word := by
  intro text w rest h
  cases text with
  | nil => cases h
  | cons c cs =>
    change (if Text.isNameStart c = true then some ((c :: cs).span Text.isNamePart) else none) = _
      at h
    split at h
    · exact span_append (Option.some.inj h)
    · cases h

theorem keyword_splits (k : String) : Splits (keyword k) := by
  intro text w rest h
  unfold keyword at h
  split at h
  next hword =>
    split at h
    · cases h
      exact word_splits _ _ _ hword
    · cases h
  next => cases h

/-- The token of a keyword is the keyword. -/
theorem keyword_eq {k : String} {text w rest : List Char} (h : keyword k text = some (w, rest)) :
    w = k.toList := by
  unfold keyword at h
  split at h
  · split at h
    next hw =>
      cases h
      exact hw
    next => cases h
  · cases h

theorem identifier_splits : Splits identifier := by
  intro text w rest h
  unfold identifier at h
  split at h
  next hword =>
    split at h
    · cases h
    · cases h
      exact word_splits _ _ _ hword
  next => cases h

theorem operator_splits (piece : String) (stops : List Char) : Splits (operator piece stops) := by
  intro text w rest h
  unfold operator at h
  split at h
  next hstrip =>
    split at h
    · split at h
      · cases h
      · cases h
        exact strip?_append hstrip
    · cases h
      exact strip?_append hstrip
  next => cases h

theorem firstOf_splits {ls : List Lexeme} (hls : ∀ l ∈ ls, Splits l) : Splits (firstOf ls) := by
  induction ls with
  | nil => exact fun _ _ _ h => nomatch h
  | cons l ls ih =>
    intro text w rest h
    unfold firstOf at h
    split at h
    next hl =>
      cases h
      exact hls l List.mem_cons_self _ _ _ hl
    next => exact ih (fun l hl => hls l (List.mem_cons_of_mem _ hl)) _ _ _ h

theorem hexadecimal_splits : Splits hexadecimal := by
  intro text w rest h
  unfold hexadecimal at h
  split at h
  · split at h
    · split at h
      · cases h
      next hspan =>
        cases h
        rw [span_append hspan]
        rfl
    · cases h
  · cases h

theorem exponentPart_append (taken text : List Char) :
    (exponentPart taken text).1 ++ (exponentPart taken text).2 = taken ++ text := by
  unfold exponentPart
  split
  next e cs =>
    split
    · split
      next sign digits hsign =>
        have hcs : cs = sign ++ digits := by
          split at hsign <;> cases hsign <;> rfl
        split
        · rw [hcs]
        next ds rest _ hspan =>
          rw [hcs, span_append hspan]
          simp
    · rfl
  next => rfl

theorem decimal_splits : Splits decimal := by
  intro text w rest h
  unfold decimal at h
  split at h
  next cs hwhole =>
    split at h
    · cases h
    next ds after _ hspan =>
      have happend := exponentPart_append ('.' :: ds) after
      rw [Option.some.inj h] at happend
      rw [span_append hwhole, span_append hspan]
      exact happend.symm
  next => cases h
  next whole cs _ hwhole =>
    generalize hspan : cs.span Text.isDigit = r at h
    obtain ⟨ds, after⟩ := r
    have happend := exponentPart_append (whole ++ '.' :: ds) after
    rw [Option.some.inj h] at happend
    rw [span_append hwhole, span_append hspan]
    simpa using happend.symm
  next whole after _ _ _ hwhole =>
    have happend := exponentPart_append whole after
    rw [Option.some.inj h] at happend
    rw [span_append hwhole]
    exact happend.symm

theorem number_splits : Splits number := by
  refine firstOf_splits fun l hl => ?_
  rcases List.mem_cons.mp hl with rfl | hl
  · exact hexadecimal_splits
  · obtain rfl := List.mem_singleton.mp hl
    exact decimal_splits

theorem insideString_append (quote : Char) (text w rest : List Char)
    (h : insideString quote text = some (w, rest)) : text = w ++ rest := by
  fun_induction insideString quote text generalizing w rest with
  | case1 => cases h
  | case2 c cs ih =>
    obtain ⟨⟨s, after⟩, hs, heq⟩ := Option.map_eq_some_iff.mp h
    cases heq
    rw [ih _ _ hs]
    rfl
  | case3 =>
    cases h
    rfl
  | case4 => cases h
  | case5 c cs _ _ _ ih =>
    obtain ⟨⟨s, after⟩, hs, heq⟩ := Option.map_eq_some_iff.mp h
    cases heq
    rw [ih _ _ hs]
    rfl

theorem string_splits : Splits string := by
  intro text w rest h
  unfold string at h
  split at h
  · split at h
    · obtain ⟨⟨s, after⟩, hs, heq⟩ := Option.map_eq_some_iff.mp h
      cases heq
      rw [insideString_append _ _ _ _ hs]
      rfl
    · cases h
  · cases h

theorem inlineBlanks_splits : Splits inlineBlanks := by
  intro text w rest h
  unfold inlineBlanks at h
  split at h
  · cases h
  next hspan =>
    cases h
    exact span_append hspan

end Lexeme

/-! ## Places -/

/-- A place of the text. -/
def Position.Of (text : List Char) (p : Position) : Prop :=
  ∃ before after, text = before ++ after ∧ p = Position.through {} before

/-- A stretch of the text. -/
structure Span.Of (text : List Char) (s : Span) : Prop where
  start : s.start.Of text
  stop : s.stop.Of text
  le : s.start.offset ≤ s.stop.offset

/-- The cursor is at a place of the text, with the rest of the text ahead. -/
def Cursor.At (text : List Char) (c : Cursor) : Prop := Onward text {} c.rest c.pos

namespace Cursor

variable {text : List Char} {c c' : Cursor}

theorem At.place (h : c.At text) : c.pos.Of text := by
  obtain ⟨before, hbefore, hpos⟩ := h
  exact ⟨before, c.rest, hbefore, hpos⟩

theorem At.onward (h : c.At text) (h' : Onward c.rest c.pos c'.rest c'.pos) : c'.At text := h.trans h'

theorem At.span (h : c.At text) (h' : c'.At text) (hle : c.pos.offset ≤ c'.pos.offset) :
    Span.Of text ⟨c.pos, c'.pos⟩ := ⟨h.place, h'.place, hle⟩

theorem passText_onward (c : Cursor) {w rest : List Char} (h : c.rest = w ++ rest) :
    Onward c.rest c.pos (c.passText w rest).rest (c.passText w rest).pos := ⟨w, h, rfl⟩

end Cursor

/-- Two stretches of a text make one. -/
theorem Span.Of.merge {text : List Char} {s t : Span} (hs : s.Of text) (ht : t.Of text)
    (hst : s.stop.offset ≤ t.start.offset) :
    (s.merge t).Of text ∧ (s.merge t).start = s.start ∧
      (s.merge t).stop.offset = t.stop.offset := by
  have hle := hs.le
  have hle' := ht.le
  have hstart : s.start.offset ≤ t.start.offset := by omega
  unfold Span.merge
  rw [if_pos hstart]
  split
  next hstop =>
    have heq : s.stop.offset = t.stop.offset := by omega
    exact ⟨⟨hs.start, hs.stop, hle⟩, rfl, heq⟩
  next => exact ⟨⟨hs.start, ht.stop, by dsimp only; omega⟩, rfl, rfl⟩

/-! ## Slices -/

theorem sliceBytes_go_inside (start : Nat) (inside after taken : List Char) (offset : Nat) :
    sliceBytes.go start (offset + byteLength inside) (inside ++ after) offset (some taken) =
      some (String.ofList (taken.reverse ++ inside)) := by
  induction inside generalizing offset taken with
  | nil =>
    unfold sliceBytes.go
    simp [byteLength_nil]
  | cons c cs ih =>
    have hpos := c.utf8Size_pos
    have hne : offset ≠ offset + byteLength (c :: cs) := by
      rw [byteLength_cons]
      omega
    rw [List.cons_append, sliceBytes.go]
    simp only [if_neg hne, Option.isNone_some, Bool.false_and, Bool.false_eq_true, if_false,
      Option.map_some]
    rw [byteLength_cons, ← Nat.add_assoc, ih, List.reverse_cons, List.append_assoc,
      List.singleton_append]

theorem sliceBytes_go_before (before inside after : List Char) (offset : Nat) :
    sliceBytes.go (offset + byteLength before) (offset + byteLength before + byteLength inside)
      (before ++ (inside ++ after)) offset none = some (String.ofList inside) := by
  induction before generalizing offset with
  | nil =>
    have hinside := sliceBytes_go_inside offset inside after [] offset
    cases hrest : inside ++ after
    all_goals
      rw [hrest] at hinside
      unfold sliceBytes.go at hinside ⊢
      simpa [byteLength_nil, hrest] using hinside
  | cons c cs ih =>
    have hpos := c.utf8Size_pos
    have hstart : offset ≠ offset + byteLength (c :: cs) := by
      rw [byteLength_cons]
      omega
    have hstop : offset ≠ offset + byteLength (c :: cs) + byteLength inside := by
      rw [byteLength_cons]
      omega
    rw [List.cons_append, sliceBytes.go]
    simp only [hstart, hstop, Option.isNone_none, Bool.true_and, decide_false, Bool.false_eq_true,
      if_false, Option.map_none]
    rw [byteLength_cons, ← Nat.add_assoc]
    exact ih _

/-- The slice between two places is the text between them. -/
theorem sliceBytes_append {source : String} {before inside after : List Char}
    (h : source.toList = before ++ (inside ++ after)) :
    sliceBytes source (byteLength before) (byteLength before + byteLength inside) =
      some (String.ofList inside) := by
  have hgo := sliceBytes_go_before before inside after 0
  rw [Nat.zero_add] at hgo
  unfold sliceBytes
  rw [h]
  exact hgo

end Fermata
