import Fermata.Text.Encoding

/-!
# Positions and spans

A `Position` is a place between two characters of a source text. It is kept in three ways at once:
the byte offset in UTF-8, the line, and the column in characters; all count from zero, and only a
line feed ends a line. A `Span` is the stretch between two positions.

* `Position.advance` moves over one character, `Position.through` over a text.
* `Position.ofOffset` (`offset_to_line_col`) finds line and column by scanning the text from its start. A
  cursor that moves by `advance` keeps the same numbers without scanning (`ofOffset_append`).
* `Span.merge` (`Span::merge`) is the least span that covers two others.
* `Span.isBlank` (`is_default_span`) tells a span that says nothing.
-/

namespace Fermata

/-- A place in a source text: byte offset, line and column, all from zero. -/
structure Position where
  offset : Nat := 0
  line : Nat := 0
  column : Nat := 0
deriving DecidableEq, Repr, Inhabited

namespace Position

open Text (byteLength byteLength_nil byteLength_cons)

/-- The position after one more character. -/
def advance (p : Position) (c : Char) : Position :=
  if c = '\n' then ⟨p.offset + c.utf8Size, p.line + 1, 0⟩
  else ⟨p.offset + c.utf8Size, p.line, p.column + 1⟩

/-- The position after a text. -/
def through (p : Position) (text : List Char) : Position :=
  text.foldl advance p

/-- The later of two positions, the first one when they have the same offset. -/
def later (p q : Position) : Position :=
  if p.offset < q.offset then q else p

/-- The position of a byte offset, by scanning `text` up to it. -/
def ofOffset (text : List Char) (offset : Nat) : Position :=
  go text {}
where
  /-- Scan on from `p`. -/
  go : List Char → Position → Position
    | [], p => p
    | c :: cs, p => if p.offset ≥ offset then p else go cs (p.advance c)

/-- Nothing to pass. -/
theorem through_nil (p : Position) : p.through [] = p := rfl

/-- One character first. -/
theorem through_cons (p : Position) (c : Char) (cs : List Char) :
    p.through (c :: cs) = (p.advance c).through cs := rfl

/-- One text after another. -/
theorem through_append (p : Position) (a b : List Char) :
    p.through (a ++ b) = (p.through a).through b :=
  List.foldl_append

/-- The offset counts bytes. -/
theorem offset_advance (p : Position) (c : Char) :
    (p.advance c).offset = p.offset + c.utf8Size := by
  unfold advance
  split <;> rfl

/-- The offset counts the bytes of a text. -/
theorem offset_through (p : Position) (text : List Char) :
    (p.through text).offset = p.offset + byteLength text := by
  induction text generalizing p with
  | nil => rfl
  | cons c cs ih =>
    rw [through_cons, ih, offset_advance, byteLength_cons, Nat.add_assoc]

/-- Scanning from `p` for the end of a text passes that text. -/
theorem ofOffset_go_through (a b : List Char) (p : Position) (n : Nat)
    (h : n = p.offset + byteLength a) :
    ofOffset.go n (a ++ b) p = p.through a := by
  induction a generalizing p with
  | nil =>
    have hn : p.offset ≥ n := by simp only [byteLength_nil] at h; omega
    cases b with
    | nil => rfl
    | cons c cs => simp [ofOffset.go, hn, through_nil]
  | cons c cs ih =>
    have hpos := c.utf8Size_pos
    rw [byteLength_cons] at h
    have hn : ¬p.offset ≥ n := by omega
    rw [List.cons_append, ofOffset.go, if_neg hn, through_cons]
    exact ih (p.advance c) (by rw [offset_advance]; omega)

/-- Passing a text step by step and scanning for its end give the same position. -/
theorem ofOffset_append (a b : List Char) :
    ofOffset (a ++ b) (byteLength a) = Position.through {} a :=
  ofOffset_go_through a b {} _ (Nat.zero_add _).symm

end Position

/-- A stretch of a source text. -/
structure Span where
  start : Position := {}
  stop : Position := {}
deriving DecidableEq, Repr, Inhabited

namespace Span

/-- The span that no node of a source text has: nodes built by hand carry it. -/
def isBlank (s : Span) : Bool := s == {}

/-- The least span that covers both. -/
def merge (a b : Span) : Span where
  start := if a.start.offset ≤ b.start.offset then a.start else b.start
  stop := if a.stop.offset ≥ b.stop.offset then a.stop else b.stop

end Span

end Fermata
