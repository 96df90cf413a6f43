import Fermata.Syntax.Span

/-!
# Cursors and trivia

A `Cursor` is a place in a source text from which reading goes on: the characters ahead, the
position, and the number that the next function literal gets. Cursors are values, so that going
back is holding on to the old one.

Trivia is what may stand between two tokens: blanks, comments to the end of the line, and comments
between `/*` and `*/`. A comment that is opened and never closed is no trivia.

* `Cursor.skip` passes over trivia.
* A `Matcher` reads something at a cursor, or says how far it got (`Reply`): the furthest place where
  something else could have stood. `andThen`, `or`, `optional`, `many` and the others put matchers
  together; `tight` does so without trivia in between.

Left out: trying a rule again at a place where it was tried before, which makes no difference to what is
read.
-/

namespace Fermata

/-- A place in a source text from which reading goes on. -/
structure Cursor where
  rest : List Char
  pos : Position := {}
  nextFunction : Nat := 1

namespace Cursor

/-- Pass a text, `rest` being what follows it. -/
def passText (c : Cursor) (text rest : List Char) : Cursor :=
  { c with rest := rest, pos := c.pos.through text }

/-- Blanks between tokens: space, tab, both line ends, the byte order mark and the no-break
space. -/
def isSpace (ch : Char) : Bool :=
  ch = ' ' || ch = '\t' || ch = '\r' || ch = '\n' || ch.toNat = 0xFEFF || ch.toNat = 0xA0

/-- Where skipping trivia stands: between tokens, in a comment that ends with the line, or in one
that was opened at the position and with the rest given. -/
inductive TriviaMode where
  | between
  | line
  | block (opened : List Char) (at_ : Position)

/-- Skip trivia in the given text: what is left and where. -/
def skipFrom : TriviaMode → List Char → Position → List Char × Position
  | .between, [], p => ([], p)
  | .between, '/' :: '/' :: cs, p => skipFrom .line cs ((p.advance '/').advance '/')
  | .between, '/' :: '*' :: cs, p =>
    skipFrom (.block ('/' :: '*' :: cs) p) cs ((p.advance '/').advance '*')
  | .between, ch :: cs, p =>
    if isSpace ch then skipFrom .between cs (p.advance ch) else (ch :: cs, p)
  | .line, [], p => ([], p)
  | .line, ch :: cs, p => skipFrom (if ch = '\n' then .between else .line) cs (p.advance ch)
  | .block opened start, [], _ => (opened, start)
  | .block _ _, '*' :: '/' :: cs, p => skipFrom .between cs ((p.advance '*').advance '/')
  | .block opened start, ch :: cs, p => skipFrom (.block opened start) cs (p.advance ch)

/-- Skip trivia. -/
def skip (c : Cursor) : Cursor :=
  let (rest, pos) := skipFrom .between c.rest c.pos
  { c with rest := rest, pos := pos }

end Cursor

/-!
## Matchers

A `Matcher` tries to read something at a cursor. It either succeeds with a value and the cursor
behind it, or fails; alternatives are tried in order and the first success is final. A sequence
skips trivia between its parts.

For the message about a text that does not match, every reply also says how far matching came: the
latest position at which a named rule was tried and failed. Plain pieces of text fail silently; only
`rule` and `token` leave such a mark.
-/

/-- What a matcher answers: the furthest failure of a named rule, and a success if there was one. -/
structure Reply (α : Type) where
  reach : Position
  result : Option (α × Cursor)

/-- Something that can be tried at a cursor. -/
abbrev Matcher (α : Type) := Cursor → Reply α

namespace Reply

/-- Take an earlier failure into account. -/
def widen (reach : Position) (r : Reply α) : Reply α := { r with reach := reach.later r.reach }

end Reply

namespace Matcher

variable {α β : Type}

/-- Succeed without reading. -/
def succeed (a : α) : Matcher α := fun c => ⟨{}, some (a, c)⟩

/-- Fail silently. -/
def fail : Matcher α := fun _ => ⟨{}, none⟩

/-- Change the value. -/
def map (f : α → β) (p : Matcher α) : Matcher β := fun c =>
  let r := p c
  ⟨r.reach, r.result.map fun (a, c') => (f a, c')⟩

/-- `p`, then directly `f`. -/
def tight (p : Matcher α) (f : α → Matcher β) : Matcher β := fun c =>
  match p c with
  | ⟨reach, none⟩ => ⟨reach, none⟩
  | ⟨reach, some (a, c')⟩ => (f a c').widen reach

/-- `p`, then trivia, then `f`. -/
def andThen (p : Matcher α) (f : α → Matcher β) : Matcher β :=
  p.tight fun a c => f a c.skip

/-- `p`, trivia and `q`, for the value of `q`. -/
def before (p : Matcher α) (q : Matcher β) : Matcher β := p.andThen fun _ => q

/-- `p`, trivia and `q`, for the value of `p`. -/
def closedBy (p : Matcher α) (q : Matcher β) : Matcher α := p.andThen fun a => q.map fun _ => a

/-- `p`, or else `q` at the same place. -/
def or (p q : Matcher α) : Matcher α := fun c =>
  match p c with
  | ⟨reach, none⟩ => (q c).widen reach
  | reply => reply

/-- The first of several that succeeds. -/
def firstOf : List (Matcher α) → Matcher α
  | [] => fail
  | p :: ps => p.or (firstOf ps)

/-- `p` if it matches. -/
def optional (p : Matcher α) : Matcher (Option α) := fun c =>
  match p c with
  | ⟨reach, none⟩ => ⟨reach, some (none, c)⟩
  | ⟨reach, some (a, c')⟩ => ⟨reach, some (some a, c')⟩

/-- Trivia and `p`, as often as it matches, at most `fuel` times. Trivia behind the last match is
not passed. -/
def more (p : Matcher α) : Nat → Matcher (List α)
  | 0, c => ⟨{}, some ([], c)⟩
  | fuel + 1, c =>
    match p c.skip with
    | ⟨reach, none⟩ => ⟨reach, some ([], c)⟩
    | ⟨reach, some (a, c')⟩ => ((more p fuel c').widen reach) |> fun r =>
        ⟨r.reach, r.result.map fun (as, c'') => (a :: as, c'')⟩

/-- `p` as often as it matches, with trivia between. -/
def many (fuel : Nat) (p : Matcher α) : Matcher (List α) := fun c =>
  match p c with
  | ⟨reach, none⟩ => ⟨reach, some ([], c)⟩
  | ⟨reach, some (a, c')⟩ => ((more p fuel c').widen reach) |> fun r =>
      ⟨r.reach, r.result.map fun (as, c'') => (a :: as, c'')⟩

/-- A named rule: its failure is remembered at the place where it was tried, and its success is
given the span that it covers. -/
def rule (p : Matcher α) (f : Span → α → β) : Matcher β := fun c =>
  match p c with
  | ⟨reach, none⟩ => ⟨reach.later c.pos, none⟩
  | ⟨reach, some (a, c')⟩ => ⟨reach, some (f ⟨c.pos, c'.pos⟩ a, c')⟩

/-- What is left of a text behind a piece at its front. -/
def strip? : List Char → List Char → Option (List Char)
  | [], text => some text
  | _ :: _, [] => none
  | p :: ps, c :: cs => if p = c then strip? ps cs else none

/-- A piece of text. -/
def text (piece : List Char) : Matcher Unit := fun c =>
  match strip? piece c.rest with
  | some rest => ⟨{}, some ((), c.passText piece rest)⟩
  | none => ⟨{}, none⟩

/-- A character that must not come next. -/
def notNext (ch : Char) : Matcher Unit := fun c =>
  if c.rest.head? = some ch then ⟨{}, none⟩ else ⟨{}, some ((), c)⟩

end Matcher

end Fermata
