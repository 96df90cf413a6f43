/-!
# Reading pieces of a text

Small readers from which those of the settings formats are put together. A reader takes a piece off
the front of a text, or refuses it.

A refusal says where it arose, what was being read there and what could have stood there. It is soft
as long as another way of reading may be tried, and firm once it is known that nothing else fits:
`orElse` and `attempt?` go on after a soft refusal, from where they started, and pass a firm one on.
-/

namespace Fermata

/-- Why a text is refused. -/
structure Refusal where
  /-- The text from where it was refused. -/
  rest : List Char
  /-- Nothing else is tried. -/
  firm : Bool := false
  /-- What was being read. -/
  subject : Option String := none
  /-- What could have stood there. -/
  expected : List String := []
  /-- What is wrong with what was read. -/
  cause : Option String := none
deriving Repr, Inhabited

/-- A reader: takes a piece off the front of a text. -/
abbrev Reading (α : Type) := StateT (List Char) (Except Refusal) α

namespace Reading

variable {α β : Type}

/-! ## Refusing -/

/-- Refuse what stands here. -/
def refuse : Reading α := fun text => .error { rest := text }

/-- Refuse what stands here for good, for a reason. -/
def refuseFor (cause : String) : Reading α :=
  fun text => .error { rest := text, firm := true, cause := some cause }

/-- The same reader, with its refusals changed. -/
def adapt (f : Refusal → Refusal) (p : Reading α) : Reading α := fun text =>
  match p text with
  | .ok r => .ok r
  | .error e => .error (f e)

/-- Let no other way of reading be tried. -/
def firmly (p : Reading α) : Reading α := p.adapt fun e => { e with firm := true }

/-- Say what is being read; the innermost word counts. -/
def about (subject : String) (p : Reading α) : Reading α :=
  p.adapt fun e => { e with subject := e.subject.or (some subject) }

/-- Say what could stand here. -/
def hoping (expected : List String) (p : Reading α) : Reading α :=
  p.adapt fun e => { e with expected := e.expected ++ expected }

/-! ## Choosing -/

/-- One way of reading, or else the other. -/
def orElse (p q : Reading α) : Reading α := fun text =>
  match p text with
  | .error e => if e.firm then .error e else q text
  | r => r

/-- What can be read, if anything. -/
def attempt? (p : Reading α) : Reading (Option α) := orElse (some <$> p) (pure none)

/-- Read without taking anything off. -/
def ahead (p : Reading α) : Reading α := fun text =>
  match p text with
  | .ok (a, _) => .ok (a, text)
  | .error e => .error e

/-- Convert what was read, or refuse it from its start for a reason. -/
def checked (p : Reading α) (f : α → Except String β) : Reading β := fun text =>
  match p text with
  | .error e => .error e
  | .ok (a, rest) =>
    match f a with
    | .ok b => .ok (b, rest)
    | .error cause => .error { rest := text, cause := some cause }

/-! ## Characters -/

/-- The next character, left where it is. -/
def next? : Reading (Option Char) := fun text => .ok (text.head?, text)

/-- A character of a kind. -/
def charIf (p : Char → Bool) : Reading Char := fun text =>
  match text with
  | c :: rest => if p c then .ok (c, rest) else refuse text
  | [] => refuse text

/-- One character. -/
def char (c : Char) : Reading Char := charIf (· = c)

/-- A word. -/
def word (w : String) : Reading Unit := fun text =>
  if w.toList.isPrefixOf text then .ok ((), text.drop w.length) else refuse text

/-- All characters of a kind from here. -/
def takeWhile (p : Char → Bool) : Reading (List Char) := fun text => .ok (text.span p)

/-- At least one character of a kind. -/
def takeSome (p : Char → Bool) : Reading (List Char) := fun text =>
  match text.span p with
  | ([], _) => refuse text
  | r => .ok r

/-- Some number of characters of a kind. -/
def takeExactly (n : Nat) (p : Char → Bool) : Reading (List Char) := fun text =>
  let piece := text.take n
  if piece.length = n ∧ piece.all p then .ok (piece, text.drop n) else refuse text

/-- The end of the text. -/
def atEnd : Reading Unit := fun text => if text.isEmpty then .ok ((), text) else refuse text

/-- The text of what a reader takes off. -/
def taken (p : Reading α) : Reading (List Char) := fun text =>
  match p text with
  | .ok (_, rest) => .ok (text.take (text.length - rest.length), rest)
  | .error e => .error e

/-! ## Repeating -/

/-- As many as there are, at most `fuel`. -/
def repeated (p : Reading α) : Nat → Reading (List α)
  | 0 => pure []
  | fuel + 1 => do
    match ← attempt? p with
    | some a => return a :: (← repeated p fuel)
    | none => return []

/-- As many as there are. -/
def many (p : Reading α) : Reading (List α) := fun text => repeated p (text.length + 1) text

/-- At least one. -/
def manySome (p : Reading α) : Reading (List α) := do
  let first ← p
  return first :: (← many p)

/-- As many as there are, with something between them. What divides two is left where it is if
nothing follows it. -/
def separated (p : Reading α) (between : Reading β) : Reading (List α) := do
  match ← attempt? p with
  | some first => return first :: (← many do
      let _ ← between
      p)
  | none => return []

/-- At least one, with something between them. -/
def separatedSome (p : Reading α) (between : Reading β) : Reading (List α) := do
  let first ← p
  return first :: (← many do
    let _ ← between
    p)

end Reading

end Fermata
