import Fermata.Text.Character

/-!
# Tokens of YAML and the state of dividing a text into them

A YAML text is first divided into tokens. Some of them stand for characters, such as `[`, and others
for a change of the indentation, such as the end of a block.

A `Scanner` knows what is still to be read, the tokens so far, the indentation of the blocks around,
and which of the latest tokens can turn out to be a key: that is known only when a `:` follows, so
the token for the key is put in front of them later.

A `Scan` is a step on a scanner that can be refused.
-/

namespace Fermata.Yaml

/-! ## Tokens -/

/-- A place in a text: the characters before it, its line from 1, and the characters before it on
the line. -/
structure Mark where
  index : Nat := 0
  line : Nat := 1
  column : Nat := 0
deriving DecidableEq, Repr, Inhabited

/-- A refusal of a text. -/
structure Fault where
  info : String
  mark : Mark
deriving Repr, Inhabited

/-- The wording. -/
def Fault.message (f : Fault) : String :=
  f.info ++ " at byte " ++ toString f.mark.index ++ " line " ++ toString f.mark.line ++ " column "
    ++ toString (f.mark.column + 1)

/-- A token. -/
inductive Token where
  | streamEnd
  | versionDirective
  | tagDirective (handle start : String)
  | documentStart
  | documentEnd
  | blockSequenceStart
  | blockMappingStart
  | blockEnd
  | flowSequenceStart
  | flowSequenceEnd
  | flowMappingStart
  | flowMappingEnd
  | blockEntry
  | flowEntry
  | key
  | value
  | reference (name : String)
  | anchor (name : String)
  | tag (handle suffix : String)
  /-- A scalar; only a plain one can be other than a text. -/
  | scalar (plain : Bool) (text : String)
deriving DecidableEq, Repr, Inhabited

/-! ## Characters -/

/-- A line end. -/
def isBreak (c : Char) : Bool := c = '\n' || c = '\r'

/-- A blank within a line. -/
def isBlank (c : Char) : Bool := c = ' ' || c = '\t'

/-- The end of a text. -/
def isEnd (c : Char) : Bool := c = '\x00'

/-- The end of a line or of a text. -/
def endsLine (c : Char) : Bool := isBreak c || isEnd c

/-- What ends a word. -/
def endsWord (c : Char) : Bool := isBlank c || endsLine c

/-- What has a meaning between brackets. -/
def isFlow (c : Char) : Bool :=
  c = ',' || c = '[' || c = ']' || c = '\x7b' || c = '\x7d'

/-! ## Scanners -/

/-- A token that can turn out to be a key. -/
structure Candidate where
  possible : Bool := false
  /-- The text makes no sense unless it is a key. -/
  required : Bool := false
  /-- The number of the token. -/
  token : Nat := 0
  mark : Mark := {}
deriving Repr, Inhabited

/-- The indentation around a block. -/
structure Indent where
  column : Int
  /-- The block ends with a token. -/
  isBlock : Bool
deriving Repr, Inhabited

/-- The state of dividing a text into tokens. -/
structure Scanner where
  rest : List Char
  mark : Mark := {}
  tokens : Array (Mark × Token) := #[]
  /-- Where a `:` needs no blank behind it. -/
  adjacentAt : Nat := 0
  /-- A key can start here. -/
  keyAllowed : Bool := true
  /-- The candidates for keys, one for each bracket that is open and one more, innermost first. -/
  candidates : List Candidate := [{}]
  indent : Int := -1
  indents : List Indent := []
  /-- How many brackets are open. -/
  flowLevel : Nat := 0
  /-- Nothing but blanks was read on this line. -/
  atLineStart : Bool := true
  /-- A mapping in braces was opened. -/
  mappingOpened : Bool := false
  /-- Whether each sequence in brackets that is open is inside a mapping without braces. -/
  implicits : List Bool := []
deriving Inhabited

/-- A step on a scanner. -/
abbrev Scan (α : Type) := StateT Scanner (Except Fault) α

namespace Scan

/-- Refuse the text at a place. -/
def refuseAt {α : Type} (mark : Mark) (info : String) : Scan α := throw ⟨info, mark⟩

/-- Refuse the text here. -/
def refuse {α : Type} (info : String) : Scan α := do refuseAt (← get).mark info

/-- The character so many places ahead. The end of the text is a character of its own. -/
def peek (n : Nat := 0) : Scan Char := return ((← get).rest[n]?).getD '\x00'

/-- Repeat a step on a state for as long as it asks for, at most `fuel` times. -/
def iterate {σ : Type} (step : σ → Scan (σ × Bool)) : Nat → σ → Scan σ
  | 0, s => return s
  | fuel + 1, s => do
    let (s, goOn) ← step s
    if goOn then iterate step fuel s else return s

/-- Repeat a step that takes something off the text whenever it asks to be repeated. -/
def loop {σ : Type} (s : σ) (step : σ → Scan (σ × Bool)) : Scan σ := do
  iterate step ((← get).rest.length + 2) s

/-- Pass a blank. -/
def passBlank : Scan Unit := modify fun s =>
  { s with
    rest := s.rest.tail
    mark := { s.mark with index := s.mark.index + 1, column := s.mark.column + 1 } }

/-- Pass a character that is no blank. -/
def pass : Scan Unit := do
  passBlank
  modify fun s => { s with atLineStart := false }

/-- Pass a line end, if there is one. -/
def passLine : Scan Unit := do
  if (← peek) = '\r' && (← peek 1) = '\n' then passBlank
  if isBreak (← peek) then
    modify fun s =>
      { s with
        rest := s.rest.tail
        mark := ⟨s.mark.index + 1, s.mark.line + 1, 0⟩
        atLineStart := true }

/-- Pass all characters of a kind. -/
def passWhile (p : Char → Bool) : Scan (List Char) := do
  let cs ← loop [] fun cs => do
    let c ← peek
    if p c && !isEnd c then
      pass
      return (c :: cs, true)
    else return (cs, false)
  return cs.reverse

/-- Pass spaces. -/
def passSpaces : Scan Unit := loop () fun _ => do
  if (← peek) = ' ' then
    passBlank
    return ((), true)
  else return ((), false)

/-- Pass what is left of the line. -/
def passComment : Scan Unit := do
  let _ ← passWhile fun c => !endsLine c

/-- What stood before the rest of a line. -/
structure Gap where
  tab : Bool := false
  space : Bool := false
deriving Repr, Inhabited

/-- Pass blanks and a comment on this line; a comment needs a blank before it. -/
def passGap (tabs : Bool) : Scan Gap := loop ({} : Gap) fun gap => do
  match ← peek with
  | ' ' =>
    passBlank
    return ({ gap with space := true }, true)
  | '\t' =>
    if tabs then
      passBlank
      return ({ gap with tab := true }, true)
    else return (gap, false)
  | '#' =>
    if !gap.tab && !gap.space then
      refuse "comments must be separated from other tokens by whitespace"
    passComment
    return (gap, false)
  | _ => return (gap, false)

/-- Let a key start here, or not. -/
def allowKey (allowed : Bool) : Scan Unit := modify fun s => { s with keyAllowed := allowed }

/-- Add a token. -/
def push (mark : Mark) (t : Token) : Scan Unit :=
  modify fun s => { s with tokens := s.tokens.push (mark, t) }

/-- Put a token in front of one. -/
def insertAt (number : Nat) (mark : Mark) (t : Token) : Scan Unit := modify fun s =>
  { s with tokens := s.tokens.take number ++ #[(mark, t)] ++ s.tokens.drop number }

/-- Outside of brackets. -/
def inBlock : Scan Bool := return (← get).flowLevel = 0

/-- Pass blanks, comments and line ends. A tab is no indentation. -/
def toNextToken : Scan Unit := loop () fun _ => do
  let s ← get
  match ← peek with
  | '\t' =>
    if !s.indents.isEmpty && s.atLineStart && s.mark.column < s.indent then
      let _ ← passGap true
      if !endsLine (← peek) then
        refuse "tabs disallowed within this context (block indentation)"
      return ((), true)
    else
      passBlank
      return ((), true)
  | ' ' =>
    passBlank
    return ((), true)
  | '#' =>
    passComment
    return ((), true)
  | c =>
    if isBreak c then
      passLine
      if ← inBlock then allowKey true
      return ((), true)
    else return ((), false)

/-! ## Indentation -/

/-- Open a block at a column, unless one is open there already. Its token stands in front of the
token with the number given, or else at the end. -/
def openBlock (column : Nat) (number : Option Nat) (t : Token) (mark : Mark) : Scan Unit := do
  if ← inBlock then
    modify fun s =>
      match s.indents with
      | i :: rest =>
        if s.indent ≤ column && !i.isBlock then { s with indent := i.column, indents := rest }
        else s
      | [] => s
    let s ← get
    if s.indent < column then
      set { s with indent := (column : Int), indents := ⟨s.indent, true⟩ :: s.indents }
      match number with
      | some n => insertAt n mark t
      | none => push mark t

/-- Close the blocks that are indented further than a column. -/
def closeBlocks (column : Int) : Scan Unit := do
  if ← inBlock then
    let n := (← get).indents.length
    let _ ← iterate (fun _ => do
      let s ← get
      match s.indents with
      | i :: rest =>
        if column < s.indent then
          set { s with indent := i.column, indents := rest }
          if i.isBlock then push s.mark .blockEnd
          return ((), true)
        else return ((), false)
      | [] => return ((), false)) (n + 1) ()

/-- What follows a block's token is indented by at least one column. -/
def indentOne : Scan Unit := modify fun s =>
  if s.flowLevel = 0 && (s.indents.head?.map (·.isBlock)).getD false then
    { s with indents := ⟨s.indent, false⟩ :: s.indents, indent := s.indent + 1 }
  else s

/-- Forget the indentation of what is no block. -/
def dropIndents : Scan Unit := do
  let n := (← get).indents.length
  let _ ← iterate (fun _ => do
    let s ← get
    match s.indents with
    | i :: rest =>
      if i.isBlock then return ((), false)
      else
        set { s with indent := i.column, indents := rest }
        return ((), true)
    | [] => return ((), false)) (n + 1) ()

/-! ## Candidates for keys -/

/-- The next token can be a key. -/
def markCandidate : Scan Unit := modify fun s =>
  if s.keyAllowed then
    let required := s.flowLevel = 0 && s.indent = (s.mark.column : Int)
      && (s.indents.head?.map (·.isBlock)).getD false
    { s with candidates := ⟨true, required, s.tokens.size, s.mark⟩ :: s.candidates.tail }
  else s

/-- The innermost candidate is no key. -/
def dropCandidate : Scan Unit := do
  let s ← get
  match s.candidates with
  | c :: rest =>
    if c.possible && c.required then refuse "simple key expected"
    set { s with candidates := { c with possible := false } :: rest }
  | [] => return

/-- A key outside of brackets is on one line and not long. -/
def dropOldCandidates : Scan Unit := do
  let s ← get
  let isOld (c : Candidate) :=
    c.possible && s.flowLevel = 0
      && (c.mark.line < s.mark.line || c.mark.index + 1024 < s.mark.index)
  if s.candidates.any (fun c => isOld c && c.required) then refuse "simple key expect ':'"
  let candidates := s.candidates.map fun c => if isOld c then { c with possible := false } else c
  set { s with candidates }

/-- A line that divides documents starts here. -/
def atDivider (mark : Char) : Scan Bool := do
  let s ← get
  return s.mark.column = 0 && (s.rest.take 3 = List.replicate 3 mark) && endsWord (← peek 3)

end Scan

end Fermata.Yaml
