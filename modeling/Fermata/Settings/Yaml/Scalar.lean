import Fermata.Settings.Yaml.Scanner

/-!
# Scalars of YAML

A scalar is written plainly, in quotes of either kind, or as a block of lines below `|` or `>`. In
the first three forms a line end counts as a space, and several of them as one less; in a block
below `|` all line ends stay.
-/

namespace Fermata.Yaml.Scan

/-- Text as it is collected, the last character first. -/
abbrev Piece := List Char

/-- The text of a piece. -/
def pieceText (p : Piece) : String := String.ofList p.reverse

/-- Line ends inside a scalar, with the blanks around them: whether there was one, and how many
followed it. -/
structure Fold where
  first : Bool := false
  more : Nat := 0
  blanks : Piece := []
deriving Repr, Inhabited

/-- Add what a fold stands for to a piece. -/
def Fold.addTo (f : Fold) (p : Piece) : Piece :=
  if f.first then
    if f.more = 0 then ' ' :: p else List.replicate f.more '\n' ++ p
  else List.replicate f.more '\n' ++ f.blanks ++ p

/-! ## In quotes -/

/-- Letters of escapes, and what they stand for. -/
def escapes : List (Char × Char) :=
  [('0', '\x00'), ('a', '\x07'), ('b', '\x08'), ('t', '\t'), ('\t', '\t'), ('n', '\n'),
   ('v', '\x0b'), ('f', '\x0c'), ('r', '\r'), ('e', '\x1b'), (' ', ' '), ('"', '"'), ('/', '/'),
   ('\\', '\\'), ('N', '\u0085'), ('_', '\u00a0'), ('L', '\u2028'), ('P', '\u2029')]

/-- How many hexadecimal digits an escape has. -/
def escapeDigits : List (Char × Nat) := [('x', 2), ('u', 4), ('U', 8)]

/-- The character of an escape, from the backslash on. -/
def escape (start : Mark) : Scan Char := do
  let c ← peek 1
  pass
  pass
  match escapes.lookup c, escapeDigits.lookup c with
  | some d, _ => return d
  | none, some n =>
    let digits := (← get).rest.take n
    match Text.valueIn? 16 digits with
    | some v =>
      if digits.length < n then
        refuseAt start "while parsing a quoted scalar, did not find expected hexadecimal number"
      if !v.isValidChar then
        refuseAt start
          "while parsing a quoted scalar, found invalid Unicode character escape code"
      digits.forM fun _ => pass
      return Char.ofNat v
    | none =>
      refuseAt start "while parsing a quoted scalar, did not find expected hexadecimal number"
  | none, none => refuseAt start "while parsing a quoted scalar, found unknown escape character"

/-- A run without blanks of a quoted text. Gives also whether a line end was escaped. -/
def quotedRun (single : Bool) (start : Mark) (p : Piece) : Scan (Piece × Bool) :=
  loop (p, false) fun (p, _) => do
    let c ← peek
    if endsWord c then return ((p, false), false)
    else if single && c = '\'' then
      if (← peek 1) = '\'' then
        pass
        pass
        return (('\'' :: p, false), true)
      else return ((p, false), false)
    else if !single && c = '"' then return ((p, false), false)
    else if !single && c = '\\' then
      if isBreak (← peek 1) then
        pass
        passLine
        return ((p, true), false)
      else return (((← escape start) :: p, false), true)
    else
      pass
      return ((c :: p, false), true)

/-- The blanks and line ends behind a run. `broken` tells that a line end was escaped before. -/
def quotedGap (broken : Bool) : Scan Fold := do
  let (fold, _) ← loop (({} : Fold), broken) fun (fold, broken) => do
    let c ← peek
    if isBlank c then
      if broken then
        let s ← get
        if c = '\t' && s.mark.column < s.indent then refuse "tab cannot be used as indentation"
        passBlank
        return ((fold, true), true)
      else
        passBlank
        return (({ fold with blanks := c :: fold.blanks }, false), true)
    else if isBreak c then
      passLine
      if broken then return (({ fold with more := fold.more + 1 }, true), true)
      else return (({ fold with first := true, blanks := [] }, true), true)
    else return ((fold, broken), false)
  return fold

/-- Nothing that makes no sense follows a quoted text. -/
def checkBehindQuoted (start : Mark) : Scan Unit := do
  let c ← peek
  let s ← get
  let fits := endsLine c
    || (c = ':' && (s.flowLevel > 0 || start.line = s.mark.line))
    || (s.flowLevel > 0 && (c = ',' || c = '\x7d' || c = ']'))
  if !fits then refuse "invalid trailing content after double-quoted scalar"

/-- A text in quotes. -/
def quoted (single : Bool) : Scan (Mark × Token) := do
  let start := (← get).mark
  pass
  let p ← loop ([] : Piece) fun p => do
    if (← atDivider '-') || (← atDivider '.') then
      refuseAt start "while scanning a quoted scalar, found unexpected document indicator"
    if isEnd (← peek) then
      refuseAt start "while scanning a quoted scalar, found unexpected end of stream"
    let s ← get
    if s.mark.column < s.indent then refuseAt start "invalid indentation in quoted scalar"
    let (p, broken) ← quotedRun single start p
    if (← peek) = (if single then '\'' else '"') then return (p, false)
    let fold ← quotedGap broken
    return (fold.addTo p, true)
  pass
  let _ ← passGap true
  checkBehindQuoted start
  return (start, .scalar false (pieceText p))

/-! ## Plainly -/

/-- The next character goes on with a plain scalar. -/
def isPlainNext : Scan Bool := do
  let c ← peek
  let d ← peek 1
  let inFlow := (← get).flowLevel > 0
  if endsWord c then return false
  else if c = ':' && (endsWord d || (inFlow && isFlow d)) then return false
  else return !(inFlow && isFlow c)

/-- A run without blanks of a plain scalar. -/
def plainRun (p : Piece) : Scan Piece := loop p fun p => do
  if ← isPlainNext then
    let c ← peek
    pass
    return (c :: p, true)
  else return (p, false)

/-- The blanks and line ends behind a run of a plain scalar that is indented to a column. -/
def plainGap (start : Mark) (indent : Int) : Scan Fold := loop ({} : Fold) fun fold => do
  let c ← peek
  let s ← get
  if isBlank c then
    if !s.atLineStart then
      passBlank
      return ({ fold with blanks := c :: fold.blanks }, true)
    else if s.mark.column < indent && c = '\t' then
      let _ ← passGap true
      if !endsLine (← peek) then refuseAt start "while scanning a plain scalar, found a tab"
      return (fold, true)
    else
      passBlank
      return (fold, true)
  else if isBreak c then
    passLine
    if s.atLineStart then return ({ fold with more := fold.more + 1 }, true)
    else return ({ fold with first := true, blanks := [] }, true)
  else return (fold, false)

/-- A plain scalar. -/
def plain : Scan (Mark × Token) := do
  dropIndents
  let start := (← get).mark
  let indent := (← get).indent + 1
  if (← get).flowLevel > 0 && start.column < indent then
    refuseAt start "invalid indentation in flow construct"
  let (p, _) ← loop (([] : Piece), ({} : Fold)) fun (p, fold) => do
    if (← atDivider '-') || (← atDivider '.') || (← peek) = '#' then return ((p, fold), false)
    if (← get).flowLevel > 0 && (← peek) = '-' && isFlow (← peek 1) then
      refuse "plain scalar cannot start with '-' followed by ,[]\x7b\x7d"
    let p ← if ← isPlainNext then plainRun (fold.addTo p) else pure p
    let c ← peek
    if !(isBlank c || isBreak c) then return ((p, fold), false)
    let fold ← plainGap start indent
    let s ← get
    return ((p, fold), s.flowLevel > 0 || indent ≤ s.mark.column)
  if (← get).atLineStart then allowKey true
  if p.isEmpty then refuseAt start "unexpected end of plain scalar"
  return (start, .scalar true (pieceText p))

/-! ## Blocks -/

/-- What happens to the line ends at the end of a block. -/
inductive Chomping where
  | strip | clip | keep
deriving DecidableEq, Repr

/-- The mark of a chomping. -/
def chomping? (c : Char) : Option Chomping :=
  if c = '+' then some .keep else if c = '-' then some .strip else none

/-- A digit that tells the indentation. -/
def increment? (start : Mark) : Scan (Option Nat) := do
  let c ← peek
  if c = '0' then
    refuseAt start "while scanning a block scalar, found an indentation indicator equal to 0"
  if Text.isDigit c then
    pass
    return some (c.toNat - '0'.toNat)
  else return none

/-- A mark of a chomping. -/
def chompingMark? : Scan (Option Chomping) := do
  match chomping? (← peek) with
  | some c =>
    pass
    return some c
  | none => return none

/-- What stands behind `|` or `>`, in either order. -/
def blockHeader (start : Mark) : Scan (Chomping × Nat) := do
  match ← chompingMark? with
  | some c => return (c, (← increment? start).getD 0)
  | none =>
    match ← increment? start with
    | some n => return ((← chompingMark?).getD .clip, n)
    | none => return (.clip, 0)

/-- Pass empty lines and the indentation of the first other line. Gives the number of line ends. -/
def blockIndent (indent : Nat) : Scan Nat := loop 0 fun breaks => do
  let s ← get
  let spaces := min (indent - s.mark.column) (s.rest.takeWhile (· = ' ')).length
  (List.replicate spaces ()).forM fun _ => passBlank
  if isBreak (← peek) then
    passLine
    return (breaks + 1, true)
  else return (breaks, false)

/-- Find the indentation of a block from its first line, passing empty lines. Gives it and the
number of line ends. -/
def findIndent : Scan (Nat × Nat) := do
  let (widest, breaks) ← loop (0, 0) fun (widest, breaks) => do
    passSpaces
    let widest := max widest (← get).mark.column
    if isBreak (← peek) then
      passLine
      return ((widest, breaks + 1), true)
    else return ((widest, breaks), false)
  let s ← get
  let indent := max widest (s.indent + 1).toNat
  return (if s.indent > 0 then max indent 1 else indent, breaks)

/-- What was read of a block. -/
structure Block where
  text : Piece := []
  /-- The last line was ended. -/
  ended : Bool := false
  /-- Empty lines behind it. -/
  breaks : Nat := 0
  /-- The last line starts with a blank. -/
  blank : Bool := false
deriving Repr, Inhabited

/-- Add a line to a block. Below `>` a line end between two lines that start with no blank is a
space, or goes away if empty lines follow it. -/
def Block.next (b : Block) (literal blank : Bool) : Piece :=
  if !literal && b.ended && !b.blank && !blank then
    if b.breaks = 0 then ' ' :: b.text else List.replicate b.breaks '\n' ++ b.text
  else List.replicate (b.breaks + if b.ended then 1 else 0) '\n' ++ b.text

/-- The lines of a block. -/
def blockLines (literal : Bool) (indent : Nat) (breaks : Nat) : Scan Block :=
  loop ({ breaks } : Block) fun b => do
    let c ← peek
    if (← get).mark.column ≠ indent || isEnd c then return (b, false)
    if indent = 0 && ((← atDivider '.')) then return (b, false)
    let text := b.next literal (isBlank c)
    let line ← passWhile fun c => !isBreak c
    let text := line.reverse ++ text
    if isEnd (← peek) then return ({ text, blank := isBlank c }, false)
    passLine
    return ({ text, ended := true, breaks := ← blockIndent indent, blank := isBlank c }, true)

/-- A block of lines. -/
def block (literal : Bool) : Scan (Mark × Token) := do
  let start := (← get).mark
  pass
  dropIndents
  let (chomping, increment) ← blockHeader start
  let _ ← passGap true
  if !endsLine (← peek) then
    refuseAt start "while scanning a block scalar, did not find expected comment or line break"
  let broken := isBreak (← peek)
  passLine
  if (← peek) = '\t' then refuseAt start "a block scalar content cannot start with a tab"
  let around := (← get).indent
  let (indent, breaks) ←
    if increment > 0 then
      let indent := if 0 ≤ around then (around + increment).toNat else increment
      pure (indent, ← blockIndent indent)
    else findIndent
  let s ← get
  let done (p : Piece) : Mark × Token := (start, .scalar false (pieceText p))
  if isEnd (← peek) then
    let lines := match chomping with
      | .strip => 0
      | .clip => if broken then 1 else 0
      | .keep => if !broken then 0 else if breaks = 0 then 1 else breaks
    return done (List.replicate (if s.mark.line = start.line then 0 else lines) '\n')
  if s.mark.column < indent && around < s.mark.column then
    refuse "wrongly indented line in block scalar"
  let b ← blockLines literal indent breaks
  let s ← get
  let ending := (if b.ended then 1 else 0)
    + if isEnd (← peek) && max indent 1 ≤ s.mark.column then 1 else 0
  return done (match chomping with
    | .strip => b.text
    | .clip => List.replicate ending '\n' ++ b.text
    | .keep => List.replicate (ending + b.breaks) '\n' ++ b.text)

end Fermata.Yaml.Scan
