import Fermata.Settings.Yaml.Scalar
import Fermata.Text.Character

/-!
# Dividing a YAML text into tokens

`Token.ofText` gives the tokens of a text. `Scan.fetch` adds the next tokens at a place; what it
does depends on the next one or two characters.
-/

namespace Fermata.Yaml

namespace Scan

/-! ## Directives, tags and anchors -/

/-- A character of a word in a tag. -/
def isTagWord (c : Char) : Bool := Text.isLetter c || Text.isDigit c || c = '_' || c = '-'

/-- A character of an address in a tag. -/
def isAddressPart (c : Char) : Bool :=
  isTagWord c || "#;/?:@&=+$,.!~*'()[]%".toList.contains c

/-- A character of a tag behind its handle. -/
def isTagPart (c : Char) : Bool := isAddressPart c && !isFlow c && c ≠ '!'

/-- The handle of a tag. -/
def tagHandle (inDirective : Bool) (start : Mark) : Scan String := do
  if (← peek) ≠ '!' then refuseAt start "while scanning a tag, did not find expected '!'"
  pass
  let word ← passWhile isTagWord
  if (← peek) = '!' then
    pass
    return "!" ++ String.ofList word ++ "!"
  else if inDirective && !word.isEmpty then
    refuseAt start "while parsing a tag directive, did not find expected '!'"
  else return "!" ++ String.ofList word

/-- A tag between `<` and `>`. -/
def verbatimTag (start : Mark) : Scan String := do
  pass
  pass
  let address ← passWhile isAddressPart
  if (← peek) ≠ '>' then
    refuseAt start "while scanning a verbatim tag, did not find the expected '>'"
  pass
  return String.ofList address

/-- A tag. -/
def tag : Scan (Mark × Token) := do
  let start := (← get).mark
  let t ← if (← peek 1) = '<' then pure (Token.tag "" (← verbatimTag start)) else do
    let handle ← tagHandle false start
    let suffix := String.ofList (← passWhile isTagPart)
    if handle.length ≥ 2 && handle.toList.getLast? = some '!' then
      if suffix.isEmpty && handle ≠ "!!" then
        refuseAt start "while parsing a tag, did not find expected tag URI"
      pure (.tag handle suffix)
    else
      let suffix := String.ofList (handle.toList.drop 1) ++ suffix
      pure (if suffix.isEmpty then .tag "" "!" else .tag "!" suffix)
  let c ← peek
  if !(endsWord c || ((← get).flowLevel > 0 && isFlow c)) then
    refuseAt start "while scanning a tag, did not find expected whitespace or line break"
  return (start, t)

/-- The name behind `&` or `*`. -/
def anchorName : Scan String := do
  let start := (← get).mark
  pass
  let name ← passWhile fun c => !endsWord c && !isFlow c && c ≠ '\uFEFF'
  if name.isEmpty then
    refuseAt start ("while scanning an anchor or alias, did not find expected alphabetic or "
      ++ "numeric character")
  return String.ofList name

/-- The number in a version. -/
def versionNumber (start : Mark) : Scan Unit := do
  let digits ← passWhile Text.isDigit
  if digits.isEmpty then
    refuseAt start "while scanning a YAML directive, did not find expected version number"
  if digits.length > 9 then
    refuseAt start "while scanning a YAML directive, found extremely long version number"

/-- A directive, behind its `%`. -/
def directive (start : Mark) : Scan Token := do
  let name := String.ofList (← passWhile isTagWord)
  if name.isEmpty then
    refuseAt start "while scanning a directive, could not find expected directive name"
  if !endsWord (← peek) then
    refuseAt start "while scanning a directive, found unexpected non-alphabetical character"
  let _ ← passWhile isBlank
  let t ← if name = "YAML" then do
      versionNumber start
      if (← peek) ≠ '.' then
        refuseAt start
          "while scanning a YAML directive, did not find expected digit or '.' character"
      pass
      versionNumber start
      pure Token.versionDirective
    else if name = "TAG" then do
      let handle ← tagHandle true start
      let _ ← passWhile isBlank
      let address := String.ofList (← passWhile isAddressPart)
      if !endsWord (← peek) then
        refuseAt start "while scanning TAG, did not find expected whitespace or line break"
      pure (.tagDirective handle address)
    else do
      passComment
      pure (.tagDirective "" "")
  let _ ← passGap true
  if !endsLine (← peek) then
    refuseAt start "while scanning a directive, did not find expected comment or line break"
  passLine
  return t

/-- A directive. -/
def fetchDirective : Scan Unit := do
  closeBlocks (-1)
  dropCandidate
  allowKey false
  let start := (← get).mark
  pass
  push start (← directive start)

/-! ## Brackets -/

/-- In a sequence in brackets, end the mapping without braces that is open. -/
def endImplicit (mark : Mark) : Scan Unit := do
  let s ← get
  match s.implicits with
  | true :: rest =>
    set { s with implicits := false :: rest, mappingOpened := false }
    push mark .flowMappingEnd
  | _ => return

/-- An opening bracket. -/
def fetchOpening (t : Token) : Scan Unit := do
  markCandidate
  indentOne
  let mark := (← get).mark
  if (← get).flowLevel ≥ 255 then refuse "recursion limit exceeded"
  modify fun s =>
    { s with
      flowLevel := s.flowLevel + 1
      candidates := {} :: s.candidates
      mappingOpened := s.mappingOpened || t = .flowMappingStart
      implicits := if t = .flowMappingStart then s.implicits else false :: s.implicits }
  allowKey true
  pass
  let _ ← passGap true
  push mark t

/-- A closing bracket. -/
def fetchClosing (t : Token) : Scan Unit := do
  dropCandidate
  modify fun s =>
    if s.flowLevel > 0 then
      { s with flowLevel := s.flowLevel - 1, candidates := s.candidates.tail }
    else s
  allowKey false
  let mark := (← get).mark
  if t = .flowSequenceEnd then
    endImplicit mark
    modify fun s => { s with implicits := s.implicits.tail }
  pass
  let _ ← passGap true
  modify fun s => if s.flowLevel > 0 then { s with adjacentAt := s.mark.index } else s
  push mark t

/-- A comma. -/
def fetchComma : Scan Unit := do
  dropCandidate
  allowKey true
  let mark := (← get).mark
  endImplicit mark
  pass
  let _ ← passGap true
  push mark .flowEntry

/-! ## Entries, keys and values -/

/-- The last token is an anchor or a tag at the start of a line. -/
def isMargin : Option (Mark × Token) → Bool
  | some (mark, .anchor _) => mark.column = 0
  | some (mark, .tag ..) => mark.column = 0
  | _ => false

/-- A `-` in front of an entry. -/
def fetchEntry : Scan Unit := do
  let s ← get
  if s.flowLevel > 0 then refuse "\"-\" is only valid inside a block"
  if !s.keyAllowed then refuse "block sequence entries are not allowed in this context"
  if s.mark.column = 0 && isMargin s.tokens.back? && -1 < s.indent then
    refuse "invalid indentation for anchor"
  pass
  openBlock s.mark.column none .blockSequenceStart s.mark
  let gap ← passGap true
  if gap.tab && (← peek) = '-' && endsWord (← peek 1) then
    refuse "'-' must be followed by a valid YAML whitespace"
  let c ← peek
  if isBreak c || isFlow c then indentOne
  dropCandidate
  allowKey true
  push (← get).mark .blockEntry

/-- Pass spaces, line ends and comments, of which there has to be something. -/
def passSpacing : Scan Unit := do
  let found ← loop false fun found => do
    match ← peek with
    | ' ' =>
      passBlank
      return (true, true)
    | '#' =>
      passComment
      return (found, true)
    | c =>
      if isBreak c then
        passLine
        if ← inBlock then allowKey true
        return (true, true)
      else return (found, false)
  if !found then refuse "expected whitespace"

/-- A `?` in front of a key. -/
def fetchKey : Scan Unit := do
  let s ← get
  if s.flowLevel = 0 then
    if !s.keyAllowed then refuse "mapping keys are not allowed in this context"
    openBlock s.mark.column none .blockMappingStart s.mark
  else modify fun s => { s with mappingOpened := true }
  dropCandidate
  allowKey (s.flowLevel = 0)
  pass
  passSpacing
  if (← peek) = '\t' then refuse "tabs disallowed in this context"
  push s.mark .key

/-- A `:` in front of a value. -/
def fetchValue : Scan Unit := do
  let s ← get
  let candidate := s.candidates.headD {}
  let isImplicit := !s.implicits.isEmpty && !s.mappingOpened
  if isImplicit then modify fun s => { s with implicits := true :: s.implicits.tail }
  pass
  if (← peek) = '\t' then
    let gap ← passGap true
    let c ← peek
    if !gap.space && isTagWord c then
      refuse "':' must be followed by a valid YAML whitespace"
  if candidate.possible then
    insertAt candidate.token candidate.mark .key
    if isImplicit then
      if candidate.mark.line < s.mark.line then
        refuseAt s.mark "illegal placement of ':' indicator"
      insertAt candidate.token s.mark .flowMappingStart
    openBlock candidate.mark.column (some candidate.token) .blockMappingStart candidate.mark
    indentOne
    modify fun s =>
      { s with candidates := { candidate with possible := false } :: s.candidates.tail }
    allowKey false
  else
    if isImplicit then push s.mark .flowMappingStart
    if s.flowLevel = 0 then
      if !s.keyAllowed then
        refuseAt s.mark "mapping values are not allowed in this context"
      openBlock s.mark.column none .blockMappingStart s.mark
    indentOne
    allowKey (s.flowLevel = 0)
  push s.mark .value

/-! ## All tokens -/

/-- A scalar, or something else that can be a key. -/
def fetchWith (t : Scan (Mark × Token)) : Scan Unit := do
  markCandidate
  allowKey false
  let (mark, t) ← t
  push mark t

/-- A scalar in quotes: between brackets a `:` can follow directly. -/
def fetchQuoted (single : Bool) : Scan Unit := do
  markCandidate
  allowKey false
  let (mark, t) ← quoted single
  toNextToken
  modify fun s => { s with adjacentAt := s.mark.index }
  push mark t

/-- A block of lines. -/
def fetchBlock (literal : Bool) : Scan Unit := do
  markCandidate
  allowKey true
  let (mark, t) ← block literal
  push mark t

/-- An anchor or a reference to one. -/
def fetchName (make : String → Token) : Scan Unit := fetchWith do
  let mark := (← get).mark
  return (mark, make (← anchorName))

/-- A line that divides documents. -/
def fetchDivider (t : Token) : Scan Unit := do
  closeBlocks (-1)
  dropCandidate
  allowKey false
  let mark := (← get).mark
  pass
  pass
  pass
  push mark t
  if t = .documentEnd then
    let _ ← passGap true
    if !endsLine (← peek) then refuse "invalid content after document end marker"

/-- The end of the text. -/
def fetchEnd : Scan Unit := do
  modify fun s =>
    if s.mark.column ≠ 0 then { s with mark := ⟨s.mark.index, s.mark.line + 1, 0⟩ } else s
  let s ← get
  if s.candidates.any (fun c => c.possible && c.required) then refuse "simple key expected"
  modify fun s => { s with candidates := s.candidates.map ({ · with possible := false }) }
  closeBlocks (-1)
  allowKey false
  push (← get).mark .streamEnd

/-- The next tokens at a character that is no divider. -/
def fetchAt (c d : Char) : Scan Unit := do
  let s ← get
  let inFlow := s.flowLevel > 0
  match c with
  | '[' => fetchOpening .flowSequenceStart
  | '\x7b' => fetchOpening .flowMappingStart
  | ']' => fetchClosing .flowSequenceEnd
  | '\x7d' => fetchClosing .flowMappingEnd
  | ',' => fetchComma
  | '*' => fetchName .reference
  | '&' => fetchName .anchor
  | '!' => fetchWith tag
  | '\'' => fetchQuoted true
  | '"' => fetchQuoted false
  | _ =>
    if c = '-' && endsWord d then fetchEntry
    else if c = '?' && endsWord d then fetchKey
    else if c = ':' && (endsWord d || (inFlow && (isFlow d || s.mark.index = s.adjacentAt))) then
      fetchValue
    else if (c = '|' || c = '>') && !inFlow then fetchBlock (c = '|')
    else if c = '%' || c = '@' || c = '\x60' then
      refuse ("unexpected character: \x60" ++ String.ofList [c] ++ "'")
    else fetchWith plain

/-- The next tokens. Gives whether there are more. -/
def fetch : Scan Bool := do
  toNextToken
  dropOldCandidates
  closeBlocks (← get).mark.column
  let c ← peek
  if isEnd c then
    fetchEnd
    return false
  let s ← get
  if s.mark.column = 0 && c = '%' then fetchDirective
  else if ← atDivider '-' then fetchDivider .documentStart
  else if ← atDivider '.' then fetchDivider .documentEnd
  else
    if s.mark.column < s.indent then refuse "invalid indentation"
    fetchAt c (← peek 1)
  return true

end Scan

/-- The tokens of a text. -/
def Token.ofText (text : String) : Except Fault (List (Mark × Token)) := do
  let all : Scan Unit := Scan.loop () fun _ => return ((), ← Scan.fetch)
  let (_, s) ← all.run { rest := text.toList }
  return s.tokens.toList

end Fermata.Yaml
