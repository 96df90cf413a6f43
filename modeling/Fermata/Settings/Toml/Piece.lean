import Fermata.Settings.Reading
import Fermata.Text.Character

/-!
# Pieces of TOML

Blanks, comments, line ends, quoted texts and keys. Control characters other than the tab stand
nowhere, and a carriage return only before a line feed.
-/

namespace Fermata.Toml

open Reading Text

/-! ## Blanks and lines -/

/-- A blank within a line. -/
def isBlank (c : Char) : Bool := c = ' ' || c = '\t'

/-- A character of a line. -/
def isPlain (c : Char) : Bool := c = '\t' || (' ' ≤ c && c ≠ '\x7f')

/-- Blanks within a line. -/
def blanks : Reading Unit := do
  let _ ← takeWhile isBlank

/-- A comment. -/
def comment : Reading Unit := do
  let _ ← char '#'
  let _ ← takeWhile isPlain

/-- A line end. -/
def lineEnd : Reading Unit :=
  orElse (do let _ ← char '\n') (do
    let _ ← char '\r'
    let _ ← char '\n')

/-- The rest of a line: blanks and a comment, and the end of the line or of the text. -/
def lineRest : Reading Unit := do
  blanks
  let _ ← attempt? comment
  orElse lineEnd atEnd

/-- `lineRest`, where nothing else can stand. -/
def endOfLine : Reading Unit := (firmly lineRest).hoping ["newline", "`#`"]

/-- One line of `lines`. -/
def blankLine : Reading Unit := do
  blanks
  match ← next? with
  | some '#' =>
    comment
    lineEnd
  | _ => lineEnd

/-- Blanks, comments and line ends. A comment that its line does not end is refused. -/
def lines : Reading Unit := do
  let _ ← many blankLine
  blanks
  if (← next?) = some '#' then
    comment
    lineEnd
  else if (← next?) = some '\r' then lineEnd

/-! ## Quoted texts -/

/-- The character of so many hexadecimal digits. -/
def numbered (digits : Nat) : Reading Char :=
  ((takeExactly digits fun c => (digitIn? 16 c).isSome).checked fun ds =>
    match valueIn? 16 ds with
    | some n => if n.isValidChar then .ok (Char.ofNat n) else .error "value is out of range"
    | none => .error "value is out of range")
    |> firmly |>.about ("unicode " ++ toString digits ++ "-digit hex code")

/-- Letters of escapes, and what they stand for. -/
def escapes : List (Char × Char) :=
  [('b', '\x08'), ('f', '\x0c'), ('n', '\n'), ('r', '\r'), ('t', '\t'), ('\\', '\\'), ('"', '"')]

/-- No escape is written so. -/
def noEscape : Reading Char :=
  ((firmly refuse).about "escape sequence").hoping
    ["`b`", "`f`", "`n`", "`r`", "`t`", "`u`", "`U`", "`\\`", "`\"`"]

/-- The character of an escape. -/
def escaped : Reading Char := do
  let _ ← char '\\'
  let c ← charIf fun _ => true
  match escapes.lookup c with
  | some d => return d
  | none =>
    if c = 'u' then numbered 4
    else if c = 'U' then numbered 8
    else noEscape

/-- Part of a text in double quotes. -/
def basicPart : Reading (List Char) :=
  orElse (takeSome fun c => isPlain c && c ≠ '"' && c ≠ '\\') ((fun c => [c]) <$> escaped)

/-- A text in double quotes. -/
def basic : Reading String := do
  let _ ← char '"'
  let parts ← many basicPart
  let _ ← (firmly (char '"')).about "basic string"
  return String.ofList parts.flatten

/-- A text in single quotes. -/
def literal : Reading String :=
  (do
    let _ ← char '\''
    let body ← takeWhile fun c => isPlain c && c ≠ '\''
    let _ ← firmly (char '\'')
    return String.ofList body : Reading String).about "literal string"

/-- A line end, as a text holds it. -/
def lineFeed : Reading (List Char) := do
  lineEnd
  return ['\n']

/-- A backslash at the end of a line takes all blanks and line ends behind it away. -/
def continuation : Reading (List Char) := do
  let _ ← manySome do
    let _ ← char '\\'
    blanks
    lineEnd
    let _ ← many (orElse lineEnd do
      let _ ← takeSome isBlank)
  return []

/-- Part of a text in three double quotes. -/
def basicLinesPart : Reading (List Char) :=
  orElse (takeSome fun c => isPlain c && c ≠ '"' && c ≠ '\\')
    (orElse continuation (orElse ((fun c => [c]) <$> escaped) lineFeed))

/-- Part of a text in three single quotes. -/
def literalLinesPart : Reading (List Char) :=
  orElse (takeSome fun c => isPlain c && c ≠ '\'') lineFeed

/-- One or two quotes before something. -/
def quotesBefore (quote : Char) (what : Reading Unit) : Reading (List Char) :=
  let quotes (n : Nat) : Reading (List Char) := do
    let qs ← takeExactly n (· = quote)
    ahead what
    return qs
  orElse (quotes 2) (quotes 1)

/-- Three quotes. -/
def tripled (quote : Char) : Reading Unit := do
  let _ ← takeExactly 3 (· = quote)

/-- A text in three quotes. One or two quotes can stand anywhere in it, at its end too. -/
def inLines (quote : Char) (part : Reading (List Char)) : Reading String := do
  tripled quote
  let _ ← attempt? lineEnd
  firmly do
    let first ← many part
    let more ← many do
      let qs ← quotesBefore quote (do let _ ← part)
      return qs ++ (← manySome part).flatten
    let last ← attempt? (quotesBefore quote (tripled quote))
    tripled quote
    return String.ofList (first.flatten ++ more.flatten ++ last.getD [])

/-- A quoted text. -/
def quoted : Reading String :=
  orElse ((inLines '"' basicLinesPart).about "multiline basic string")
    (orElse basic
      (orElse ((inLines '\'' literalLinesPart).about "multiline literal string") literal))

/-! ## Keys -/

/-- A character of a bare key. -/
def isBare (c : Char) : Bool := isLetter c || isDigit c || c = '_' || c = '-'

/-- One part of a key. -/
def keyPart : Reading String := do
  match ← next? with
  | some '"' => basic
  | some '\'' => literal
  | some _ => return String.ofList (← takeSome isBare)
  | none => refuse

/-- As many arrays, inline tables and parts of a key can be nested, less one. -/
def greatestDepth : Nat := 80

/-- The cause when there is too much nesting. -/
def tooDeep : String := "recursion limit exceeded"

/-- A key: its last part, and the parts before it. -/
def key : Reading (List String × String) :=
  ((separatedSome (do
      blanks
      let part ← keyPart
      blanks
      return part) (char '.')).about "key").checked fun parts =>
    match parts.reverse with
    | last :: before =>
      if parts.length < greatestDepth then .ok (before.reverse, last) else .error tooDeep
    | [] => .error tooDeep

end Fermata.Toml
