import Fermata.Settings.Reading
import Fermata.Settings.Value
import Fermata.Text.Character

/-!
# RON files

Structures `Name(field: value)` and `(field: value)`, tuples, lists, maps, `Some` and `None`,
numbers, texts and characters. `Ron.parse` gives the value of a file: a structure is a table, as is
a map whose keys are texts, a tuple is a list, and a name alone is nothing.
-/

namespace Fermata.Ron

open Reading

/-! ## Blanks, names and marks -/

/-- A blank. -/
def isBlank (c : Char) : Bool := c = ' ' || c = '\t' || c = '\n' || c = '\r'

/-- What follows a comment over lines, in which others can be nested. -/
def afterComment? : Nat → List Char → Option (List Char)
  | 0, text => some text
  | level + 1, '/' :: '*' :: rest => afterComment? (level + 2) rest
  | level + 1, '*' :: '/' :: rest => afterComment? level rest
  | level + 1, _ :: rest => afterComment? (level + 1) rest
  | _, [] => none
termination_by _ text => text.length

/-- Blanks and comments, at most `fuel` of them. -/
def skipAll : Nat → Reading Unit
  | 0 => pure ()
  | fuel + 1 => do
    let _ ← takeWhile isBlank
    let text ← get
    match text with
    | '/' :: '/' :: rest =>
      set (rest.dropWhile (· ≠ '\n'))
      skipAll fuel
    | '/' :: '*' :: rest =>
      match afterComment? 1 rest with
      | some rest =>
        set rest
        skipAll fuel
      | none =>
        set ([] : List Char)
        refuseFor "Unclosed block comment"
    | '/' :: rest =>
      set rest.tail
      match rest with
      | c :: _ => refuseFor ("Unexpected byte '" ++ String.ofList [c] ++ "'")
      | [] => refuseFor "Unexpected end of RON"
    | _ => pure ()

/-- Blanks and comments. -/
def blanks : Reading Unit := fun text => skipAll (text.length + 1) text

/-- A comma with the blanks around it, if there is one. -/
def comma : Reading Bool := do
  blanks
  if (← next?) = some ',' then
    let _ ← char ','
    blanks
    return true
  else return false

/-- A character that a name starts with. -/
def startsName (c : Char) : Bool := Text.isLetter c || c = '_'

/-- A character of a name. -/
def isNamePart (c : Char) : Bool := startsName c || Text.isDigit c

/-- A character of a name behind `r#`. -/
def isRawPart (c : Char) : Bool := isNamePart c || c = '.' || c = '+' || c = '-'

/-- A word that no further name character follows. -/
def isWord (w : String) (text : List Char) : Bool :=
  w.toList.isPrefixOf text && !((text.drop w.length).head?.any isNamePart)

/-- A name. The letter `r` can start a text instead. -/
def name : Reading (List Char) := fun text =>
  let refused := refuseFor "Expected identifier" text
  match text with
  | 'r' :: '"' :: _ => refused
  | 'r' :: '#' :: rest =>
    match rest.span isRawPart with
    | ([], _) => refused
    | r => .ok r
  | c :: _ =>
    if !startsName c then refused
    else if (text.takeWhile isNamePart).length < (text.takeWhile isRawPart).length then refused
    else .ok (text.span isNamePart)
  | [] => refused

/-- A name, if there is one. -/
def name? : Reading (Option (List Char)) := fun text =>
  match name text with
  | .ok (n, rest) => .ok (some n, rest)
  | .error _ => .ok (none, text)

/-- One character, or a reason. -/
def expect (c : Char) (cause : String) : Reading Unit := do
  if (← next?) = some c then
    let _ ← char c
  else refuseFor cause

/-! ## Numbers -/

/-- A character of an integer in any base. -/
def isIntegerPart (c : Char) : Bool := (Text.digitIn? 16 c).isSome || c = '_'

/-- A character of a number with a point or an exponent. -/
def isFloatPart (c : Char) : Bool :=
  Text.isDigit c || c = 'e' || c = 'E' || c = '.' || c = '+' || c = '-' || c = '_'

/-- An integer at the front, without sign, and what follows it. -/
def integer? (text : List Char) : Option (Nat × List Char) :=
  let (base, text) := match text with
    | '0' :: 'x' :: rest => (16, rest)
    | '0' :: 'o' :: rest => (8, rest)
    | '0' :: 'b' :: rest => (2, rest)
    | _ => (10, text)
  let (digits, rest) := text.span isIntegerPart
  if digits.head? = some '_' then none
  else (Text.valueIn? base (digits.filter (· ≠ '_'))).map fun n => (n, rest)

/-- A number in the range of integers, or the nearest one with a point. -/
def ofNat (n : Nat) : Setting :=
  if Setting.inRange n then .integer n else .float (Number.ofNat n)

/-- A number with a point or an exponent. -/
def float : Reading Setting := do
  let text ← takeWhile isFloatPart
  if text.contains '_' then refuseFor "Unexpected underscore in float"
  match Number.decimal? text with
  | some x => return .float x
  | none => refuseFor "Expected float"

/-- A number. An integer that does not fit 64 bits has a point. -/
def number : Reading Setting := do
  let text ← get
  let signed := text.head? = some '-' || text.head? = some '+'
  let body := if signed then text.tail else text
  if (body.takeWhile isIntegerPart).length < (body.takeWhile isFloatPart).length then float
  else
    match integer? body with
    | some (n, rest) =>
      let v : Int := if text.head? = some '-' then -(n : Int) else n
      if signed then
        if Setting.inRange v then
          set rest
          return .integer v
        else float
      else if n < 0x10000000000000000 then
        set rest
        return ofNat n
      else float
    | none => float

/-! ## Texts -/

/-- Letters of escapes, and what they stand for. -/
def escapes : List (Char × Char) :=
  [('\'', '\''), ('"', '"'), ('\\', '\\'), ('n', '\n'), ('r', '\r'), ('t', '\t'), ('0', '\x00')]

/-- A hexadecimal digit. -/
def isHex (c : Char) : Bool := (Text.digitIn? 16 c).isSome

/-- An escape, behind its backslash. -/
def escape : Reading Char := do
  match ← next? with
  | none => refuseFor "Unexpected end of RON"
  | some 'x' =>
    let _ ← char 'x'
    let digits ← firmly (takeExactly 2 isHex)
    return Char.ofNat ((Text.valueIn? 16 digits).getD 0)
  | some 'u' =>
    let _ ← char 'u'
    expect '\x7b' "Missing \x7b in Unicode escape"
    let digits := (← takeWhile isHex)
    expect '\x7d' "No \x7d at the end of Unicode escape"
    match (Text.valueIn? 16 digits).filter fun n => n.isValidChar && digits.length ≤ 6 with
    | some n => return Char.ofNat n
    | none => refuseFor "Not a valid Unicode-escaped character"
  | some c =>
    let _ ← char c
    match escapes.lookup c with
    | some d => return d
    | none => refuseFor "Unknown escape character"

/-- A text in quotes, behind the first one. -/
def quotedRest : Nat → Reading (List Char)
  | 0 => refuseFor "Expected end of string"
  | fuel + 1 => do
    match ← next? with
    | none => refuseFor "Expected end of string"
    | some '"' =>
      let _ ← char '"'
      return []
    | some '\\' =>
      let _ ← char '\\'
      let c ← escape
      return c :: (← quotedRest fuel)
    | some c =>
      let _ ← char c
      return c :: (← quotedRest fuel)

/-- The text before a mark, and what follows it. -/
def upTo? (mark : List Char) : List Char → Option (List Char × List Char)
  | [] => none
  | c :: rest =>
    if mark.isPrefixOf (c :: rest) then some ([], (c :: rest).drop mark.length)
    else (upTo? mark rest).map fun (before, behind) => (c :: before, behind)

/-- A text without escapes, behind its `r`. -/
def rawText : Reading (List Char) := do
  let marks ← takeWhile (· = '#')
  expect '"' "Expected string"
  match upTo? ('"' :: marks) (← get) with
  | some (body, rest) =>
    set rest
    return body
  | none => refuseFor "Expected end of string"

/-- A character in quotes. -/
def character : Reading Char := do
  let _ ← char '\''
  let c ← match ← next? with
    | some '\\' => do
      let _ ← char '\\'
      escape
    | some c =>
      if c = '\'' then refuseFor "Expected char" else char c
    | none => refuseFor "Unexpected end of RON"
  expect '\'' "Expected char"
  return c

/-! ## Values -/

/-- Some text; a character is one. -/
def textOf? : Setting → Option String
  | .text s => some s
  | _ => none

/-- Add a member; the last one of a name counts. -/
def put (members : List (String × Setting)) (k : String) (v : Setting) : List (String × Setting) :=
  members.filter (·.1 != k) ++ [(k, v)]

/-- Whether a structure behind its parenthesis has fields without names. -/
def isTuple (text : List Char) : Bool :=
  match name text with
  | .error _ => true
  | .ok (_, rest) =>
    match blanks rest with
    | .ok (_, ':' :: _) => false
    | _ => true

/-- At most `fuel` items up to a closing mark. `hadComma` tells that an item can follow. -/
def collect {α : Type} (close : Char) (cause : String) (item : Reading α) : Nat → (comma : Bool) →
    Reading (List α)
  | 0, _ => refuseFor cause
  | fuel + 1, hadComma => do
    blanks
    match ← next? with
    | none => refuseFor "Unexpected end of RON"
    | some c =>
      if c = close then
        let _ ← char close
        return []
      else if !hadComma then refuseFor "Expected comma"
      else
        let a ← item
        return a :: (← collect close cause item fuel (← comma))

/-- A member: its key, a colon and its value. -/
def member {α : Type} (key : Reading α) (value : Reading Setting) : Reading (α × Setting) := do
  let k ← key
  blanks
  expect ':' "Expected colon"
  blanks
  return (k, ← value)

/-- All items up to a closing mark, which is passed. A comma can follow the last one. -/
def items {α : Type} (close : Char) (cause : String) (item : Reading α) : Reading (List α) :=
  fun text => collect close cause item (text.length + 2) true text

/-- The table of a map, whose keys have to be texts. -/
def tableOf (members : List (Setting × Setting)) : Reading Setting := do
  let named ← members.mapM fun (k, v) =>
    match textOf? k with
    | some name => return (name, v)
    | none => refuseFor ("invalid type: " ++ k.describe ++ ", expected a string")
  return .table (named.foldl (fun ms (k, v) => put ms k v) [])

/-- A structure or a tuple from its parenthesis on; nothing if there is none. -/
def fields (value : Reading Setting) : Reading Setting := do
  if (← next?) = some '(' then
    let _ ← char '('
    blanks
    if isTuple (← get) then return .list (← items ')' "Expected closing `)`" value)
    else
      let field : Reading String := String.ofList <$> name
      let members ← items ')' "Expected closing `)`" (member field value)
      return .table (members.foldl (fun ms (k, v) => put ms k v) [])
  else return .nil

/-- Words with a value of their own. -/
def words : List (String × Setting) :=
  [("true", .bool true), ("false", .bool false), ("None", .nil),
   ("inf", .float (Number.infinity false)), ("-inf", .float (Number.infinity true)),
   ("NaN", .float Number.nan)]

/-- A value with so much nesting. -/
def value : Nat → Reading Setting
  | 0, text => refuseFor "Exceeded recursion limit, try increasing the limit" text
  | depth + 1, text => (do
    match words.find? fun (w, _) => isWord w text with
    | some (w, v) =>
      word w
      return v
    | none =>
      if isWord "Some" text then
        word "Some"
        blanks
        expect '(' "Expected option"
        blanks
        let v ← value depth
        let _ ← comma
        expect ')' "Expected closing `)`"
        return v
      else if "()".toList.isPrefixOf text then
        word "()"
        return .nil
      else
        match ← name? with
        | some _ =>
          blanks
          fields (value depth)
        | none =>
          match ← next? with
          | none => refuseFor "Unexpected end of RON"
          | some '(' => fields (value depth)
          | some '[' =>
            let _ ← char '['
            return .list (← items ']' "Expected closing `]`" (value depth))
          | some '\x7b' =>
            let _ ← char '\x7b'
            let key := value depth
            tableOf (← items '\x7d' "Expected closing `\x7d`" (member key (value depth)))
          | some '"' =>
            let _ ← char '"'
            return .text (String.ofList (← quotedRest (text.length + 1)))
          | some 'r' =>
            let _ ← char 'r'
            return .text (String.ofList (← rawText))
          | some '\'' => return .text (String.ofList [← character])
          | some '.' => float
          | some c =>
            if Text.isDigit c || c = '+' || c = '-' then number
            else refuseFor ("Unexpected byte '" ++ String.ofList [c] ++ "'") : Reading Setting) text

/-! ## Files -/

/-- The features that a file can ask for. -/
def features : List String :=
  ["unwrap_newtypes", "implicit_some", "unwrap_variant_newtypes", "explicit_struct_names"]

/-- A mark behind blanks. -/
def mark (w : String) (cause : String) : Reading Unit := do
  blanks
  if w.toList.isPrefixOf (← get) then word w else refuseFor cause

/-- Lines that ask for features. -/
def header : Nat → Reading Unit
  | 0 => pure ()
  | fuel + 1 => do
    blanks
    if (← next?) = some '#' then
      ["#", "!", "[", "enable", "("].forM (mark · "Expected an `#![enable(...)]` attribute")
      let asked ← items ')' "Expected closing `)` and `]` after the attribute" (do
        let n := String.ofList (← name)
        if !features.contains n then
          refuseFor ("No RON extension named `" ++ n ++ "`")
        return n)
      if asked.isEmpty then refuseFor "Expected identifier"
      mark "]" "Expected closing `)` and `]` after the attribute"
      header fuel

/-- How deep values can be nested. -/
def greatestDepth : Nat := 65

/-- A whole file. -/
def document : Reading Setting := fun text => (do
  header text.length
  let v ← value greatestDepth
  blanks
  match ← next? with
  | none => return v
  | some _ => refuseFor "Non-whitespace trailing characters" : Reading Setting) text

/-- The value of a file. A refusal is reported by line and column, both from 1. -/
def parse (text : String) : Except String Setting :=
  match document text.toList with
  | .ok (v, _) => .ok v
  | .error e =>
    let before := text.toList.take (text.length - e.rest.length)
    .error (toString (before.count '\n' + 1) ++ ":"
      ++ toString ((before.reverse.takeWhile (· ≠ '\n')).length + 1) ++ ": " ++ e.cause.getD "")

end Fermata.Ron
