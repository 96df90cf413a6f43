import Fermata.Settings.Value
import Fermata.Text.Character

/-!
# INI files

Lines `key = value` or `key: value`, headers `[section]`, and comments that start in the first
column. All values are texts. A key goes on to the next `=` or `:`, over line ends too; a value goes
to the end of its line, and parts of it can stand in quotes.
-/

namespace Fermata.Ini

/-- What is still to be read: its first character stands at a line and a column, both from 1, where
a line end stands in column 0 of the next line. -/
structure Place where
  rest : List Char
  line : Nat := 1
  column : Nat := 1
deriving Repr, Inhabited

/-- The place with its first character at the column. -/
def Place.settle (p : Place) : Place :=
  match p.rest with
  | '\n' :: _ => { p with line := p.line + 1, column := 0 }
  | [] => { p with column := p.column - 1 }
  | _ => p

/-- A whole text. -/
def Place.start (text : List Char) : Place := Place.settle { rest := text }

/-- The place behind a character. -/
def Place.pass (p : Place) : Place := Place.settle { p with
  rest := p.rest.tail
  column := p.column + 1 }

/-- A refusal here. -/
def Place.refuse {α : Type} (p : Place) (message : String) : Except String α :=
  .error (toString p.line ++ ":" ++ toString (p.column + 1) ++ " " ++ message)

/-- The place behind all characters of a kind. -/
def Place.passWhile (p : Place) (f : Char → Bool) : Place :=
  (p.rest.takeWhile f).foldl (fun p _ => p.pass) p

/-- Pass blanks and line ends. -/
def Place.passBlanks (p : Place) : Place := p.passWhile Text.isBlank

/-- Pass blanks within a line. -/
def Place.passGap (p : Place) : Place :=
  p.passWhile fun c => Text.isBlank c && c ≠ '\n' && c ≠ '\r'

/-- Letters of escapes, and what they stand for. -/
def escapes : List (Char × List Char) :=
  [('0', ['\x00']), ('a', ['\x07']), ('b', ['\x08']), ('t', ['\t']), ('r', ['\r']), ('n', ['\n']),
   ('\n', [])]

/-- How characters that end a piece are shown. -/
def shownStops (stops : List Char) : String :=
  "\"[" ++ ", ".intercalate (stops.map fun c => "Some('" ++ String.ofList [c] ++ "')") ++ "]\""

/-- The text up to one of some characters, escapes replaced. Whether the end of the text will do
instead depends on the kind of piece. -/
def textUntil (stops : List Char) (orEnd : Bool) : Nat → Place → Except String (List Char × Place)
  | 0, p => .ok ([], p)
  | fuel + 1, p =>
    let missing {α : Type} (p : Place) : Except String α :=
      p.refuse ("expecting " ++ shownStops stops ++ " but found EOF.")
    match p.rest with
    | [] => if orEnd then .ok ([], p) else missing p
    | c :: _ =>
      if stops.contains c then .ok ([], p)
      else if c = '\\' then
        let p := p.pass
        match p.rest with
        | [] => missing p
        | 'x' :: digits =>
          let code := digits.take 4
          if code.length < 4 then missing p
          else
            match (Text.wordIn? 16 0x10FFFF code).filter Nat.isValidChar with
            | some n => do
              let (cs, p) ← textUntil stops orEnd fuel p.pass.pass.pass.pass.pass
              return (Char.ofNat n :: cs, p)
            | none => p.refuse "unknown character in \\xHH form"
        | e :: _ => do
          let (cs, p) ← textUntil stops orEnd fuel p.pass
          return ((escapes.lookup e).getD [e] ++ cs, p)
      else do
        let (cs, p) ← textUntil stops orEnd fuel p.pass
        return (c :: cs, p)

/-- A piece of a text. -/
def piece (stops : List Char) (orEnd : Bool) (p : Place) : Except String (List Char × Place) :=
  textUntil stops orEnd (p.rest.length + 1) p

/-- Drop the blanks at the end. -/
def trimEnd (text : List Char) : List Char := (text.reverse.dropWhile Text.isBlank).reverse

/-- A value: parts in quotes, and then the rest of the line. -/
def value : Nat → (first : Bool) → Place → Except String (List Char × Place)
  | 0, _, p => .ok ([], p)
  | fuel + 1, first, p =>
    match p.rest with
    | [] => .ok ([], p)
    | c :: _ =>
      if c = '"' || c = '\'' then do
        let (part, p) ← piece [c] false p.pass
        let (rest, p) ← value fuel false p.pass
        return (part ++ rest, p)
      else do
        let (part, p) ← piece ['\n', '\r'] true p
        return (if first then Text.trim part else trimEnd part, p)

/-- What was read of a file: the values without section, and the sections, the last one first. -/
structure File where
  general : List (String × Setting) := []
  sections : List (String × List (String × Setting)) := []
  /-- The key whose value comes next. -/
  key : Option String := none

/-- Give a key a value, the last one counting. -/
def put (members : List (String × Setting)) (k : String) (v : Setting) : List (String × Setting) :=
  members.filter (·.1 != k) ++ [(k, v)]

/-- Give the key that was read its value. -/
def File.assign (f : File) (k v : String) : File :=
  match f.sections with
  | (name, members) :: rest =>
    { f with sections := (name, put members k (.text v)) :: rest, key := none }
  | [] => { f with general := put f.general k (.text v), key := none }

/-- Read a file from a place on. -/
def file : Nat → File → Place → Except String File
  | 0, f, _ => .ok f
  | fuel + 1, f, p =>
    match p.rest with
    | [] => .ok f
    | c :: _ =>
      if c = ';' || c = '#' then
        if 1 < p.column then p.refuse "doesn't support inline comment"
        else file fuel f (p.passWhile (· ≠ '\n')).passBlanks
      else if c = '[' then do
        let (name, p) ← piece [']'] false p.pass
        let f := { f with sections := (String.ofList (Text.trim name), []) :: f.sections }
        file fuel f p.pass.passBlanks
      else if c = '=' || c = ':' then
        match f.key with
        | none => p.refuse "missing key"
        | some k => do
          let (v, p) ← value (p.rest.length + 1) true p.pass.passGap
          file fuel (f.assign k (String.ofList v)) p.passBlanks
      else do
        let (k, p) ← piece ['=', ':'] false p
        let k := String.ofList (Text.trim k)
        file fuel { f with key := if k.isEmpty then none else some k } p.passBlanks

/-- The keys of a file with their values; a section is a table. The last one of a name counts. -/
def parse (text : String) : Except String (List (String × Setting)) := do
  let p := (Place.start text.toList).passBlanks
  let f ← file (text.length + 2) {} p
  return f.sections.reverse.foldl (fun ms (name, members) => put ms name (.table members)) f.general

end Fermata.Ini
