import Fermata.Settings.Toml.Moment
import Fermata.Settings.Toml.Numeral
import Fermata.Settings.Toml.Table
import Fermata.Text.Encoding

/-!
# TOML files

`Toml.parse` gives the keys of a file with their values, or says where and why the file is refused,
with the line that it is about.
-/

namespace Fermata.Toml

open Reading Text

/-! ## Values -/

/-- A quote was expected, as for a text. -/
def quoteExpected {α : Type} (p : Reading α) : Reading α :=
  (p.about "string").hoping ["`\"`", "`'`"]

/-- A name of a value. -/
def named (w : String) (type : ValueType) (s : Setting) : Reading (ValueType × Setting) :=
  quoteExpected do
    firmly (word w)
    return (type, s)

/-- Add a member to a table in braces. -/
def addMember (members : Members) (m : (List String × String) × ValueType × Setting) :
    Except TableError Members :=
  members.define m.1.1 m.1.2 (.value m.2.1 m.2.2) none

/-- The members of a table in braces. -/
def tableOf (ms : List ((List String × String) × ValueType × Setting)) : Except String Setting :=
  match ms.foldlM addMember [] with
  | .ok members => .ok (.table (memberSettings members))
  | .error e => .error e.message

/-- A number or a moment. -/
def quantity : Reading (ValueType × Setting) :=
  orElse ((fun m => (.moment, .text m.text)) <$> moment)
    (orElse ((fun x => (.float, .float x)) <$> float)
      ((fun n => (.integer, .integer n)) <$> integer))

/-- Items of an array: a comma can follow the last one. -/
def arrayItems (item : Reading (ValueType × Setting)) : Reading (List Setting) := do
  if (← next?) = some ']' then return []
  let items ← separated (do
    lines
    let v ← item
    lines
    return v.2) (char ',')
  if !items.isEmpty then
    let _ ← attempt? (char ',')
  lines
  return items

/-- What divides a key from its value. -/
def keySign : Reading Unit := do
  let _ ← (char '=').hoping ["`.`", "`=`"]

/-- A member of a table in braces. -/
def inlineMember (item : Reading (ValueType × Setting)) :
    Reading ((List String × String) × ValueType × Setting) := do
  let k ← key
  firmly do
    keySign
    blanks
    let v ← item
    blanks
    return (k, v)

/-- A value. `inner` reads the values inside arrays and tables, unless there are too many around. -/
def valueOver (inner : Option (Reading (ValueType × Setting))) : Reading (ValueType × Setting) := do
  match ← next? with
  | some '"' | some '\'' => return (.string, .text (← quoted))
  | some '[' =>
    let _ ← char '['
    let items ← match inner with
      | some item => firmly (arrayItems item)
      | none => refuseFor tooDeep
    let _ ← ((firmly (char ']')).about "array").hoping ["`]`"]
    return (.array, .list items)
  | some '\x7b' =>
    let _ ← char '\x7b'
    let table ← match inner with
      | some item => (do
          let ms ← separated (inlineMember item) (char ',')
          blanks
          return ms : Reading _).checked tableOf
      | none => refuseFor tooDeep
    let _ ← ((firmly (char '\x7d')).about "inline table").hoping ["`\x7d`"]
    return (.inlineTable, table)
  | some 't' => named "true" .boolean (.bool true)
  | some 'f' => named "false" .boolean (.bool false)
  | some 'i' => quoteExpected ((fun x => (.float, .float x)) <$> infinite)
  | some 'n' => quoteExpected ((fun x => (.float, .float x)) <$> notNumber)
  | some '_' => ((fun n => (.integer, .integer n)) <$> integer).hoping ["leading digit"]
  | some '.' => ((fun x => (.float, .float x)) <$> float).hoping ["leading digit"]
  | some c => if isDigit c || c = '+' || c = '-' then quantity else quoteExpected refuse
  | none => refuse

/-- A value, with so many arrays and tables nested in it. -/
def value : Nat → Reading (ValueType × Setting)
  | 0 => valueOver none
  | depth + 1 => valueOver (some (value depth))

/-! ## Lines of a file -/

/-- Refuse a change of the file with its reason. -/
def applied {α : Type} (r : Except TableError α) : Except String α :=
  match r with
  | .ok a => .ok a
  | .error e => .error e.message

/-- A key with its value. -/
def definition (d : Document) : Reading Document :=
  (do
    let k ← key
    firmly do
      keySign
      blanks
      let v ← value (greatestDepth - 1)
      lineRest.hoping ["newline", "`#`"]
      return (k, v) : Reading _).checked fun ((path, key), type, s) =>
    applied (d.define path key (.value type s))

/-- A header. -/
def header (d : Document) : Reading Document :=
  let named (opening closing : String) : Reading (List String × String) := do
    word opening
    let k ← firmly key
    ((firmly (word closing)).hoping ["`.`", "`" ++ closing ++ "`"])
    endOfLine
    return k
  (do
    let start ← ahead (takeExactly 2 fun _ => true)
    if start = ['[', '['] then
      (named "[[" "]]").checked fun (path, key) => applied (d.openItem path key)
    else (named "[" "]").checked fun (path, key) => applied (d.openTable path key) :
      Reading Document).about "table header"

/-- A line, and the blanks in front of the next one. -/
def line (d : Document) : Reading Document := do
  let d ← match ← next? with
    | none => refuse
    | some '#' =>
      firmly do
        comment
        orElse lineEnd atEnd
      pure d
    | some '[' => firmly (header d)
    | some c =>
      if c = '\n' || c = '\r' then
        lineEnd
        pure d
      else firmly (definition d)
  blanks
  return d

/-- All lines from here, at most `fuel`. -/
def file : Nat → Document → Reading Document
  | 0, d => pure d
  | fuel + 1, d => do
    match ← attempt? (line d) with
    | some d => file fuel d
    | none => return d

/-- A whole file. -/
def document : Reading Members := fun text =>
  (do
    let _ ← attempt? (word "\uFEFF")
    blanks
    let d ← file (text.length + 1) {}
    atEnd
    match d.close with
    | .ok members => return members
    | .error e => refuseFor e.message : Reading Members) text

/-! ## Refusals -/

/-- What is wrong, in words. -/
def reason (e : Refusal) : String :=
  "\n".intercalate ((e.subject.map ("invalid " ++ ·)).toList
    ++ (if e.expected.isEmpty then [] else ["expected " ++ ", ".intercalate e.expected])
    ++ e.cause.toList)

/-- The report on a refusal: where it is, the line, a mark below it, and what is wrong. Columns are
counted in characters, or in bytes before a character that takes several; the mark is as wide as the
character has bytes, as far as the line goes. -/
def report (text : List Char) (e : Refusal) : String :=
  let offset := text.length - e.rest.length
  -- The end of a text is a column of its last line, also if that line is ended.
  let start := if e.rest.isEmpty then offset - 1 else offset
  let before := text.take start
  let number := before.count '\n' + 1
  let here := (e.rest.head?.map (·.utf8Size)).getD 0
  let inLine := before.reverse.takeWhile (· ≠ '\n')
  let column := if here ≤ 1 then inLine.length + (offset - start) else byteLength inLine
  let content := ((String.ofList text).splitOn "\n").getD (number - 1) ""
  let width := min here (byteLength content.toList - column)
  let margin := String.ofList (List.replicate ((toString number).length + 1) ' ') ++ "|"
  "TOML parse error at line " ++ toString number ++ ", column " ++ toString (column + 1) ++ "\n"
    ++ margin ++ "\n"
    ++ toString number ++ " | " ++ content ++ "\n"
    ++ margin ++ String.ofList (List.replicate (column + 1) ' ')
    ++ "^" ++ String.ofList (List.replicate (width - 1) '^') ++ "\n"
    ++ reason e ++ "\n"

/-- The keys of a file with their values, or a report. -/
def parse (text : String) : Except String (List (String × Setting)) :=
  match document text.toList with
  | .ok (members, _) => .ok (memberSettings members)
  | .error e => .error (report text.toList e)

end Fermata.Toml
