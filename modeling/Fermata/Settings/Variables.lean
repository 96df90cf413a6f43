import Fermata.Text.Alphanumeric
import Fermata.Text.Character

/-!
# Files of variables

A file `.env` adds variables to the environment: `NAME=value`, possibly after `export`, with
comments, quotes and references to other variables. A variable that exists already stays as it is.
Reading stops at the first assignment that is malformed.

* `assignments` divides a file into assignments. One can go over several lines, where a quote or a
  backslash is open at the end of a line.
* `value?` reads a value.
* `addFile` adds all variables of a file.
-/

namespace Fermata.Variables

/-- The file that is read if it is there. -/
def fileName : String := ".env"

/-- Variables by name. -/
abbrev Environment := List (String × String)

/-! ## Dividing a file -/

/-- What the end of a line means depends on what is open there. -/
inductive Open where
  | nothing
  | blank
  | escape
  | single
  | singleEscape
  | double
  | doubleEscape
deriving DecidableEq, Repr

/-- What a character opens when no quote is open. -/
def Open.plain (c : Char) : Open :=
  if c = '\\' then .escape
  else if c = '"' then .double
  else if c = '\'' then .single
  else .nothing

/-- What is open behind a character. -/
def Open.after (o : Open) (c : Char) : Open :=
  match o with
  | .nothing => if Text.isBlank c && c ≠ '\n' && c ≠ '\r' then .blank else .plain c
  | .blank => .plain c
  | .escape => .nothing
  | .single => if c = '\\' then .singleEscape else if c = '\'' then .nothing else .single
  | .singleEscape => .single
  | .double => if c = '\\' then .doubleEscape else if c = '"' then .nothing else .double
  | .doubleEscape => .double

/-- Where an assignment ends. -/
inductive Ending where
  /-- Before a comment, or behind a line. -/
  | here (text rest : List Char)
  /-- Not before the end of the file, where something is still open. -/
  | never

/-- Without its line end. -/
def dropLineEnd (reversed : List Char) : List Char :=
  match reversed with
  | '\n' :: '\r' :: before => before
  | '\n' :: before => before
  | _ => reversed

/-- Find the end of an assignment. `sofar` is what came before, in reverse. -/
def ending (o : Open) (sofar : List Char) : List Char → Ending
  | [] => if o = .nothing then .here sofar.reverse [] else .never
  | c :: rest =>
    if o = .blank && c = '#' then .here sofar.reverse ((rest.dropWhile (· ≠ '\n')).drop 1)
    else
      let o := o.after c
      if c = '\n' && o = .nothing then .here (dropLineEnd (c :: sofar)).reverse rest
      else ending o (c :: sofar) rest

/-- The assignments of a file; the last one is missing if it does not end. A line that starts with
`#` is none, whatever it opens. -/
def assignments : Nat → List Char → List (Option (List Char))
  | 0, _ => []
  | _, [] => []
  | fuel + 1, text =>
    let line := text.takeWhile (· ≠ '\n')
    if (Text.trimStart line).head? = some '#' then
      assignments fuel (text.drop (line.length + 1))
    else
      match ending .nothing [] text with
      | .here a rest => some a :: assignments fuel rest
      | .never => [none]

/-! ## Values -/

/-- How a value is being read. -/
inductive Mode where
  | bare | single | double
deriving DecidableEq, Repr

/-- The character of an escape. -/
def escaped? (c : Char) : Option Char :=
  if c = 'n' then some '\n'
  else if ['\\', '\'', '"', '$', ' '].contains c then some c
  else none

/-- The value of a variable, empty if there is none. -/
def valueOf (env : Environment) (name : List Char) : List Char :=
  ((env.lookup (String.ofList name)).getD "").toList

/-- Only a comment may follow a value that ended. -/
def nothingFollows (rest : List Char) : Bool :=
  match rest.dropWhile fun c => c = ' ' || c = '\t' with
  | [] => true
  | c :: _ => c = '#'

/-- The value that was read, in reverse, if no quote is open. -/
def finished? (mode : Mode) (sofar : List Char) : Option (List Char) :=
  if mode = .bare then some sofar.reverse else none

mutual

/-- Read a value. `sofar` is what was read of it, in reverse. -/
def value? (env : Environment) (mode : Mode) (sofar : List Char) : List Char → Option (List Char)
  | [] => finished? mode sofar
  | c :: rest =>
    if mode = .single then
      if c = '\'' then value? env .bare sofar rest else value? env .single (c :: sofar) rest
    else if c = '$' then reference? env mode sofar [] rest
    else if c = '\\' then
      match rest with
      | [] => finished? mode sofar
      | d :: rest => (escaped? d).bind fun e => value? env mode (e :: sofar) rest
    else if mode = .double then
      if c = '"' then value? env .bare sofar rest else value? env .double (c :: sofar) rest
    else if c = '\'' then value? env .single sofar rest
    else if c = '"' then value? env .double sofar rest
    else if c = ' ' || c = '\t' then
      if nothingFollows rest then some sofar.reverse else none
    else value? env .bare (c :: sofar) rest
termination_by structural text => text

/-- Read a reference behind its `$`. It goes on as long as there are letters and numbers; the
character that ends it belongs to the value as it is. -/
def reference? (env : Environment) (mode : Mode) (sofar name : List Char) :
    List Char → Option (List Char)
  | [] => finished? mode ((valueOf env name.reverse).reverse ++ sofar)
  | c :: rest =>
    if Text.isAlphanumeric c then reference? env mode sofar (c :: name) rest
    else if c = '\x7b' && name.isEmpty then bracedReference? env mode sofar [] rest
    else
      let sofar := (valueOf env name.reverse).reverse ++ sofar
      if c = '$' then reference? env mode sofar [] rest
      else value? env mode (c :: sofar) rest
termination_by structural text => text

/-- Read a reference in braces. -/
def bracedReference? (env : Environment) (mode : Mode) (sofar name : List Char) :
    List Char → Option (List Char)
  | [] => none
  | c :: rest =>
    if c = '\x7d' then value? env mode ((valueOf env name.reverse).reverse ++ sofar) rest
    else bracedReference? env mode sofar (c :: name) rest
termination_by structural text => text

end

/-! ## Assignments -/

/-- A character of a variable's name. -/
def isPart (c : Char) : Bool := Text.isLetter c || Text.isDigit c || c = '_' || c = '.'

/-- A name at the start of a text, and the text behind it and behind blanks. -/
def name? (t : List Char) : Option (List Char × List Char) :=
  match t with
  | c :: _ =>
    if Text.isLetter c || c = '_' then
      let name := t.takeWhile isPart
      some (name, Text.trimStart (t.drop name.length))
    else none
  | [] => none

/-- The name and the value of an assignment behind its name. -/
def assigned? (env : Environment) (name : List Char) :
    List Char → Option (String × String)
  | '=' :: rest =>
    let rest := Text.trimStart rest
    match rest with
    | [] | '#' :: _ => some (String.ofList name, "")
    | _ => (value? env .bare [] rest).map fun v => (String.ofList name, String.ofList v)
  | _ => none

/-- The variable of an assignment; nothing for a blank line or a comment. The word `export` is a
name only if an equals sign follows. -/
def assignment? (env : Environment) (text : List Char) : Option (Option (String × String)) := do
  match Text.trim text with
  | [] | '#' :: _ => return none
  | t =>
    let (name, rest) ← name? t
    if name = "export".toList && rest.head? ≠ some '=' then
      let (name, rest) ← name? rest
      return some (← assigned? env name rest)
    else return some (← assigned? env name rest)

/-- Add the variables of assignments to an environment. -/
def addAssignments (env : Environment) : List (Option (List Char)) → Environment
  | [] | none :: _ => env
  | some a :: rest =>
    match assignment? env a with
    | none => env
    | some none => addAssignments env rest
    | some (some (name, v)) =>
      addAssignments (if env.any (·.1 == name) then env else env ++ [(name, v)]) rest

/-- Add the variables of a file to an environment. A byte order mark is passed over. -/
def addFile (env : Environment) (text : String) : Environment :=
  let text := match text.toList with
    | '\uFEFF' :: rest => rest
    | text => text
  addAssignments env (assignments (text.length + 1) text)

end Fermata.Variables
