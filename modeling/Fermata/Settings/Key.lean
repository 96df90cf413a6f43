import Fermata.Settings.Value
import Fermata.Text.Character

/-!
# Keys of settings

A key names a setting, or something inside one: `name.part` a member of a table and `name[2]` an
item of a list. A key that is written in no such way names a setting by its whole text. The case of
letters does not matter.

Settings are flat, so something inside a setting only tells that the setting is a table or a list.
-/

namespace Fermata

/-- A step into a setting. -/
inductive KeyStep where
  | member (name : String)
  | item (index : Int)
deriving DecidableEq, Repr

/-- A key. -/
structure Key where
  name : String
  steps : List KeyStep := []
deriving DecidableEq, Repr

namespace Key

/-- A character of a name in a key. -/
def isPart (c : Char) : Bool :=
  Text.isLetter c || Text.isDigit c || c = '_' || c = '-' || c = ' '

/-- Skip blanks. -/
def skipBlanks (text : List Char) : List Char := text.dropWhile fun c => c = ' ' || c = '\t'

/-- The index of an item, between brackets. -/
def index? (text : List Char) : Option Int :=
  let t := ((skipBlanks text).reverse.dropWhile fun c => c = ' ' || c = '\t').reverse
  match t with
  | '-' :: digits => Setting.integerIn? 10 true digits
  | digits => Setting.integerIn? 10 false digits

/-- The steps that a text writes. -/
def steps? : Nat → List Char → Option (List KeyStep)
  | 0, _ => none
  | _, [] => some []
  | fuel + 1, '.' :: rest =>
    let name := rest.takeWhile isPart
    if name.isEmpty then none
    else (steps? fuel (rest.drop name.length)).map (.member (String.ofList name) :: ·)
  | fuel + 1, '[' :: rest =>
    let inside := rest.takeWhile (· ≠ ']')
    match rest.drop inside.length with
    | _ :: behind => do
      let i ← index? inside
      return .item i :: (← steps? fuel behind)
    | [] => none
  | _, _ => none

/-- The key that a text writes. -/
def ofText (text : String) : Key :=
  let cs := text.toList
  let name := cs.takeWhile isPart
  match steps? (cs.length + 1) (cs.drop name.length) with
  | some steps => if name.isEmpty then ⟨text, []⟩ else ⟨String.ofList name, steps⟩
  | none => ⟨text, []⟩

end Key

/-! ## Entries -/

/-- A setting before its conversion, and where it comes from. -/
structure Entry where
  value : Setting
  origin : Option Origin
deriving Inhabited

/-- Settings by name. -/
abbrev Entries := List (String × Entry)

namespace Entries

/-- Give a setting a value. -/
def put (entries : Entries) (name : String) (e : Entry) : Entries :=
  entries.filter (·.1 != name) ++ [(name, e)]

/-- Give what a key names a value. A table comes from several places, so it has no origin, and an
empty one changes nothing that is there. An item can go into a list that is there. -/
def assign (entries : Entries) (key : Key) (value : Setting) (origin : Origin) : Entries :=
  let name := Text.lower key.name
  match key.steps, value, entries.lookup name with
  | .member _ :: _, _, _ => entries.put name ⟨.table [], none⟩
  | .item _ :: _, _, some ⟨.list _, _⟩ => entries
  | .item _ :: _, _, _ => entries.put name ⟨.list [], none⟩
  | [], .table [], some _ => entries
  | [], .table members, _ => entries.put name ⟨.table members, none⟩
  | [], _, _ => entries.put name ⟨value, some origin⟩

end Entries

end Fermata
