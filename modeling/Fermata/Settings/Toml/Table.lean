import Fermata.Settings.Toml.Piece
import Fermata.Settings.Value

/-!
# Tables of TOML

A table comes about in three ways: by a header or braces that name it, by a header that names
something inside it, and by a key of several parts. The rules on what may be added to a table, and
on what may be opened again, depend on it.

* `Members.descend` finds the table that a path leads to, and makes the tables that are missing.
* `Members.define` gives a key a value.
* `Document` is a file so far: `Document.openTable` and `Document.openItem` start a table.
-/

namespace Fermata.Toml

/-- What kind of value stands in a file. -/
inductive ValueType where
  | string | integer | float | boolean | moment | array | inlineTable
deriving DecidableEq, Repr

/-- The wording. -/
def ValueType.text : ValueType → String
  | .string => "string"
  | .integer => "integer"
  | .float => "float"
  | .boolean => "boolean"
  | .moment => "datetime"
  | .array => "array"
  | .inlineTable => "inline table"

/-- How a table came about. -/
inductive TableKind where
  /-- By its header or its braces. -/
  | named
  /-- By the header of something inside it. -/
  | implied
  /-- By a key of several parts. -/
  | dotted
deriving DecidableEq, Repr

/-- What stands under a key. -/
inductive Item where
  | value (type : ValueType) (setting : Setting)
  | table (kind : TableKind) (members : List (String × Item))
  /-- Tables that share a header, the last one first. -/
  | tables (reversed : List (List (String × Item)))

/-- The members of a table. -/
abbrev Members := List (String × Item)

mutual

/-- The value of an item. -/
def Item.toSetting : Item → Setting
  | .value _ s => s
  | .table _ members => .table (memberSettings members)
  | .tables reversed => .list (tableSettings reversed).reverse

/-- The values of members. -/
def memberSettings : List (String × Item) → List (String × Setting)
  | [] => []
  | (name, item) :: rest => (name, item.toSetting) :: memberSettings rest

/-- The values of tables. -/
def tableSettings : List (List (String × Item)) → List Setting
  | [] => []
  | members :: rest => .table (memberSettings members) :: tableSettings rest

end

/-! ## What is wrong with a table -/

/-- Why a key or a header is refused. -/
inductive TableError where
  | duplicate (key : String) (table : Option (List String))
  | notTable (path : List String) (type : ValueType)
deriving Repr

/-- The wording. -/
def TableError.message : TableError → String
  | .duplicate key none => "duplicate key `" ++ key ++ "`"
  | .duplicate key (some []) => "duplicate key `" ++ key ++ "` in document root"
  | .duplicate key (some path) =>
    "duplicate key `" ++ key ++ "` in table `" ++ ".".intercalate path ++ "`"
  | .notTable path type =>
    "dotted key `" ++ ".".intercalate path ++ "` attempted to extend non-table type ("
      ++ type.text ++ ")"

/-- A key as it can be written: bare, or else in quotes. -/
def keyText (key : String) : String :=
  let cs := key.toList
  if !cs.isEmpty && cs.all isBare then key
  else if cs.all fun c => isPlain c && c ≠ '\'' then "'" ++ key ++ "'"
  else "\"" ++ key ++ "\""

/-! ## Members -/

namespace Members

/-- Put an item in the place of another, or behind all. -/
def put (members : Members) (name : String) (item : Item) : Members :=
  if members.any (·.1 == name) then
    members.map fun (k, old) => if k == name then (k, item) else (k, old)
  else members ++ [(name, item)]

/-- Change the table that a path leads to, and give a result. `dotted` tells that the path is
written in a key, which does not lead into a table with a name. -/
def descend {α : Type} (dotted : Bool) (f : TableKind → Members → Except TableError (α × Members)) :
    (before path : List String) → TableKind → Members → Except TableError (α × Members)
  | _, [], kind, members => f kind members
  | before, name :: path, _, members =>
    let go := descend dotted f (before ++ [name]) path
    match members.lookup name with
    | none => do
      let kind := if dotted then TableKind.dotted else .implied
      let (a, inner) ← go kind []
      return (a, members.put name (.table kind inner))
    | some (.value type _) => .error (.notTable (before ++ [name]) type)
    | some (.tables reversed) => do
      let (a, last) ← go .named (reversed.headD [])
      return (a, members.put name (.tables (last :: reversed.tail)))
    | some (.table kind inner) => do
      if dotted && kind = .named then throw (.duplicate name none)
      let (a, inner) ← go kind inner
      return (a, members.put name (.table kind inner))

/-- Give a key a value. `table` is the name of the table for a message, if it has one. -/
def define (members : Members) (path : List String) (key : String) (item : Item)
    (table : Option (List String)) : Except TableError Members :=
  (·.2) <$> descend (α := Unit) true (fun kind members =>
    if (kind == .dotted) == path.isEmpty then .error (.duplicate key none)
    else if members.any (·.1 == key) then .error (.duplicate key table)
    else .ok ((), members ++ [(key, item)])) [] path .named members

end Members

/-! ## Documents -/

/-- A file so far. -/
structure Document where
  /-- All tables but the current one. -/
  root : Members := []
  /-- The table that keys go to. -/
  current : Members := []
  /-- The name of the current table, empty for the file itself. -/
  path : List String := []
  /-- The current table is one of several with its name. -/
  isItem : Bool := false

namespace Document

/-- Give a key of the current table a value. -/
def define (d : Document) (path : List String) (key : String) (item : Item) :
    Except TableError Document :=
  return { d with current := ← Members.define d.current path key item (some d.path) }

/-- A header names something that is there already. -/
def duplicate (path : List String) (key : String) : TableError :=
  .duplicate (keyText key) (some path)

/-- Change the table that the path of a header leads to, and give a result. -/
def change {α : Type} (root : Members) (path : List String)
    (f : Members → Except TableError (α × Members)) : Except TableError (α × Members) :=
  Members.descend false (fun _ members => f members) [] path .named root

/-- Put the current table in its place. -/
def close (d : Document) : Except TableError Members :=
  match d.path.reverse with
  | [] => .ok d.current
  | key :: parents =>
    let path := parents.reverse
    (·.2) <$> change (α := Unit) d.root path fun members =>
      match d.isItem, members.lookup key with
      | true, none => .ok ((), members.put key (.tables [d.current]))
      | true, some (.tables earlier) => .ok ((), members.put key (.tables (d.current :: earlier)))
      | false, none => .ok ((), members.put key (.table .named d.current))
      | _, _ => .error (duplicate path key)

/-- Start a table. What headers have put inside it already stays. -/
def openTable (d : Document) (path : List String) (key : String) : Except TableError Document := do
  let (current, root) ← change (← d.close) path fun members =>
    match members.lookup key with
    | none => .ok ([], members)
    | some (.table .implied inner) => .ok (inner, members.filter (·.1 != key))
    | some _ => .error (duplicate path key)
  return { root, current, path := path ++ [key] }

/-- Start a table that shares its header with others. -/
def openItem (d : Document) (path : List String) (key : String) : Except TableError Document := do
  let (_, root) ← change (α := Unit) (← d.close) path fun members =>
    match members.lookup key with
    | none => .ok ((), members.put key (.tables []))
    | some (.tables _) => .ok ((), members)
    | some _ => .error (duplicate path key)
  return { root, current := [], path := path ++ [key], isItem := true }

end Document

end Fermata.Toml
