/-!
# JSON trees

A JSON tree with its members in a fixed order. Trees that come from text or from guest values hold
the members of each object in ascending order of their names, each name once (`insert`,
`ofMembers`); trees that describe a compiled unit hold them in the order of the description.

Numbers remember whether they are integers: the text of `1` and of `1.0` differ.

* `insert` puts a member in its place, and replaces one of the same name.
* `member?` finds one.
-/

namespace Fermata

/-- A JSON number. -/
inductive JsonNumber where
  | integer (value : Int)
  | double (value : Float)
deriving Inhabited, Repr

/-- A JSON tree. -/
inductive Json where
  | null
  | bool (value : Bool)
  | number (value : JsonNumber)
  | string (value : String)
  | array (items : List Json)
  | object (members : List (String × Json))
deriving Inhabited, Repr

namespace Json

/-- Put a member in its place by name; an earlier one of the same name gives way. -/
def insert (name : String) (value : Json) : List (String × Json) → List (String × Json)
  | [] => [(name, value)]
  | (n, v) :: rest =>
    if name < n then (name, value) :: (n, v) :: rest
    else if name = n then (name, value) :: rest
    else (n, v) :: insert name value rest

/-- The object with these members, the last one of each name. -/
def ofMembers (members : List (String × Json)) : Json :=
  .object (members.foldl (fun sofar m => insert m.1 m.2 sofar) [])

/-- The member of a name. -/
def member? (name : String) : Json → Option Json
  | .object members => members.lookup name
  | _ => none

/-- An integer. -/
def ofInt (i : Int) : Json := .number (.integer i)

/-- A natural number. -/
def ofNat (n : Nat) : Json := .number (.integer n)

end Json

end Fermata
