import Fermata.Settings.Value

/-!
# Nodes of YAML

A document is a tree of nodes. A plain scalar is a truth value, a number or nothing if it reads as
one, and everything else is a text; a tag can ask for one of these, and then the scalar has to fit.

A mapping is put together from its nodes, which are a key and its value in turn (`Members.add`).
`Node.toSetting` gives the value of a tree; keys of a table are texts or integers.
-/

namespace Fermata.Yaml

/-- A node of a document. -/
inductive Node where
  | nil
  /-- What does not fit its tag, or is not complete where it is referred to. -/
  | unfit
  | bool (value : Bool)
  | integer (value : Int)
  /-- A floating-point number, as it is written. -/
  | real (text : String)
  | text (value : String)
  | list (items : List Node)
  | mapping (members : List (Node × Node))
deriving Repr, Inhabited

/-! ## Scalars -/

/-- Names of numbers that are not finite. -/
def namedNumbers : List String :=
  [".inf", ".Inf", ".INF", "+.inf", "+.Inf", "+.INF", "-.inf", "-.Inf", "-.INF", ".nan", ".NaN",
   ".NAN", "NaN"]

/-- An integer with a sign, in a base. -/
def integer? (base : Nat) (text : List Char) : Option Int :=
  let (negative, digits) := Number.takeSign text
  Setting.integerIn? base negative digits

/-- An integer. -/
def anyInteger? (text : String) : Option Int :=
  let special := match text.toList with
    | '0' :: 'x' :: digits => integer? 16 digits
    | '0' :: 'o' :: digits => integer? 8 digits
    | '+' :: digits => integer? 10 digits
    | _ => none
  special.or (integer? 10 text.toList)

/-- A floating-point number. -/
def isReal (text : String) : Bool :=
  namedNumbers.contains text || (text.toList.any Text.isDigit && (Setting.double? text).isSome)

namespace Node

/-- A plain scalar. -/
def ofPlain (text : String) : Node :=
  if text = "" || text = "~" || text = "null" then .nil
  else if text = "true" then .bool true
  else if text = "false" then .bool false
  else
    match anyInteger? text with
    | some n => .integer n
    | none => if isReal text then .real text else .text text

/-- Where the tags of the common types are. -/
def commonTags : String := "tag:yaml.org,2002:"

/-- A plain scalar with a tag. -/
def ofTagged (handle suffix text : String) : Node :=
  if handle ≠ commonTags then .text text
  else if suffix = "bool" then
    if text = "true" then .bool true else if text = "false" then .bool false else .unfit
  else if suffix = "int" then ((integer? 10 text.toList).map .integer).getD .unfit
  else if suffix = "float" then if isReal text then .real text else .unfit
  else if suffix = "null" then if text = "~" || text = "null" then .nil else .unfit
  else .text text

/-- It is unfit. -/
def isUnfit : Node → Bool
  | .unfit => true
  | _ => false

/-! ## Mappings -/

/-- Two keys are one. Only texts and integers are compared, as there are no other keys. -/
def sameKey : Node → Node → Bool
  | .text a, .text b => a == b
  | .integer a, .integer b => a == b
  | _, _ => false

/-- What a key is, for a message. -/
def describe : Node → String
  | .text s => "String(" ++ Text.quoted s ++ ")"
  | .integer n => "Integer(" ++ toString n ++ ")"
  | _ => "BadValue"

end Node

/-- The members of a mapping, as far as its nodes are known. -/
structure Members where
  pairs : List (Node × Node) := []
  /-- The key whose value comes next. -/
  key : Option Node := none
deriving Repr, Inhabited

namespace Members

/-- The key that waits for its value, if it has one already. -/
def repeated? (m : Members) : Option Node :=
  m.key.filter fun k => m.pairs.any fun member => k.sameKey member.1

/-- Add a node: the value of the key that waits for one, and otherwise a key. An unfit key is passed
over, so that what follows it is the key. -/
def add (m : Members) (v : Node) : Members :=
  match m.key with
  | some k => { pairs := m.pairs ++ [(k, v)] }
  | none => { m with key := if v.isUnfit then none else some v }

end Members

/-! ## Values -/

/-- The text of a key. -/
def Node.keyText? : Node → Option String
  | .text k => some k
  | .integer n => some (toString n)
  | _ => none

mutual

/-- The value of a node. Of the numbers that are not finite, only `NaN` has one. -/
def Node.toSetting : Node → Except String Setting
  | .nil => .ok .nil
  | .unfit => .ok .nil
  | .bool b => .ok (.bool b)
  | .integer n => .ok (.integer n)
  | .real t =>
    match Setting.double? t with
    | some x => .ok (.float x)
    | none => .error ("Parsing " ++ t ++ " as floating point number failed")
  | .text s => .ok (.text s)
  | .list items => Setting.list <$> itemSettings items
  | .mapping members => Setting.table <$> memberSettings [] members

/-- The values of the items of a list. -/
def itemSettings : List Node → Except String (List Setting)
  | [] => .ok []
  | v :: rest => do return (← v.toSetting) :: (← itemSettings rest)

/-- The members of a table, behind those so far. Of a text and an integer that are written alike,
the last counts. -/
def memberSettings (sofar : List (String × Setting)) :
    List (Node × Node) → Except String (List (String × Setting))
  | [] => .ok sofar
  | (k, v) :: rest =>
    match k.keyText? with
    | none => .error "a key is a text or an integer"
    | some name => do
      memberSettings (sofar.filter (·.1 != name) ++ [(name, ← v.toSetting)]) rest

end

end Fermata.Yaml
