import Fermata.Heap.Value
import Fermata.Text.Character

/-!
# Objects

An object (`JsObject`) has properties in the order in which they came and possibly a prototype. An array
also has a length and elements: a dense run of values from index 0 on, while values at indices far behind
that run are kept among the properties, under the decimal text of their index. The two parts never
hold the same index: when the run reaches an index that is kept as a property, it takes it over.

* `find?`, `put`, `erase` (`get_own`, `put`, `delete`) read, write and delete a key; on arrays they go
  through the index (`array_index`, here `arrayIndex?`).
* `putIndex` and `absorb` (`put_index`, `absorb_sparse`) write an element and let the run take over what
  it has reached. `setLength` (`set_length`) cuts off what lies behind.
* `pushAll`, `pop` (`push_elements`, `pop_element`) work at the end of an array.
* `entries` (`own_entries`) lists the keys that enumeration shows, `values` (`elements`) the elements of
  an array.

Left out: borrowing. Nothing else happens while an object is read or written.
-/

namespace Fermata

/-- Kinds of object. -/
inductive ObjectClass where
  | plain | array | error | function
deriving DecidableEq, Repr, Inhabited

/-- A property. Enumeration passes over one that is not `enumerable`. -/
structure Property where
  key : String
  value : Value
  enumerable : Bool
deriving Inhabited

/-- An object. -/
structure Object where
  class_ : ObjectClass
  properties : List Property := []
  /-- The dense run of an array's values. -/
  elements : Array Value := #[]
  length : Nat := 0
  proto : Option ObjectId := none
deriving Inhabited

/-- No array is longer; greater integers are ordinary keys. -/
def maxArrayLength : Nat := 4294967295

/-- A write this far behind the dense run still extends it. -/
def maxDenseGap : Nat := 1024

/-- The index that a key writes in decimal, without sign or leading zeros. -/
def arrayIndex? (key : String) : Option Nat :=
  match key.toList with
  | [] => none
  | c :: cs =>
    if (c = '0' && !cs.isEmpty) || !(c :: cs).all Text.isDigit then none
    else (some (Text.decimalValue (c :: cs))).filter (· < maxArrayLength)

namespace Object

/-- The object is an array. -/
def isArray (o : Object) : Bool := o.class_ == .array

/-- The property stored under a key. -/
def stored? (o : Object) (key : String) : Option Property :=
  o.properties.find? (·.key == key)

/-- The own value of a key. -/
def find? (o : Object) (key : String) : Option Value :=
  let stored := (o.stored? key).map (·.value)
  if o.isArray then
    if key = "length" then some (.ofNat o.length)
    else
      match arrayIndex? key with
      | some i => o.elements[i]?.or stored
      | none => stored
  else stored

/-- The object has the key itself. -/
def hasOwn (o : Object) (key : String) : Bool :=
  let stored := (o.stored? key).isSome
  if o.isArray then
    key = "length" || (match arrayIndex? key with
      | some i => i < o.elements.size
      | none => false) || stored
  else stored

/-! ## Writing -/

/-- Write a property; one that exists keeps its place and its visibility. -/
def store (o : Object) (key : String) (value : Value) (enumerable : Bool) : Object :=
  if (o.stored? key).isSome then
    { o with properties := o.properties.map fun p => if p.key == key then { p with value } else p }
  else { o with properties := o.properties ++ [⟨key, value, enumerable⟩] }

/-- The first property whose index the dense run reaches, and the properties without it. -/
def takeReached? (size : Nat) : List Property → Option (Nat × Value × List Property)
  | [] => none
  | p :: ps =>
    match (arrayIndex? p.key).filter (· ≤ size) with
    | some i => some (i, p.value, ps)
    | none => (takeReached? size ps).map fun (i, v, rest) => (i, v, p :: rest)

/-- Take properties that the dense run reaches into it, at most `fuel` of them. -/
def absorb : Nat → Object → Object
  | 0, o => o
  | fuel + 1, o =>
    match takeReached? o.elements.size o.properties with
    | some (i, v, rest) =>
      let elements :=
        if i = o.elements.size then o.elements.push v else o.elements.setIfInBounds i v
      absorb fuel { o with elements, properties := rest }
    | none => o

/-- Write an index. -/
def putIndex (o : Object) (i : Nat) (value : Value) : Object :=
  let dense := o.elements.size
  let length := max o.length (i + 1)
  if i < dense then { o with elements := o.elements.setIfInBounds i value, length }
  else if i - dense ≤ maxDenseGap then
    let elements := (o.elements ++ Array.replicate (i - dense) Value.undefined).push value
    let o := { o with elements, length }
    o.absorb o.properties.length
  else { o.store (toString i) value true with length }

/-- Cut or stretch an array. -/
def setLength (o : Object) (n : Nat) : Object :=
  { o with
    elements := o.elements.take n
    properties := o.properties.filter fun p =>
      match arrayIndex? p.key with
      | some i => i < n
      | none => true
    length := n }

/-- Write a key. `newLength` is the length that the value stands for, should the key be the length
of an array. -/
def put (o : Object) (key : String) (value : Value) (newLength : Nat) (enumerable : Bool) :
    Object :=
  if o.isArray then
    if key = "length" then o.setLength newLength
    else
      match arrayIndex? key with
      | some i => o.putIndex i value
      | none => o.store key value enumerable
  else o.store key value enumerable

/-- Remove a key. An element of the dense run leaves a hole behind. -/
def erase (o : Object) (key : String) : Object :=
  let removed := { o with properties := o.properties.eraseP (·.key == key) }
  if o.isArray then
    match arrayIndex? key with
    | some i =>
      if i < o.elements.size then { o with elements := o.elements.setIfInBounds i .undefined }
      else removed
    | none => removed
  else removed

/-- Append values, as long as the array may grow. -/
def pushAll (o : Object) (values : List Value) : Object :=
  match values with
  | [] => o
  | v :: vs => if o.length ≥ maxArrayLength then o else pushAll (o.putIndex o.length v) vs

/-- The last value of an array, and the array without it. -/
def pop (o : Object) : Value × Object :=
  if o.length = 0 then (.undefined, o)
  else
    let last := o.length - 1
    ((o.find? (toString last)).getD .undefined, o.setLength last)

/-! ## Listing -/

/-- Insert by index. -/
def insertByIndex (e : Nat × Property) : List (Nat × Property) → List (Nat × Property)
  | [] => [e]
  | f :: rest => if e.1 < f.1 then e :: f :: rest else f :: insertByIndex e rest

/-- The indices kept among the properties, in ascending order. -/
def sparse (o : Object) : List (Nat × Property) :=
  if o.isArray then
    (o.properties.filterMap fun p => (arrayIndex? p.key).map (·, p)).foldl
      (fun sorted e => insertByIndex e sorted) []
  else []

/-- Own keys with their values as enumeration shows them: indices in ascending order, then the other
keys in order of insertion. -/
def entries (o : Object) : List (String × Value) :=
  o.elements.toList.zipIdx.map (fun (v, i) => (toString i, v))
    ++ o.sparse.map (fun (_, p) => (p.key, p.value))
    ++ (o.properties.filter fun p => p.enumerable && !(o.isArray && (arrayIndex? p.key).isSome)).map
        fun p => (p.key, p.value)

/-- Own enumerable keys. -/
def keys (o : Object) : List String := o.entries.map (·.1)

/-- The elements of an array in order. Holes are `undefined`; of an array too sparse to fill them
only the values that it holds. -/
def values (o : Object) : List Value :=
  let dense := o.elements.size
  if dense ≤ o.length ∧ o.length - dense ≤ maxDenseGap then
    o.elements.toList.take o.length ++ (List.range (o.length - dense)).map fun k =>
      (o.find? (toString (dense + k))).getD .undefined
  else o.elements.toList ++ o.sparse.map fun (_, p) => p.value

/-- Every value the object holds, hidden properties included. -/
def held (o : Object) : List Value :=
  o.elements.toList ++ o.properties.map (·.value) ++ (o.proto.map Value.object).toList

/-! ## Making -/

/-- An array of values. -/
def ofList (values : List Value) : Object :=
  { class_ := .array, elements := values.toArray, length := values.length }

/-- A plain object. -/
def empty (proto : Option ObjectId) : Object := { class_ := .plain, proto }

/-- Key of the name of an error. -/
def nameKey : String := "name"

/-- Key of the message of an error. -/
def messageKey : String := "message"

/-- An error object. -/
def ofError (name message : String) : Object :=
  { class_ := .error
    properties := [⟨nameKey, .string name, false⟩, ⟨messageKey, .string message, false⟩] }

/-- The property bag of a function. -/
def ofFunction : Object := { class_ := .function }

end Object

end Fermata
