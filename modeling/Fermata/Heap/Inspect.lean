import Fermata.Heap.Convert
import Fermata.Json.Printer
import Fermata.Text.Hidden

/-!
# Values as JSON and as text

* `Heap.toJson` (`Value::to_json`) unfolds a value into a JSON tree. A reference to an object that is
  being unfolded further up becomes `null`, so the tree is finite; shared objects are written out every
  time.
* `Heap.ofJson` (`Value::from_json`) builds a value from a tree.
* `Heap.inspect` is how a report shows a value.
-/

namespace Fermata.Heap

/-- A number as JSON: integers below `2^53` as integers, nothing for what is not finite. -/
def numberJson (x : Float) : Json :=
  match Number.jsonInteger? x with
  | some i => .ofInt i
  | none => if x.isFinite then .number (.double x) else .null

/-- A property that a JSON object leaves out. -/
def skipped : Value → Bool
  | .undefined | .function _ | .native _ => true
  | _ => false

/-- Unfold a value below the objects `path`. -/
def toJsonWithin (h : Heap) (fuel : Nat) (path : List ObjectId) (v : Value) : Json :=
  match v with
  | .bool b => .bool b
  | .number x => numberJson x
  | .string s => .string s
  | .undefined | .null | .function _ | .native _ | .pending _ => .null
  | .object id =>
    match fuel with
    | 0 => .null
    | fuel + 1 =>
      if path.contains id then .null
      else
        let o := h.objects.get id
        match o.class_ with
        | .array => .array (o.values.map (toJsonWithin h fuel (id :: path)))
        | .error =>
          .ofMembers ([Object.nameKey, Object.messageKey].filterMap fun k =>
            (h.lookup? id k).map fun v => (k, toJsonWithin h fuel (id :: path) v))
        | .plain | .function =>
          .ofMembers ((o.entries.filter fun e => !skipped e.2).map fun (k, v) =>
            (k, toJsonWithin h fuel (id :: path) v))

/-- A value as JSON. -/
def toJson (h : Heap) (v : Value) : Json := h.toJsonWithin (h.objectCount + 1) [] v

/-- The double of a JSON number. -/
def jsonFloat : JsonNumber → Float
  | .integer i => Number.ofInt i
  | .double x => x

mutual

/-- Build a value in a region. -/
def ofJson (h : Heap) (region : Nat) : Json → Value × Heap
  | .null => (.null, h)
  | .bool b => (.bool b, h)
  | .number n => (.number (jsonFloat n), h)
  | .string s => (.string s, h)
  | .array items =>
    let (values, h) := ofJsonItems h region items
    let (id, h) := h.newObject region (.ofList values)
    (.object id, h)
  | .object members =>
    let (id, h) := h.newObject region (.empty none)
    (.object id, ofJsonMembers h region id members)

/-- Build the elements of an array. -/
def ofJsonItems (h : Heap) (region : Nat) : List Json → List Value × Heap
  | [] => ([], h)
  | j :: js =>
    let (v, h) := ofJson h region j
    let (vs, h) := ofJsonItems h region js
    (v :: vs, h)

/-- Build the properties of an object. -/
def ofJsonMembers (h : Heap) (region : Nat) (id : ObjectId) : List (String × Json) → Heap
  | [] => h
  | (k, j) :: ms =>
    let (v, h) := ofJson h region j
    ofJsonMembers (h.set id k v) region id ms

end

/-!
## Values in reports

`Heap.inspect` is the text of a value for the reader of a report: strings in quotes, objects as
JSON, functions by the name of their record.
-/

/-- A value as a report shows it. -/
def inspect (h : Heap) (v : Value) : String :=
  match v with
  | .undefined => "undefined"
  | .null => "null"
  | .bool b => if b then "true" else "false"
  | .number x => Number.display x
  | .string s => Text.quoted s
  | .object _ => (h.toJson v).compact
  | .function id => "[Function " ++ (h.closures.get id).internalName ++ "]"
  | .native id => "[Native " ++ (h.natives.get id).name ++ "]"
  | .pending id => "[Pending " ++ toString id.index ++ "]"

end Fermata.Heap
