import Fermata.Heap.Basic
import Fermata.Number.Read
import Fermata.Number.Text
import Fermata.Text.Encoding

/-!
# Conversions

Values as text, numbers, keys and truth, and the comparisons that convert. Functions that a guest
attaches to objects are never consulted.

* `Heap.textFrom`, `Heap.text` (`Value::to_js_string`, `object_to_string`) write a value. An array is
  written as its elements with commas between them; an array inside itself is written as nothing. An
  error is written by its name and message, each of them from the start: an error whose message leads
  back to itself has no text, and writing it does not end. A pending value is written with its number,
  which the process gave it.
* `Heap.primitive`, `Heap.number`, `Heap.key` (`Value::to_primitive`, `to_number`, `to_property_key`)
  convert, `Heap.looseEquals` (`loose_equals`) and `Heap.order?` (`operators::compare`) compare.
* `Heap.set`, `Heap.hide`, `Heap.erase` (`ObjectRef::set`, `define_hidden`, `delete`) change an own
  property. `Heap.prototypeOf` is the `prototype` of a function (`Closure::prototype_object`), made when
  it is first asked for.

Left out: what comes of an array that is assigned to its own `length`. Here it is converted as any other
value.
-/

namespace Fermata

/-- What an error without a name is called. -/
def errorName : String := "Error"

namespace Heap

/-- The text of a value, if writing it ends. `seen` are the arrays around it that are being
written. -/
def textFrom (h : Heap) (seen : List ObjectId) (v : Value) : Option String :=
  match v with
  | .undefined => some "undefined"
  | .null => some "null"
  | .bool b => some (if b then "true" else "false")
  | .number x => some (Number.display x)
  | .string s => some s
  | .function id => some ("function " ++ (h.closures.get id).name ++ "() \x7b [guest code] \x7d")
  | .native id => some ("function " ++ (h.natives.get id).name ++ "() \x7b [native code] \x7d")
  | .pending id => some ("[object Pending " ++ toString (h.numbers.get id) ++ "]")
  | .object id =>
    if seen.contains id then some ""
    else
      let o := h.objects.get id
      match o.class_ with
      | .array => do
        let parts ← o.values.mapM fun e =>
          if e.isNullish then some "" else h |>.textFrom (id :: seen) e
        some (",".intercalate parts)
      | .error => do
        let name ← match h.lookup? id Object.nameKey with
          | some n => h |>.textFrom [] n
          | none => some errorName
        let message ← match h.lookup? id Object.messageKey with
          | some m => h |>.textFrom [] m
          | none => some ""
        some (if message.isEmpty then name else name ++ ": " ++ message)
      | .plain | .function => some "[object Object]"
partial_fixpoint

/-- The text of a value. -/
def text (h : Heap) (v : Value) : String := (h.textFrom [] v).getD ""

/-- The value itself, or the text of what has an identity. -/
def primitive (h : Heap) (v : Value) : Value :=
  match v with
  | .object _ | .function _ | .native _ | .pending _ => .string (h.text v)
  | _ => v

/-- The number of a value. -/
def number (h : Heap) (v : Value) : Float :=
  match v with
  | .undefined | .pending _ => Number.nan
  | .null => 0
  | .bool b => if b then 1 else 0
  | .number x => x
  | .string s => Number.ofText s
  | .object _ | .function _ | .native _ => Number.ofText (h.text v)

/-- The property key of a value. -/
def key (h : Heap) (v : Value) : String :=
  match v with
  | .string s => s
  | _ => h.text v

/-- A truth value as a number, anything else as it is. -/
def unbool (v : Value) : Value :=
  match v with
  | .bool b => .number (if b then 1 else 0)
  | _ => v

/-- Equality with conversion: `undefined` and `null` equal each other alone, truth values count as
numbers, an object beside a primitive value counts as its text, and a number compares with a text by
the number that the text stands for. -/
def looseEquals (h : Heap) (a b : Value) : Bool :=
  if a.isNullish || b.isNullish then a.isNullish && b.isNullish
  else
    let a := unbool a
    let b := unbool b
    let x := if a.isObjectLike && !b.isObjectLike then h.primitive a else a
    let y := if b.isObjectLike && !a.isObjectLike then h.primitive b else b
    match x, y with
    | .number n, .string s => n == Number.ofText s
    | .string s, .number n => Number.ofText s == n
    | _, _ => x.strictEquals y

/-- The order of two values: two texts by their units, anything else by number. Nothing comes of
NaN. -/
def order? (h : Heap) (a b : Value) : Option Ordering :=
  match h.primitive a, h.primitive b with
  | .string s, .string t => some (Text.compareUtf16 s t)
  | x, y =>
    let m := h.number x
    let n := h.number y
    if m < n then some .lt else if n < m then some .gt else if m == n then some .eq else none

/-! ## Writing keys

The length of an array is written through the number of the new value. -/

/-- Write an own key of an object. -/
def write (h : Heap) (id : ObjectId) (key : String) (value : Value) (enumerable : Bool) : Heap :=
  let newLength :=
    if key = "length" ∧ (h.objects.get id).isArray then (Number.toUInt32 (h.number value)).toNat
    else 0
  { h with objects := h.objects.modify id fun o => o.put key value newLength enumerable }

/-- Write an own key that enumeration shows. -/
def set (h : Heap) (id : ObjectId) (key : String) (value : Value) : Heap :=
  h.write id key value true

/-- Write an own key that enumeration passes over. -/
def hide (h : Heap) (id : ObjectId) (key : String) (value : Value) : Heap :=
  h.write id key value false

/-- Remove an own key. -/
def erase (h : Heap) (id : ObjectId) (key : String) : Heap :=
  { h with objects := h.objects.modify id (·.erase key) }

/-- Key of the object that instances of a function inherit from. -/
def prototypeKey : String := "prototype"

/-- The object that instances of a closure inherit from. It is made, in a region, when it is first
asked for. -/
def prototypeOf (h : Heap) (region : Nat) (id : ClosureId) : ObjectId × Heap :=
  let bag := (h.closures.get id).object
  match (h.objects.get bag).find? prototypeKey with
  | some (.object p) => (p, h)
  | _ =>
    let (p, h) := h.newObject region (.empty none)
    (p, h.hide bag prototypeKey (.object p))

end Heap

end Fermata
