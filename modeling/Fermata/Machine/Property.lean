import Fermata.Engine.Basic

/-!
# Properties of values

Reading and writing `target[key]`, and operators. Strings have a length and characters, arrays have the
shared array methods behind their own properties, and functions have a name and a `prototype` that is
made when it is first read.

* `getProperty`, `setProperty` (`Runtime::get_property`, `set_property`), `deleteProperty`.
* `loopItems` (`iteration_items`) are what a loop over a value goes through.
* `unary`, `binary` (`operators::unary`, `operators::binary`), with `add`, `power`, `wordwise` (`int32_op`),
  `hasProperty` and `instanceOf` (`has_property`, `instance_of`).
-/

namespace Fermata.Act

/-- Character `i` of a text, as a value. -/
def charAt (s : String) (i : Nat) : Value :=
  match s.toList[i]? with
  | some c => .string (String.singleton c)
  | none => .undefined

/-- The property of a string. -/
def stringProperty (s : String) (key : String) : Value :=
  if key = "length" then .ofNat s.length
  else
    match arrayIndex? key with
    | some i => charAt s i
    | none => .undefined

/-- The property of an object; an array also has the methods that all arrays share. -/
def objectProperty (c : Core) (id : ObjectId) (key : String) : Value :=
  match c.heap.lookup? id key with
  | some v => v
  | none =>
    if (c.heap.objects.get id).isArray then
      (c.heap.lookup? c.engine.arrayMethods key).getD .undefined
    else .undefined

/-- The property of a closure, its `prototype` apart. -/
def closureProperty (h : Heap) (id : ClosureId) (key : String) : Value :=
  let c := h.closures.get id
  match h.lookup? c.object key with
  | some v => v
  | none =>
    if key = "name" then .string c.name
    else if key = "length" then .ofNat c.node.params.length
    else .undefined

/-- The property of a native function. -/
def nativeProperty (h : Heap) (id : NativeId) (key : String) : Value :=
  let n := h.natives.get id
  match h.lookup? n.object key with
  | some v => v
  | none => if key = "name" then .string n.name else .undefined

/-- Read a property. -/
def getProperty (target : Value) (key : String) : Act Value := do
  match target with
  | .undefined | .null =>
    typeError ("Cannot read properties of " ++ (← reads (·.text target)) ++ " (reading '" ++ key
      ++ "')")
  | .string s => return stringProperty s key
  | .object id => return objectProperty (← get) id key
  | .function id =>
    if key = Heap.prototypeKey then
      return .object (← making fun h region => h.prototypeOf region id)
    else return closureProperty (← get).heap id key
  | .native id => return nativeProperty (← get).heap id key
  | .bool _ | .number _ | .pending _ => return .undefined

/-- Write a property. Writes to primitive values are dropped. -/
def setProperty (target : Value) (key : String) (value : Value) : Act Unit := do
  match ← reads (·.holder? target) with
  | some id => changes (·.set id key value)
  | none =>
    if target.isNullish then
      typeError ("Cannot set properties of " ++ (← reads (·.text target)) ++ " (setting '" ++ key
        ++ "')")

/-- Remove a property. -/
def deleteProperty (target : Value) (key : String) : Act Value := do
  match ← reads (·.holder? target) with
  | some id => changes (·.erase id key); return .bool true
  | none =>
    if target.isNullish then
      typeError ("Cannot convert " ++ (← reads (·.text target)) ++ " to object")
    else return .bool true

/-- Something carries properties for the value, but not this one. -/
def lacks (h : Heap) (target : Value) (key : String) : Bool :=
  match h.holder? target with
  | some id => !h.has id key
  | none => false

/-- Read a member. A name that stands for a member of the global object must be there. -/
def readMember (target : Value) (key : String) (implicit : Bool) : Act Value := do
  if implicit && (← reads (lacks · target key)) then scopeError (.unbound key)
  else getProperty target key

/-- The keys of a value that a loop goes through. -/
def loopKeys (h : Heap) (source : Value) : List Value :=
  match source with
  | .string s => (List.range s.length).map fun i => .string (toString i)
  | _ =>
    match h.holder? source with
    | some id => (h.enumerableKeys id).map .string
    | none => []

/-- The values of a value that a loop goes through, if there is such a thing. -/
def loopValues? (h : Heap) (source : Value) : Option (List Value) :=
  match source with
  | .string s => some (s.toList.map fun c => .string (String.singleton c))
  | .object id =>
    let o := h.objects.get id
    some (if o.isArray then o.values else o.entries.map (·.2))
  | _ => none

/-- What a loop over a collection goes through, taken at its start. -/
def loopItems (kind : EachKind) (source : Value) : Act (List Value) := do
  match kind with
  | .keys => reads (loopKeys · source)
  | .values =>
    match ← reads (loopValues? · source) with
    | some items => return items
    | none => typeError ((← reads (·.text source)) ++ " is not iterable")

/-!
## Operators

Operators on values that passed the checkpoint.
-/

/-- Raise a number to a power; one to an infinite power is not a number. -/
def power (base exponent : Float) : Float :=
  if exponent.isNaN || (base.abs == 1 && exponent.isInf) then Number.nan else base ^ exponent

/-- A signed word as a number. -/
def ofWord (w : Int32) : Value := .number (Number.ofInt w.toInt)

/-- An operator in front of a value. -/
def unary (h : Heap) (op : UnaryOp) (v : Value) : Value :=
  match op with
  | .not => .bool (!v.truthy)
  | .neg => .number (-(h.number v))
  | .plus => .number (h.number v)
  | .bitNot => ofWord (~~~(Number.toInt32 (h.number v)))
  | .typeOf => .string v.typeName
  | .void | .delete => .undefined

/-- Concatenation if one side is a text, addition otherwise. -/
def add (h : Heap) (a b : Value) : Value :=
  let x := h.primitive a
  let y := h.primitive b
  match x, y with
  | .string s, _ => .string (s ++ h.text y)
  | _, .string t => .string (h.text x ++ t)
  | _, _ => .number (h.number x + h.number y)

/-- An operation on the two numbers. -/
def arithmetic (h : Heap) (f : Float → Float → Float) (a b : Value) : Value :=
  .number (f (h.number a) (h.number b))

/-- An operation on the two signed words. -/
def wordwise (h : Heap) (f : Int32 → Int32 → Int32) (a b : Value) : Value :=
  ofWord (f (Number.toInt32 (h.number a)) (Number.toInt32 (h.number b)))

/-- The distance of a shift. -/
def shiftOf (w : Int32) : Int32 := w &&& 31

/-- Shift the unsigned word to the right. -/
def shiftUnsigned (h : Heap) (a b : Value) : Value :=
  let distance := Number.toUInt32 (h.number b) &&& 31
  .ofNat (Number.toUInt32 (h.number a) >>> distance).toNat

/-- The property is there. -/
def hasProperty (key target : Value) : Act Value := do
  let h := (← get).heap
  let k := h.key key
  match h.holder? target with
  | some id => return .bool (h.has id k)
  | none =>
    typeError ("Cannot use 'in' operator to search for '" ++ k ++ "' in " ++ h.text target)

/-- The object is an error of a kind. -/
def isErrorOf (h : Heap) (kind : String) (v : Value) : Bool :=
  match v with
  | .object id =>
    (h.objects.get id).class_ == .error &&
      (kind == errorName ||
        match h.lookup? id Object.nameKey with
        | some n => h.text n == kind
        | none => false)
  | _ => false

/-- The value was made by a constructor. -/
def instanceOf (v constructor : Value) : Act Value := do
  match constructor with
  | .function c =>
    match ← reads (·.holder? v) with
    | none => return .bool false
    | some id =>
      let proto ← making fun h region => h.prototypeOf region c
      return .bool (← reads (·.inherits id proto))
  | .native n =>
    let h := (← get).heap
    let kind := (h.natives.get n).name
    return .bool (errorKinds.contains kind && isErrorOf h kind v)
  | other =>
    typeError ("Right-hand side of 'instanceof' is not callable (" ++ other.typeName ++ ")")

/-- An operator between two values. -/
def binary (op : BinaryOp) (a b : Value) : Act Value := do
  match op with
  | .add => reads (add · a b)
  | .sub => reads (arithmetic · (· - ·) a b)
  | .mul => reads (arithmetic · (· * ·) a b)
  | .div => reads (arithmetic · (· / ·) a b)
  | .mod => reads (arithmetic · Number.remainder a b)
  | .pow => reads (arithmetic · power a b)
  | .eq => reads fun h => .bool (h.looseEquals a b)
  | .ne => reads fun h => .bool (!h.looseEquals a b)
  | .strictEq => return .bool (a.strictEquals b)
  | .strictNe => return .bool (!a.strictEquals b)
  | .lt => reads fun h => .bool (h.order? a b == some .lt)
  | .gt => reads fun h => .bool (h.order? a b == some .gt)
  | .lte => reads fun h => .bool (h.order? a b == some .lt || h.order? a b == some .eq)
  | .gte => reads fun h => .bool (h.order? a b == some .gt || h.order? a b == some .eq)
  | .bitAnd => reads (wordwise · (· &&& ·) a b)
  | .bitOr => reads (wordwise · (· ||| ·) a b)
  | .bitXor => reads (wordwise · (· ^^^ ·) a b)
  | .shl => reads (wordwise · (fun x y => x <<< shiftOf y) a b)
  | .shr => reads (wordwise · (fun x y => x >>> shiftOf y) a b)
  | .ushr => reads (shiftUnsigned · a b)
  | .hasKey => hasProperty a b
  | .instanceOf => instanceOf a b

end Fermata.Act
