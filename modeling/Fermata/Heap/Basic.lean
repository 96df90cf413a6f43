import Fermata.Code.Basic
import Fermata.Heap.Object

/-!
# The heap

Everything with an identity lives in the `Heap`: objects, closures, native functions, scopes and
pending values, each in a store of its own. Values refer to them by address.

* `Closure`, `Native` (`NativeFunction`), `Scope`, `Pending` (`PendingValue`) are what is stored, besides
  objects. `Heap.newObject` and the others of this kind make one.
* `Heap.settle` (`PendingValue::settle`) is a settlement, the first of which counts; `Heap.take`
  (`PendingValue::take_future`) takes out what settles a value by itself, once.
* `Process` is what all heaps of a process share: the number of the next pending value, and which of
  them are ready. A pending value is numbered when it is made (`PendingValue::id`).
* `Heap.lookup?` (`ObjectRef::get`) reads a key along the prototype chain, `Heap.has` asks for one.
* `Heap.holder?` (`Value::property_holder`) is the object that carries the properties of a value.
* A prototype is chosen when an object is made and never changes, so a chain cannot be longer than
  the number of objects (`Heap.objectCount`), which bounds every walk along it.

Left out: memory is never given back. What nobody refers to stays in its store, and nothing depends on
it: whether a table entry is still counted is computed from what refers to what.
-/

namespace Fermata

/-- A guest function: one evaluation of a function literal. -/
structure Closure where
  /-- The number that the engine gave it; another engine may give the same number. -/
  serial : Nat
  node : FunctionNode
  /-- The unit that holds the literal. -/
  unit : CodeUnit
  /-- The bag of its properties. -/
  object : ObjectId

instance : Inhabited FunctionNode := ⟨⟨0, none, [], [], false, {}⟩⟩
instance : Inhabited Closure := ⟨⟨0, default, default, default⟩⟩

namespace Closure

/-- The name that the guest sees; empty without one. -/
def name (c : Closure) : String := c.node.name.getD ""

/-- The name of its record, for reports about the call stack. -/
def internalName (c : Closure) : String :=
  match c.unit.record? c.node.id with
  | some r => r.name
  | none => c.name

/-- The source text of the literal. -/
def sourceText (c : Closure) : String := (c.unit.slice? c.node.span).getD ""

end Closure

/-- The functions that every engine provides. -/
inductive Builtin where
  | mathFloor | mathCeil | mathAbs | mathRound | mathTrunc | mathSign | mathSqrt | mathPow
  | mathMax | mathMin
  | objectKeys | arrayIsArray | jsonStringify | jsonParse | consoleLog
  | stringOf | numberOf | booleanOf | isNaN | parseInt | parseFloat | delay | eval
  | makeError (kind : String)
  | push | pop | join | indexOf | slice
deriving DecidableEq, Repr, Inhabited

/-- A native function. -/
structure Native where
  name : String
  builtin : Builtin
  /-- It can be called with `new`. -/
  constructible : Bool
  /-- The bag of its properties. -/
  object : ObjectId
deriving Inhabited

/-- A name and its value. -/
structure Binding where
  name : String
  value : Value
deriving Inhabited

/-- Where a scope keeps its bindings. -/
inductive Storage where
  /-- The root scope: its bindings are the properties of the global object. -/
  | global (object : ObjectId)
  /-- The names are fixed when the scope is made; only the values change. -/
  | locals (bindings : List Binding)
deriving Inhabited

/-- The bindings of one activation, chained to the scope in which its function was made. -/
structure Scope where
  parent : Option ScopeId
  /-- The name of the function. -/
  owner : String
  storage : Storage
  thisValue : Value
deriving Inhabited

/-- How a pending value ends. -/
inductive Settlement where
  | fulfilled (value : Value)
  | rejected (reason : Value)
deriving Inhabited, Repr

namespace Settlement

/-- The value or the reason. -/
def value : Settlement → Value
  | .fulfilled v | .rejected v => v

/-- It ended well. -/
def isFulfilled : Settlement → Bool
  | .fulfilled _ => true
  | .rejected _ => false

end Settlement

/-- The state of a pending value. -/
inductive Pending where
  /-- Somebody else has to settle it. -/
  | unsettled
  /-- It settles by itself, in this way, once somebody waits for it. -/
  | scheduled (settlement : Settlement)
  | settled (settlement : Settlement)
deriving Inhabited

namespace Pending

/-- The settlement, once there is one. -/
def settlement? : Pending → Option Settlement
  | .settled s => some s
  | _ => none

/-- The settlement has happened. -/
def isSettled (p : Pending) : Bool := p.settlement?.isSome

/-- The value it holds on to. -/
def held : Pending → List Value
  | .unsettled => []
  | .scheduled s | .settled s => [s.value]

/-- What settles it by itself. -/
def due? : Pending → Option Settlement
  | .scheduled s => some s
  | _ => none

/-- What is left without it. -/
def spent : Pending → Pending
  | .scheduled _ => .unsettled
  | p => p

/-- Settle; the first settlement stays. -/
def settle (p : Pending) (s : Settlement) : Pending :=
  match p with
  | .settled t => .settled t
  | _ => .settled s

end Pending

/-- What all engines of a process share. -/
structure Process where
  /-- The number of the next pending value. -/
  next : Nat := 1
  /-- Which pending values are ready to settle by themselves. -/
  ripe : PendingId → Bool := fun _ => true

instance : Inhabited Process := ⟨{}⟩

/-- Everything with an identity. -/
structure Heap where
  objects : Store .object Object := {}
  closures : Store .closure Closure := {}
  natives : Store .native Native := {}
  scopes : Store .scope Scope := {}
  pendings : Store .pending Pending := {}
  /-- The numbers of the pending values, in the order in which the process made them. -/
  numbers : Store .pending Nat := {}
  process : Process := {}
deriving Inhabited

namespace Heap

/-! ## Making -/

/-- Put an object into a region. -/
def newObject (h : Heap) (region : Nat) (o : Object) : ObjectId × Heap :=
  (h.objects.next region, { h with objects := h.objects.push region o })

/-- Put a closure into a region. -/
def newClosure (h : Heap) (region : Nat) (c : Closure) : ClosureId × Heap :=
  (h.closures.next region, { h with closures := h.closures.push region c })

/-- Put a native function into a region. -/
def newNative (h : Heap) (region : Nat) (n : Native) : NativeId × Heap :=
  (h.natives.next region, { h with natives := h.natives.push region n })

/-- Put a scope into a region. -/
def newScope (h : Heap) (region : Nat) (s : Scope) : ScopeId × Heap :=
  (h.scopes.next region, { h with scopes := h.scopes.push region s })

/-- Put a pending value into a region. -/
def newPending (h : Heap) (region : Nat) (p : Pending) : PendingId × Heap :=
  (h.pendings.next region,
    { h with
      pendings := h.pendings.push region p
      numbers := h.numbers.push region h.process.next
      process := { h.process with next := h.process.next + 1 } })

/-- Settle a pending value; whether this was the first settlement. -/
def settle (h : Heap) (id : PendingId) (s : Settlement) : Bool × Heap :=
  (!(h.pendings.get id).isSettled, { h with pendings := h.pendings.modify id (·.settle s) })

/-- Take along what settles a pending value by itself. -/
def take (h : Heap) (id : PendingId) : Option Settlement × Heap :=
  ((h.pendings.get id).due?, { h with pendings := h.pendings.modify id Pending.spent })

/-! ## Reading -/

/-- How many objects there are. -/
def objectCount (h : Heap) : Nat := h.objects.size

/-- Walk a prototype chain, at most `fuel` objects of it, to the first answer. -/
def alongChain {α : Type} (h : Heap) (f : Object → Option α) : Nat → ObjectId → Option α
  | 0, _ => none
  | fuel + 1, id =>
    let o := h.objects.get id
    match f o with
    | some a => some a
    | none =>
      match o.proto with
      | some p => alongChain h f fuel p
      | none => none

/-- The value of a key, from the nearest object of the chain that has it. -/
def lookup? (h : Heap) (id : ObjectId) (key : String) : Option Value :=
  h.alongChain (·.find? key) h.objectCount id

/-- Some object of the chain has the key. -/
def has (h : Heap) (id : ObjectId) (key : String) : Bool :=
  (h.alongChain (fun o => if o.hasOwn key then some () else none) h.objectCount id).isSome

/-- Collect keys along the chain, each once. -/
def collectKeys (h : Heap) : Nat → ObjectId → List String → List String
  | 0, _, keys => keys
  | fuel + 1, id, keys =>
    let o := h.objects.get id
    let keys := o.keys.foldl (fun ks k => if ks.contains k then ks else ks ++ [k]) keys
    match o.proto with
    | some p => collectKeys h fuel p keys
    | none => keys

/-- Enumerable keys of the object, then of its prototypes. -/
def enumerableKeys (h : Heap) (id : ObjectId) : List String :=
  match (h.objects.get id).proto with
  | none => (h.objects.get id).keys
  | some _ => h.collectKeys h.objectCount id []

/-- `proto` stands on the chain behind an object. -/
def inherits (h : Heap) (id proto : ObjectId) : Bool :=
  match (h.objects.get id).proto with
  | none => false
  | some first => go h.objectCount first
where
  /-- Look from an object of the chain on. -/
  go : Nat → ObjectId → Bool
    | 0, _ => false
    | fuel + 1, id =>
      if id = proto then true
      else
        match (h.objects.get id).proto with
        | some p => go fuel p
        | none => false

/-- The object that carries the properties of a value. -/
def holder? (h : Heap) : Value → Option ObjectId
  | .object id => some id
  | .function id => some (h.closures.get id).object
  | .native id => some (h.natives.get id).object
  | _ => none

/-- The object of a value, if it is an array. -/
def array? (h : Heap) : Value → Option ObjectId
  | .object id => if (h.objects.get id).isArray then some id else none
  | _ => none

end Heap

end Fermata
