import Fermata.Broker
import Fermata.Link.Prune
import Fermata.Machine.Fault
import Fermata.Scope.Basic

/-!
# Engines

An `Engine` is what an evaluation works on besides the heap: the global object and root scope, the
table of associations, the watch for pending values and the console. It has the fields of `Runtime` and
of `Engine` in one; what an engine has whether it evaluates or not, like its units and its call stack,
is in a session.

* `Settings` (`EngineConfig`) are the bounds and switches of an engine.
* `Suspension` (`SuspensionRecord`) is where an evaluation came to wait.
* A `Core` is an engine with the heap, and an `Act` is a computation on a core that may end in a
  transfer of control, an `Abrupt` (`Control`).
* `Act.typeError`, `Act.scopeError` (`Runtime::type_error`, `scope_error`) make errors and throw them.

Left out: log lines other than those of the guest's console.
-/

namespace Fermata

/-- The settings of an engine. -/
structure Settings where
  /-- The engine's name; without one it gets a fresh name. -/
  name : Option String := none
  /-- The depth at which a further call is refused. -/
  maxCallDepth : Nat := 200
  /-- How many positions of a suspension are kept. -/
  stackTraceLimit : Nat := 100
  /-- The engine starts with the standard functions. -/
  installStdlib : Bool := true
  /-- Which reports are written. -/
  logFilter : String := "info"
deriving DecidableEq, Repr, Inhabited

/-- Where an evaluation stands: function, line and column, both from 1. -/
structure StackPosition where
  function : String
  line : Nat
  column : Nat
deriving DecidableEq, Repr, Inhabited

/-- A suspension: the pending value that was touched, and where, innermost activation first. -/
structure Suspension where
  pending : PendingId
  positions : List StackPosition
deriving Inhabited

/-- An engine. -/
structure Engine where
  name : String
  /-- The region of the heap in which it makes things. -/
  region : Nat
  settings : Settings
  global : ObjectId
  root : ScopeId
  /-- Methods that every array has. -/
  arrayMethods : ObjectId
  /-- The function that evaluates code where it is called. -/
  evalFunction : NativeId
  links : Links := {}
  /-- The serial number of the next closure. -/
  nextSerial : Nat := 1
  watch : Watch := .disarmed
  /-- The activations that were on the call stack before the evaluation began, innermost first. -/
  below : List StackPosition := []
  /-- Lines written by the guest. -/
  console : Array String := #[]
  /-- How often an evaluation was suspended. -/
  suspensionCount : Nat := 0
  lastSuspension : Option Suspension := none
deriving Inhabited

/-- What an evaluation reads and changes. -/
structure Core where
  heap : Heap
  engine : Engine
deriving Inhabited

/-- A transfer of control out of the construct that is being evaluated. -/
inductive Abrupt where
  | ret (value : Value)
  | thrown (value : Value)
  | leave (label : Option String)
  | next (label : Option String)
  | fault (cause : Fault)
deriving Inhabited

/-- A computation on a core. -/
abbrev Act := EStateM Abrupt Core

namespace Act

/-- Look at the heap. -/
@[inline] def reads {α : Type} (f : Heap → α) : Act α := do return f (← get).heap

/-- Change the heap. -/
@[inline] def changes (f : Heap → Heap) : Act Unit := modify fun c => { c with heap := f c.heap }

/-- Change the heap with a result. -/
@[inline] def making {α : Type} (f : Heap → Nat → α × Heap) : Act α :=
  modifyGet fun c =>
    let (a, heap) := f c.heap c.engine.region
    (a, { c with heap })

/-- Make an object. -/
def newObject (o : Object) : Act ObjectId := making fun h region => h.newObject region o

/-- End with a fault. -/
def faulty {α : Type} (cause : Fault) : Act α := throw (.fault cause)

/-- Throw a new error object. -/
def raise {α : Type} (kind message : String) : Act α := do
  throw (.thrown (.object (← newObject (.ofError kind message))))

/-- Throw a type error. -/
def typeError {α : Type} (message : String) : Act α := raise typeErrorKind message

/-- Throw what a failed access to a name is for the guest. -/
def scopeError {α : Type} : ScopeError → Act α
  | .unbound name => raise referenceErrorKind (name ++ " is not defined")
  | .invalidName name => raise syntaxErrorKind ("'" ++ name ++ "' is not a valid identifier")

/-- Read a name from a scope. -/
def getName (scope : ScopeId) (name : String) : Act Value := do
  match ← reads (·.getName scope name) with
  | .ok v => return v
  | .error e => scopeError e

/-- Write a name from a scope. -/
def setName (scope : ScopeId) (name : String) (value : Value) : Act Unit := do
  match ← reads (·.target scope name) with
  | .ok place => changes (·.setAt place name value)
  | .error e => scopeError e

end Act

end Fermata
