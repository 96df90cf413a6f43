import Fermata.Builtin.Basic
import Fermata.Machine.Basic

/-!
# Activations

Opening an activation of a function or a unit. A function literal that an activation evaluates is
linked: it must be a child of the activation's record, and its closure is associated with the
activation's scope. The declarations of a body are made before its first statement.

* `instantiate` (`Runtime::instantiate`) makes a closure and links it (`CallStack::link`), `hoist`
  (`hoist_declarations`) does so for all declared functions.
* `callClosure` (`call_closure`, with `CallStack::capture`), `callUnit` (`run_in_scope`) and `openUnit`
  (`run_program`, with `CallStack::enter_root`) open activations; the first two refuse at the greatest
  depth (`checkDepth`).
* `evalCode` (`eval_code`) is a call of the function that evaluates code.
* `callValue` (`call_value`) calls anything, `construct` (`eval_new`) makes an object and calls its
  constructor.
-/

namespace Fermata.Act

/-! ## Linking -/

/-- The place behind a child, among the children from `index` on or, failing that, `index` itself if
the child was passed before. -/
def nextChildAfter? (children : List Nat) (index node : Nat) : Option Nat :=
  match (children.drop index).findIdx? (· == node) with
  | some offset => some (index + offset + 1)
  | none => if (children.take index).contains node then some index else none

/-- Link a literal to the record of a frame. -/
def linkChild (f : Frame) (node : Nat) : Act Frame := do
  match f.unit.record? f.record with
  | none => faulty (.link f.name f.record .noActivationRecord)
  | some r =>
    match nextChildAfter? r.children f.nextChild node with
    | some next => return { f with nextChild := next }
    | none => faulty (.link f.name node (.notAChild r.children.length))

/-- The next serial number. -/
def nextSerial : Act Nat :=
  modifyGet fun ⟨heap, engine⟩ =>
    (engine.nextSerial, ⟨heap, { engine with nextSerial := engine.nextSerial + 1 }⟩)

/-- Associate a closure with a scope. -/
def associate (id : ClosureId) (serial : Nat) (scope : ScopeId) (record : Nat) : Act Unit :=
  modify fun ⟨heap, engine⟩ =>
    ⟨heap, { engine with links := (engine.links.associate serial ⟨id, scope, record⟩).2 }⟩

/-- Make the closure of a literal of the frame's unit and link it to the frame. -/
def instantiate (f : Frame) (node : Nat) : Act (ClosureId × Frame) := do
  match f.unit.function? node with
  | none => faulty (.link f.name node .noLiteral)
  | some fn =>
    let serial ← nextSerial
    let bag ← newObject .ofFunction
    let id ← making fun h region => h.newClosure region ⟨serial, fn, f.unit, bag⟩
    let f ← linkChild f fn.id
    associate id serial f.scope fn.id
    return (id, f)

/-- Bind a declared function to its name. -/
def bindDeclared (f : Frame) (name : String) (id : ClosureId) : Act Unit := do
  let h := (← get).heap
  if (h.scopes.get f.scope).isRoot then
    let global := (← get).engine.global
    changes (·.set global name (.function id))
  else if f.record = 0 || h.declares f.scope name then
    setName f.scope name (.function id)

/-- Make declared functions. -/
def hoistAll (f : Frame) : List Nat → Act Frame
  | [] => return f
  | node :: nodes => do
    let (id, f) ← instantiate f node
    match (← reads (·.closures.get id)).node.name with
    | some name => bindDeclared f name id
    | none => pure ()
    hoistAll f nodes

/-- Make the declared functions of the frame's record. -/
def hoist (f : Frame) : Act Frame :=
  match f.unit.record? f.record with
  | some r => hoistAll f r.hoisted
  | none => return f

/-! ## Opening -/

/-- Begin a list of statements. -/
def startBody : List Stmt → List Cont × Control
  | [] => ([], .value .undefined)
  | s :: rest => ([.body rest], .exec s [])

/-- Open an activation on a frame. -/
def openFrame (f : Frame) (boundary : Boundary) (body : List Stmt) : Act Move := do
  let f ← hoist f
  let (conts, control) := startBody body
  return .enter [] ⟨f, boundary, conts⟩ control

/-- Refuse a call at the greatest depth. The evaluation has `depth` activations. -/
def checkDepth (depth : Nat) : Act Unit := do
  let engine := (← get).engine
  if depth + engine.below.length ≥ engine.settings.maxCallDepth then
    raise rangeErrorKind "Maximum call stack size exceeded"

/-- The frame of a unit in a scope. -/
def unitFrame (unit : CodeUnit) (scope : ScopeId) : Frame :=
  { name := match unit.record? 0 with
      | some r => r.name
      | none => ""
    scope, unit, record := 0 }

/-- Evaluate a unit in a scope, whatever the depth. -/
def openUnit (unit : CodeUnit) (scope : ScopeId) : Act Move :=
  openFrame (unitFrame unit scope) .unit unit.program.body

/-- Evaluate a unit in a scope. -/
def callUnit (depth : Nat) (unit : CodeUnit) (scope : ScopeId) : Act Move := do
  checkDepth depth
  openUnit unit scope

/-- The last place of a name in a list. -/
def lastIndexOf? (names : List String) (name : String) : Option Nat :=
  (names.zipIdx.filter (·.1 == name)).getLast?.map (·.2)

/-- The first value of a binding: a parameter, the array of all arguments, or the function. -/
def firstValue (r : ScopeRecord) (id : ClosureId) (args : List Value) (name : String) :
    Act Binding := do
  match lastIndexOf? r.params name with
  | some i => return ⟨name, args[i]?.getD .undefined⟩
  | none =>
    if name = argumentsName then return ⟨name, .object (← newObject (.ofList args))⟩
    else if r.selfBinding = some name then return ⟨name, .function id⟩
    else return ⟨name, .undefined⟩

/-- The scope of an activation: a new one, or the defining scope where none is needed. -/
def activationScope (r : ScopeRecord) (id : ClosureId) (defining : ScopeId) (this : Value)
    (args : List Value) : Act ScopeId := do
  if r.requiresCapture then
    let bindings ← r.bindings.mapM (firstValue r id args)
    making fun h _ => h.newChild defining r.name bindings this
  else return defining

/-- Call a closure. -/
def callClosure (depth : Nat) (id : ClosureId) (this : Value) (args : List Value) : Act Move := do
  checkDepth depth
  let core ← get
  let c := core.heap.closures.get id
  match core.engine.links.scope? c.serial with
  | none => faulty (.stack (.neverLinked c.internalName))
  | some defining =>
    match c.unit.record? c.node.id with
    | none => faulty (.link c.internalName c.node.id .noRecord)
    | some r =>
      let scope ← activationScope r id defining this args
      openFrame { name := r.name, scope, unit := c.unit, record := c.node.id }
        (.function c.internalName) c.node.body

/-- Evaluate code in a scope; what is no text comes back unchanged. -/
def evalCode (depth : Nat) (scope : ScopeId) (code : Value) : Act Move := do
  match code with
  | .string source =>
    match CodeUnit.compile source (← reads (·.visibleNames scope)) with
    | .ok unit => callUnit depth unit scope
    | .error e => raise syntaxErrorKind e.message
  | other => return .go [] (.value other)

/-- Call a value. Code is evaluated in `scope`. -/
def callValue (depth : Nat) (scope : ScopeId) (callee this : Value) (args : List Value) :
    Act Move := do
  match callee with
  | .function id => callClosure depth id this args
  | .native id =>
    if id = (← get).engine.evalFunction then evalCode depth scope (Builtin.arg args 0)
    else
      let b := (← reads (·.natives.get id)).builtin
      return .go [] (.value (← b.run this args))
  | other => typeError (other.typeName ++ " is not a function")

/-- A value as a message names it. -/
def describe (h : Heap) (v : Value) : String :=
  match v with
  | .string s => "\"" ++ s ++ "\""
  | .object _ => "object"
  | _ => h.text v

/-- Call a value with `new`. -/
def construct (depth : Nat) (callee : Value) (args : List Value) : Act Move := do
  let refuse : Act Move := do
    typeError ((← reads (describe · callee)) ++ " is not a constructor")
  match callee with
  | .function id =>
    let proto ← making fun h region => h.prototypeOf region id
    let object ← newObject (.empty (some proto))
    return (← callClosure depth id (.object object) args).pushing [.made object]
  | .native id =>
    let n ← reads (·.natives.get id)
    if n.constructible then return .go [] (.checkpoint (← n.builtin.run .undefined args))
    else refuse
  | _ => refuse

end Fermata.Act
