import Fermata.Machine.Property
import Fermata.Json.Reader

/-!
# Native functions

What each native function does with its receiver and arguments. None of them calls back into guest
code. The function that evaluates code is the exception in another way: the machine handles its
calls itself, and the body here only gives its argument back (`globals::eval`).

* `Mathematics` has the functions of the guest's `Math` object, on doubles (`math::object`).
* `parseInteger` (`parse_int_str`), `relativeIndex` (`array::relative_index`), `joinOf`, `sliceOf` and
  `indexIn` (`array::join`, `array::slice`, `array::index_of`) are the bodies with some substance.
* `run` goes through all of them.
* `install` (`inject_stdlib`) puts them in place: the globals, `Math`, `Object`, `Array`, `JSON`,
  `console` and the array methods.

Left out: the time that `delay` waits. The pending value that it makes is ready when the process says
so; only the text and the value of it are here.
-/

namespace Fermata.Mathematics

/-- The ratio of a circle's circumference to its diameter, to the nearest double. -/
def pi : Float := Number.ofDecimal false 31415926535897932 (-16)

/-- The base of the natural logarithm, to the nearest double. -/
def euler : Float := Number.ofDecimal false 27182818284590452 (-16)

/-- The nearest integer; halves go up. -/
def round (x : Float) : Float := (x + 0.5).floor

/-- One with the sign of a number; zeros and NaN stay. -/
def sign (x : Float) : Float :=
  if x.isNaN || x == 0 then x else if x < 0 then -1 else 1

/-- The greatest of some numbers; NaN if one of them is. -/
def greatest (xs : List Float) : Float :=
  if xs.any Float.isNaN then Number.nan
  else xs.foldl (fun m x => if m < x then x else m) (Number.infinity true)

/-- The least of some numbers; NaN if one of them is. -/
def least (xs : List Float) : Float :=
  if xs.any Float.isNaN then Number.nan
  else xs.foldl (fun m x => if x < m then x else m) (Number.infinity false)

end Fermata.Mathematics

namespace Fermata.Builtin

open Act

/-- Argument `i`, or `undefined`. -/
def arg (args : List Value) (i : Nat) : Value := args[i]?.getD .undefined

/-- A function of one number. -/
def numeric (f : Float → Float) (args : List Value) : Act Value :=
  reads fun h => .number (f (h.number (arg args 0)))

/-- A new array. -/
def newArray (values : List Value) : Act Value := do
  return .object (← newObject (.ofList values))

/-- The own keys of a value. -/
def ownKeys (target : Value) : Act Value := do
  match target with
  | .string s => newArray ((List.range s.length).map fun i => .string (toString i))
  | _ =>
    match ← reads (·.holder? target) with
    | some id => newArray ((← reads fun h => (h.objects.get id).keys).map .string)
    | none =>
      if target.isNullish then typeError "Cannot convert undefined or null to object"
      else newArray []

/-- The JSON text of a value. -/
def stringify (v : Value) : Act Value := do
  match v with
  | .undefined | .function _ | .native _ => return .undefined
  | _ => reads fun h => .string (h.toJson v).compact

/-- The value of a JSON text. -/
def parse (args : List Value) : Act Value := do
  if args.isEmpty then typeError "JSON.parse: expected at least 1 arguments, got 0"
  else
    match Json.parse (← reads (·.text (arg args 0))) with
    | .ok j => making fun h region => h.ofJson region j
    | .error e => raise syntaxErrorKind e.message

/-- Write a line of values to the console. -/
def log (args : List Value) : Act Value := do
  let line ← reads fun h => " ".intercalate (args.map h.text)
  modify fun c => { c with engine := { c.engine with console := c.engine.console.push line } }
  return .undefined

/-- The radix that a value names; not a number counts as none. -/
def radixOf (x : Float) : Int :=
  match Number.truncate? x with
  | some i => i
  | none => if x.isNaN then 0 else -1

/-- The integer at the start of a text. -/
def parseInteger (args : List Value) : Act Value := do
  reads fun h =>
    let radix := match arg args 1 with
      | .undefined => 0
      | v => radixOf (h.number v)
    .number (Number.integerStart (h.text (arg args 0)) radix)

/-- A new error object. -/
def newError (kind : String) (args : List Value) : Act Value := do
  let message ← match arg args 0 with
    | .undefined => pure ""
    | v => reads (·.text v)
  return .object (← newObject (.ofError kind message))

/-- The array that a method was called on. -/
def thisArray (this : Value) (method : String) : Act ObjectId := do
  match ← reads (·.array? this) with
  | some id => return id
  | none => typeError ("Array.prototype." ++ method ++ " called on " ++ this.typeName)

/-- The elements of an array. -/
def elementsOf (id : ObjectId) : Act (List Value) := reads fun h => (h.objects.get id).values

/-- An index counted from the end if negative, within the bounds of `length` elements. -/
def relativeIndex (x : Float) (length : Nat) : Nat :=
  match Number.truncate? x with
  | some i => if i < 0 then (length + i).toNat else min i.toNat length
  | none => if x > 0 then length else 0

/-- A part of an array. -/
def sliceOf (id : ObjectId) (args : List Value) : Act Value := do
  let values ← elementsOf id
  let length := values.length
  let bound ← reads fun h (v : Value) (d : Nat) =>
    if v.isUndefined then d else relativeIndex (h.number v) length
  let start := bound (arg args 0) 0
  let stop := bound (arg args 1) length
  newArray ((values.take stop).drop start)

/-- The elements as text with a separator between them. -/
def joinOf (id : ObjectId) (separator : Value) : Act Value := do
  let values ← elementsOf id
  reads fun h =>
    let between := if separator.isUndefined then "," else h.text separator
    .string (between.intercalate (values.map fun v => if v.isNullish then "" else h.text v))

/-- The index of the first element that is strictly equal to a value, or -1. -/
def indexIn (values : List Value) (v : Value) : Value :=
  match values.findIdx? (·.strictEquals v) with
  | some i => .ofNat i
  | none => .number (-1)

/-- Call a native function. -/
def run (b : Builtin) (this : Value) (args : List Value) : Act Value := do
  match b with
  | .mathFloor => numeric Float.floor args
  | .mathCeil => numeric Float.ceil args
  | .mathAbs => numeric Float.abs args
  | .mathRound => numeric Mathematics.round args
  | .mathTrunc => numeric Number.trunc args
  | .mathSign => numeric Mathematics.sign args
  | .mathSqrt => numeric Float.sqrt args
  | .mathPow => reads fun h => .number (power (h.number (arg args 0)) (h.number (arg args 1)))
  | .mathMax => reads fun h => .number (Mathematics.greatest (args.map h.number))
  | .mathMin => reads fun h => .number (Mathematics.least (args.map h.number))
  | .objectKeys => ownKeys (arg args 0)
  | .arrayIsArray => reads fun h => .bool (h.array? (arg args 0)).isSome
  | .jsonStringify => stringify (arg args 0)
  | .jsonParse => parse args
  | .consoleLog => log args
  | .stringOf => reads fun h => .string (match args with
      | [] => ""
      | v :: _ => h.text v)
  | .numberOf => reads fun h => .number (match args with
      | [] => 0
      | v :: _ => h.number v)
  | .booleanOf => return .bool (arg args 0).truthy
  | .isNaN => reads fun h => .bool (h.number (arg args 0)).isNaN
  | .parseInt => parseInteger args
  | .parseFloat => reads fun h => .number (Number.floatStart (h.text (arg args 0)))
  | .delay => return .pending (← making fun h region =>
      h.newPending region (.scheduled (.fulfilled (arg args 1))))
  | .eval => return arg args 0
  | .makeError kind => newError kind args
  | .push => do
    let id ← thisArray this "push"
    changes fun h => { h with objects := h.objects.modify id (·.pushAll args) }
    reads fun h => .ofNat (h.objects.get id).length
  | .pop => do
    let id ← thisArray this "pop"
    let last ← reads fun h => (h.objects.get id).pop.1
    changes fun h => { h with objects := h.objects.modify id (·.pop.2) }
    return last
  | .join => do joinOf (← thisArray this "join") (arg args 0)
  | .indexOf => do
    let values ← elementsOf (← thisArray this "indexOf")
    return indexIn values (arg args 0)
  | .slice => do sliceOf (← thisArray this "slice") args

end Fermata.Builtin

/-!
## The standard functions of an engine

`Builtin.install` puts the standard functions on a global object, hidden from enumeration, and the
array methods on the object that all arrays share.
-/

namespace Fermata.Builtin

/-- Put a new native function on an object. -/
def addMethod (region : Nat) (object : ObjectId) (constructible : Bool) (h : Heap)
    (m : String × Builtin) : Heap :=
  let (bag, h) := h.newObject region .ofFunction
  let (id, h) := h.newNative region ⟨m.1, m.2, constructible, bag⟩
  h.hide object m.1 (.native id)

/-- Put a new object with these constants and methods on an object. -/
def addNamespace (region : Nat) (object : ObjectId) (name : String)
    (constants : List (String × Float)) (methods : List (String × Builtin)) (h : Heap) : Heap :=
  let (id, h) := h.newObject region (.empty none)
  let h := constants.foldl (fun h (k, x) => h.hide id k (.number x)) h
  let h := methods.foldl (addMethod region id false) h
  h.hide object name (.object id)

/-- The constants of `Math`. -/
def mathConstants : List (String × Float) := [("PI", Mathematics.pi), ("E", Mathematics.euler)]

/-- The functions of `Math`. -/
def mathMethods : List (String × Builtin) :=
  [("floor", .mathFloor), ("ceil", .mathCeil), ("abs", .mathAbs), ("round", .mathRound),
   ("trunc", .mathTrunc), ("sign", .mathSign), ("sqrt", .mathSqrt), ("pow", .mathPow),
   ("max", .mathMax), ("min", .mathMin)]

/-- The global functions. -/
def globalFunctions : List (String × Builtin) :=
  [("String", .stringOf), ("Number", .numberOf), ("Boolean", .booleanOf), ("isNaN", .isNaN),
   ("parseInt", .parseInt), ("parseFloat", .parseFloat), ("delay", .delay)]

/-- The methods of arrays. -/
def arrayMethods : List (String × Builtin) :=
  [("push", .push), ("pop", .pop), ("join", .join), ("indexOf", .indexOf), ("slice", .slice)]

/-- Install the standard functions. -/
def install (region : Nat) (global methods : ObjectId) (evalFunction : NativeId) (h : Heap) :
    Heap :=
  let h := addNamespace region global "Math" mathConstants mathMethods h
  let h := h.hide global "Infinity" (.number (Number.infinity false))
  let h := addNamespace region global "Object" [] [("keys", .objectKeys)] h
  let h := addNamespace region global "Array" [] [("isArray", .arrayIsArray)] h
  let h := addNamespace region global "JSON" []
    [("stringify", .jsonStringify), ("parse", .jsonParse)] h
  let h := addNamespace region global "console" [] [("log", .consoleLog)] h
  let h := globalFunctions.foldl (addMethod region global false) h
  let h := h.hide global evalName (.native evalFunction)
  let h := (errorKinds.map fun k => (k, Builtin.makeError k)).foldl (addMethod region global true) h
  arrayMethods.foldl (addMethod region methods false) h

end Fermata.Builtin
