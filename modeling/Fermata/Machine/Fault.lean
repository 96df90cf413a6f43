import Fermata.Heap.Inspect
import Fermata.Syntax.Error

/-!
# Failures

A guest program can throw a value that nothing catches; the engine reports it as a `Failure`
(`GuestFailure`). A `Fault` is different: the machine met something that its own bookkeeping rules out, or
a construct that it does not evaluate. An `EngineError` is any way in which an evaluation ends without a
value.

* `Failure.ofThrown` (`snapshot`) takes the kind and message from the thrown value.
* `Fault.message` and the others of this name are the wording.

Left out: causes behind an error. No error has one.
-/

namespace Fermata

/-- Kinds of guest errors. -/
def typeErrorKind : String := "TypeError"
/-- The kind of reading an unknown name. -/
def referenceErrorKind : String := "ReferenceError"
/-- The kind of exceeding a limit. -/
def rangeErrorKind : String := "RangeError"
/-- The kind of code that cannot be read. -/
def syntaxErrorKind : String := "SyntaxError"
/-- The kind reported for a thrown value that is no error. -/
def uncaughtKind : String := "Uncaught"

/-- The error kinds that have a constructor. -/
def errorKinds : List String :=
  [errorName, typeErrorKind, referenceErrorKind, rangeErrorKind, syntaxErrorKind]

/-- A code and a message. -/
structure ErrorInfo where
  code : String
  message : String
deriving DecidableEq, Repr, Inhabited

/-- The message behind the code, if there is one. -/
def ErrorInfo.text (e : ErrorInfo) : String :=
  if e.message.isEmpty then e.code else e.code ++ ": " ++ e.message

/-- A thrown value that nothing caught. -/
structure Failure where
  info : ErrorInfo
  /-- The value as JSON. -/
  value : Json
deriving Inhabited

namespace Failure

/-- The failure is of a kind. -/
def isKind (f : Failure) (kind : String) : Bool := f.info.code == kind

/-- The failure of a thrown value. -/
def ofThrown (h : Heap) (v : Value) : Failure :=
  let other : ErrorInfo := ⟨uncaughtKind, h.text v⟩
  let field id k := match h.lookup? id k with
    | some f => h.text f
    | none => ""
  let info := match v with
    | .object id =>
      if (h.objects.get id).class_ = .error then
        ⟨field id Object.nameKey, field id Object.messageKey⟩
      else other
    | _ => other
  ⟨info, h.toJson v⟩

end Failure

/-- What is wrong with a function literal that is to be linked. -/
inductive LinkFault where
  | noLiteral
  | noRecord
  | noActivationRecord
  | notAChild (count : Nat)
deriving DecidableEq, Repr, Inhabited

/-- The wording. -/
def LinkFault.message : LinkFault → String
  | .noLiteral => "no function literal with this id"
  | .noRecord => "function has no scope-tree record"
  | .noActivationRecord => "activation has no scope-tree record"
  | .notAChild count => "literal is not among the " ++ toString count ++ " recorded children"

/-- What is wrong with the call stack. -/
inductive StackFault where
  | neverLinked (function : String)
  | loopEscaped (function : String)
  | transferEscaped
  | noFrame
deriving DecidableEq, Repr, Inhabited

/-- The wording. -/
def StackFault.message : StackFault → String
  | .neverLinked function => function ++ " was never linked to a defining scope"
  | .loopEscaped function => "loop control escaped " ++ function
  | .transferEscaped => "control transfer escaped the evaluation unit"
  | .noFrame => "no active frame"

/-- A condition that no guest construct can absorb. -/
inductive Fault where
  | unsupportedTry (line : Nat)
  | link (function : String) (node : Nat) (cause : LinkFault)
  | stack (cause : StackFault)
  /-- A second pending value was met before the first one was settled. -/
  | doubleSuspension
  /-- A settlement was handed to an evaluation that did not wait for one. -/
  | suspensionLost
deriving DecidableEq, Repr, Inhabited

/-- The wording. -/
def Fault.message : Fault → String
  | .unsupportedTry line => "unsupported construct: try statement at line " ++ toString line
  | .link function node cause =>
    "link desync in " ++ function ++ " (#" ++ toString node ++ "): " ++ cause.message
  | .stack cause => "call stack desync: " ++ cause.message
  | .doubleSuspension => "pending value touched twice in one suspension cycle"
  | .suspensionLost => "suspended evaluation lost its resume channel"

/-- How an evaluation ends without a value, or why it does not start. -/
inductive EngineError where
  | compile (error : CompileError)
  | uncaught (failure : Failure)
  | fault (cause : Fault)
  | busy
  | notCallable (typeName : String)
  | foreignScope
deriving Inhabited

/-- The wording. -/
def EngineError.message : EngineError → String
  | .compile e => "compile error: " ++ e.message
  | .uncaught f => "uncaught " ++ f.info.text
  | .fault cause => cause.message
  | .busy => "engine is already evaluating"
  | .notCallable t => t ++ " is not a function"
  | .foreignScope => "scope belongs to another engine"

end Fermata
