import Fermata.Machine.Call

/-!
# Evaluating expressions

How an expression starts (`startExpr`, `Runtime::eval_node`), what becomes of members, references and
lists once their parts are evaluated, and how loops go round. Each function does one step and says what
follows.

* `startReference`, `readReference`, `writeReference` (`eval_reference`, `read_reference`,
  `write_reference`) are about what can be assigned.
* `startList`, `useList` (`eval_list`) evaluate one item after another, for arrays and arguments.
* `useMember` (`read_member`, `eval_call`) uses a receiver and a key.
* `shortCircuits` (`short_circuits`) tells whether the left side settles a logical operation.

The order of evaluation is fixed here: operands from left to right; the receiver, the key and the
function before the arguments of a call; the arguments of `new` before its constructor; and the old
value of a compound assignment before its right side.
-/

namespace Fermata.Act

/-- Go on with a value that has to pass the checkpoint. -/
def give (v : Value) : Act Move := return .go [] (.checkpoint v)

/-- Evaluate an expression for a continuation. -/
def evalFor (k : Cont) (e : Expr) : Act Move := return .go [k] (.eval e)

/-- The right operand is not evaluated. -/
def shortCircuits (op : LogicalOp) (left : Value) : Bool :=
  match op with
  | .and => !left.truthy
  | .or => left.truthy
  | .nullish => !left.isNullish

/-! ## References -/

/-- Read a reference. -/
def readReference (s : Site) : Reference → Act Value
  | .binding name => getName s.scope name
  | .property object key implicit => readMember object key implicit

/-- Write a reference. -/
def writeReference (s : Site) (ref : Reference) (v : Value) : Act Unit :=
  match ref with
  | .binding name => setName s.scope name v
  | .property object key _ => setProperty object key v

/-- Use a reference. -/
def useReference (s : Site) (use : ReferenceUse) (ref : Reference) : Act Move := do
  match use with
  | .update op before => return .go [.updateOld ref op before] (.checkpoint (← readReference s ref))
  | .assign .plain value => evalFor (.assignValue ref) value
  | .assign (.compound op) value =>
    return .go [.compoundOld ref op value] (.checkpoint (← readReference s ref))
  | .assign (.logical op) value =>
    return .go [.logicalOld ref op value] (.checkpoint (← readReference s ref))
  | .delete =>
    match ref with
    | .property object key _ => give (← deleteProperty object key)
    | .binding _ => give (.bool false)
  | .loopItem loop item =>
    writeReference s ref item
    return .go [.loopBody loop] (.exec loop.body [])

/-- Use a member, its object and key being evaluated. -/
def useMember (s : Site) (use : MemberUse) (target : Value) (key : String) : Act Move := do
  match use with
  | .read implicit => give (← readMember target key implicit)
  | .callee implicit args =>
    return .go [.method target args] (.checkpoint (← readMember target key implicit))
  | .probe arg =>
    if ← reads (lacks · target key) then give (.string "undefined")
    else evalFor .typeOf arg
  | .refer implicit use => useReference s use (.property target key implicit)

/-- Evaluate the key of a member. -/
def startKey (s : Site) (use : MemberUse) (target : Value) : MemberKey → Act Move
  | .named name => useMember s use target name
  | .computed e => evalFor (.memberKey target use) e

/-- Evaluate what is to be assigned to a reference. -/
def startReference (s : Site) (use : ReferenceUse) (target : Expr) : Act Move :=
  match target with
  | .ident _ name => useReference s use (.binding name)
  | .member _ object key implicit => evalFor (.memberTarget key (.refer implicit use)) object
  | _ => raise syntaxErrorKind "Invalid left-hand side in assignment"

/-! ## Lists -/

/-- Use a list of values. -/
def useList (s : Site) (use : ListUse) (values : List Value) : Act Move := do
  match use with
  | .array => give (.object (← newObject (.ofList values)))
  | .call callee this =>
    if callee.isCallable then
      return (← callValue s.depth s.scope callee this values).pushing [.settle]
    else typeError (callee.typeName ++ " is not a function")
  | .construct callee => evalFor (.constructed values) callee

/-- Evaluate a list of expressions from left to right. -/
def startList (s : Site) (use : ListUse) (before : List Value) : List Expr → Act Move
  | [] => useList s use before.reverse
  | e :: rest => evalFor (.element use before rest) e

/-- Evaluate the properties of an object literal. -/
def startProperties (object : ObjectId) : List PropertyDef → Act Move
  | [] => give (.object object)
  | p :: rest => evalFor (.property object p.key rest) p.value

/-- Evaluate expressions one after the other; the last one counts. -/
def startSequence (last : Value) : List Expr → Act Move
  | [] => give last
  | e :: rest => evalFor (.sequence rest) e

/-! ## Expressions -/

/-- Begin a `delete`. -/
def startDelete (s : Site) (arg : Expr) : Act Move :=
  match arg with
  | .member .. => startReference s .delete arg
  | .ident .. => give (.bool false)
  | _ => evalFor (.instead (.bool true)) arg

/-- Begin a `typeof`: a name that the global object lacks has the type `undefined`. -/
def startTypeOf (arg : Expr) : Act Move :=
  match arg with
  | .member _ object key true => evalFor (.memberTarget key (.probe arg)) object
  | _ => evalFor .typeOf arg

/-- Begin an expression. -/
def startExpr (s : Site) (e : Expr) : Act Move := do
  match e with
  | .number _ x => give (.number x)
  | .string _ t => give (.string t)
  | .bool _ b => give (.bool b)
  | .null _ => give .null
  | .array _ elements => startList s .array [] elements
  | .object _ properties => startProperties (← newObject (.empty none)) properties
  | .ident _ name => give (← getName s.scope name)
  | .this _ => give (← reads fun h => (h.scopes.get s.scope).thisValue)
  | .function _ fn =>
    let (id, frame) ← instantiate s.frame fn.id
    return .linked frame (.function id)
  | .member _ object key implicit => evalFor (.memberTarget key (.read implicit)) object
  | .call _ (.member _ object key implicit) args =>
    evalFor (.memberTarget key (.callee implicit args)) object
  | .call _ callee args => evalFor (.callee args) callee
  | .construct _ callee args => startList s (.construct callee) [] args
  | .unary _ .typeOf arg => startTypeOf arg
  | .unary _ .delete arg => startDelete s arg
  | .unary _ .void arg => evalFor (.instead .undefined) arg
  | .unary _ op arg => evalFor (.unary op) arg
  | .update _ op before target => startReference s (.update op before) target
  | .binary _ op left right => evalFor (.binaryLeft op right) left
  | .logical _ op left right => evalFor (.logicalLeft op right) left
  | .assign _ op target value => startReference s (.assign op value) target
  | .conditional _ test consequent alternate => evalFor (.choose consequent alternate) test
  | .sequence _ exprs => startSequence .undefined exprs

end Fermata.Act
