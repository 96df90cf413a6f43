import Fermata.Engine.Basic

/-!
# The machine

An evaluation is a `Machine`: what happens next (`Control`) and the live activations, innermost
first. Each activation carries the continuations of its own body, so that leaving a body, on
whatever path, leaves the continuations of its callers as they were.

A value that was computed passes the `checkpoint` before a continuation receives it. There a settled
pending value gives way to its settlement, and an unsettled one stops the machine.

* `Frame` is an activation as the call stack knows it, `Machine.positions` (`CallStack::positions`) the
  call stack for a report.
* `Cont` is what is still to be done with a value: one constructor for each place in `Runtime::eval_node`
  and `Runtime::exec_stmt` where a part is evaluated. `Boundary` says what is left when a body ends.
* `Machine.held` and its parts list what a parked evaluation refers to.

Left out: the depth of the native stack (`GrowStack`). A machine has no other stack than its own.
-/

namespace Fermata

/-- A place that can be assigned. -/
inductive Reference where
  | binding (name : String)
  /-- `implicit` as in the member expression: reading a missing key is an error. -/
  | property (object : Value) (key : String) (implicit : Bool)
deriving Inhabited

/-- The parts of a loop. -/
inductive LoopKind where
  | whileLoop (test : Expr)
  | doLoop (test : Expr)
  | forLoop (test update : Option Expr)
  /-- `items` are still to come. -/
  | forEach (target : ForTarget) (items : List Value)

/-- A loop that is being executed. -/
structure Loop where
  kind : LoopKind
  body : Stmt
  /-- The labels attached to it. -/
  labels : List String
  /-- The value of the last body that came to its end. -/
  last : Value

/-- What a reference is wanted for. -/
inductive ReferenceUse where
  | update (op : UpdateOp) (before : Bool)
  | assign (op : AssignOp) (value : Expr)
  | delete
  /-- It gets the next item of a loop. -/
  | loopItem (loop : Loop) (item : Value)

/-- What a member is wanted for. -/
inductive MemberUse where
  | read (implicit : Bool)
  | callee (implicit : Bool) (args : List Expr)
  /-- Its absence is the answer to `typeof`; otherwise `arg` is evaluated. -/
  | probe (arg : Expr)
  | refer (implicit : Bool) (use : ReferenceUse)

/-- What a list of values is wanted for. -/
inductive ListUse where
  | array
  | call (callee this : Value)
  | construct (callee : Expr)

/-- What follows the declarations of a `var`. -/
inductive DeclareEnd where
  | done
  | loop (loop : Loop)

/-- What waits for a value. -/
inductive Cont where
  /-- The value passes the checkpoint. -/
  | settle
  /-- One value of a list; those before it are in reverse order. -/
  | element (use : ListUse) (before : List Value) (rest : List Expr)
  | property (object : ObjectId) (key : String) (rest : List PropertyDef)
  | memberTarget (key : MemberKey) (use : MemberUse)
  | memberKey (target : Value) (use : MemberUse)
  | callee (args : List Expr)
  | method (receiver : Value) (args : List Expr)
  | constructed (args : List Value)
  /-- The value of a constructor, if it has properties; otherwise the new object. -/
  | made (object : ObjectId)
  | typeOf
  /-- The value is dropped in favour of another one. -/
  | instead (result : Value)
  | unary (op : UnaryOp)
  | binaryLeft (op : BinaryOp) (right : Expr)
  | binaryRight (op : BinaryOp) (left : Value)
  | logicalLeft (op : LogicalOp) (right : Expr)
  | choose (consequent alternate : Expr)
  | sequence (rest : List Expr)
  | updateOld (ref : Reference) (op : UpdateOp) (before : Bool)
  | assignValue (ref : Reference)
  | compoundOld (ref : Reference) (op : BinaryOp) (value : Expr)
  | compoundValue (ref : Reference) (op : BinaryOp) (old : Value)
  | logicalOld (ref : Reference) (op : LogicalOp) (value : Expr)
  | body (rest : List Stmt)
  | declare (name : String) (rest : List VarDecl) (after : DeclareEnd)
  | ret
  | raise
  | cond (thenBranch : Stmt) (elseBranch : Option Stmt)
  | loopInit (loop : Loop)
  | loopTest (loop : Loop)
  | loopBody (loop : Loop)
  | loopUpdate (loop : Loop)
  | eachSource (kind : EachKind) (target : ForTarget) (body : Stmt) (labels : List String)
  | labeled (label : String)

/-- What happens next. -/
inductive Control where
  | eval (expr : Expr)
  /-- `labels` are attached to the statement. -/
  | exec (stmt : Stmt) (labels : List String)
  | checkpoint (value : Value)
  /-- The machine stands until this pending value is settled. -/
  | waiting (pending : PendingId)
  | value (value : Value)
  | abrupt (transfer : Abrupt)

/-- One live activation, as the call stack shows it. -/
structure Frame where
  name : String
  scope : ScopeId
  unit : CodeUnit
  /-- The number of the record that it follows. -/
  record : Nat
  /-- Children of the record before this one were passed. -/
  nextChild : Nat := 0
  /-- What it evaluates. -/
  location : Span := {}
deriving Inhabited

/-- What the end of a body means. -/
inductive Boundary where
  /-- A function of this name: its value is what it returns. -/
  | function (name : String)
  /-- A unit: its value is that of its last statement. -/
  | unit
deriving DecidableEq, Repr, Inhabited

/-- An activation with what is left of its body. -/
structure Activation where
  frame : Frame
  boundary : Boundary
  conts : List Cont

/-- An evaluation. -/
structure Machine where
  control : Control
  /-- Innermost first. -/
  stack : List Activation

namespace Frame

/-- The position of a frame. -/
def position (f : Frame) : StackPosition :=
  ⟨f.name, f.location.start.line + 1, f.location.start.column + 1⟩

end Frame

namespace Activation

/-- Note what the activation evaluates. -/
def mark (a : Activation) (span : Span) : Activation :=
  { a with frame := { a.frame with location := span } }

/-- Add continuations in front. -/
def pushing (a : Activation) (ks : List Cont) : Activation := { a with conts := ks ++ a.conts }

end Activation

namespace Machine

/-- The live frames, innermost first. -/
def frames (m : Machine) : List Frame := m.stack.map Activation.frame

/-- The positions of the innermost activations, at most `limit`. -/
def positions (m : Machine) (limit : Nat) : List StackPosition :=
  (m.stack.take limit).map fun a => a.frame.position

end Machine

/-- The place of an evaluation step: the innermost frame and what called it. -/
structure Site where
  frame : Frame
  callers : List Activation

namespace Site

/-- The number of live activations. -/
def depth (s : Site) : Nat := s.callers.length + 1

/-- The scope of the innermost activation. -/
def scope (s : Site) : ScopeId := s.frame.scope

end Site

/-- What a step of evaluation leads to. -/
inductive Move where
  /-- Go on in the same activation, with more continuations. -/
  | go (push : List Cont) (control : Control)
  /-- A new function value, with the frame as linking it left it. -/
  | linked (frame : Frame) (value : Value)
  /-- Open an activation above this one. -/
  | enter (push : List Cont) (activation : Activation) (control : Control)

/-- Add continuations to the current activation. -/
def Move.pushing (ks : List Cont) : Move → Move
  | .go push control => .go (push ++ ks) control
  | .linked frame v => .linked frame v
  | .enter push a control => .enter (push ++ ks) a control

/-!
## What a machine holds

The values and scopes that a parked evaluation keeps alive.
-/

/-- The values of a reference. -/
def Reference.held : Reference → List Value
  | .binding _ => []
  | .property object _ _ => [object]

/-- The values of a loop. -/
def Loop.held (l : Loop) : List Value :=
  l.last ::
    match l.kind with
    | .forEach _ items => items
    | _ => []

/-- The values that the use of a reference holds. -/
def ReferenceUse.held : ReferenceUse → List Value
  | .loopItem loop item => item :: loop.held
  | _ => []

/-- The values that the use of a member holds. -/
def MemberUse.held : MemberUse → List Value
  | .refer _ use => use.held
  | _ => []

/-- The values that the use of a list holds. -/
def ListUse.held : ListUse → List Value
  | .call callee this => [callee, this]
  | _ => []

/-- The values that what follows declarations holds. -/
def DeclareEnd.held : DeclareEnd → List Value
  | .loop l => l.held
  | .done => []

/-- The values of a continuation. -/
def Cont.held : Cont → List Value
  | .element use before _ => use.held ++ before
  | .property object _ _ | .made object => [.object object]
  | .memberTarget _ use => use.held
  | .memberKey target use => target :: use.held
  | .method receiver _ => [receiver]
  | .constructed args => args
  | .instead v | .binaryRight _ v => [v]
  | .updateOld ref _ _ | .assignValue ref | .compoundOld ref _ _ | .logicalOld ref _ _ => ref.held
  | .compoundValue ref _ old => old :: ref.held
  | .declare _ _ after => after.held
  | .loopInit l | .loopTest l | .loopBody l | .loopUpdate l => l.held
  | _ => []

/-- The values of a transfer. -/
def Abrupt.held : Abrupt → List Value
  | .ret v | .thrown v => [v]
  | _ => []

/-- The values of a control. -/
def Control.held : Control → List Value
  | .checkpoint v | .value v => [v]
  | .waiting p => [.pending p]
  | .abrupt a => a.held
  | _ => []

/-- The cells of an activation. -/
def Activation.held (a : Activation) : List Cell :=
  .scope a.frame.scope :: Cell.ofValues (a.conts.flatMap Cont.held)

/-- The cells of a machine. -/
def Machine.held (m : Machine) : List Cell :=
  Cell.ofValues m.control.held ++ m.stack.flatMap Activation.held

end Fermata
