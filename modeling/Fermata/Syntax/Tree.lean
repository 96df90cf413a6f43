import Fermata.Syntax.Span

/-!
# Program trees

The tree of a guest program: expressions (`Expr`), statements (`Stmt`) and function literals
(`FunctionNode`), each with the span it was read from. A function literal carries a number, its `id`
(`NodeId`): literals are numbered from 1 in the order in which they start in the source, and 0 stands for
the program itself.

The tree type says nothing about names. A tree fresh from the reader still holds every `var`
statement; in the tree of a compiled unit the names that no function binds have become members of
the global object, marked `implicit`.

* `Expr.isAssignable`, `Stmt.isLoop` (`is_assignable`, `is_loop`) classify, `Expr.span` and `Stmt.span`
  say where something stands.
-/

namespace Fermata

/-- Operators that evaluate both operands. -/
inductive BinaryOp where
  | add | sub | mul | div | mod | pow
  | eq | ne | strictEq | strictNe
  | lt | lte | gt | gte
  | bitAnd | bitOr | bitXor | shl | shr | ushr
  | hasKey | instanceOf
deriving DecidableEq, Repr, Inhabited

/-- Operators that may leave the right operand alone. -/
inductive LogicalOp where
  | and | or | nullish
deriving DecidableEq, Repr, Inhabited

/-- Operators in front of an operand. -/
inductive UnaryOp where
  | not | neg | plus | bitNot | typeOf | void | delete
deriving DecidableEq, Repr, Inhabited

/-- Increment and decrement. -/
inductive UpdateOp where
  | inc | dec
deriving DecidableEq, Repr, Inhabited

/-- The ways to assign: plainly, through an operator, or only if the old value asks for it. -/
inductive AssignOp where
  | plain
  | compound (op : BinaryOp)
  | logical (op : LogicalOp)
deriving DecidableEq, Repr, Inhabited

/-- Whether a loop over a collection takes its keys or its values. -/
inductive EachKind where
  | keys | values
deriving DecidableEq, Repr, Inhabited

mutual

/-- An expression. -/
inductive Expr where
  | number (span : Span) (value : Float)
  | string (span : Span) (value : String)
  | bool (span : Span) (value : Bool)
  | null (span : Span)
  | array (span : Span) (elements : List Expr)
  | object (span : Span) (properties : List PropertyDef)
  | ident (span : Span) (name : String)
  | this (span : Span)
  | function (span : Span) (fn : FunctionNode)
  /-- `implicit` marks a name that was read as a property of the global object. -/
  | member (span : Span) (object : Expr) (key : MemberKey) (implicit : Bool)
  | call (span : Span) (callee : Expr) (args : List Expr)
  | construct (span : Span) (callee : Expr) (args : List Expr)
  | unary (span : Span) (op : UnaryOp) (arg : Expr)
  /-- `before` tells `++x` from `x++`. -/
  | update (span : Span) (op : UpdateOp) (before : Bool) (target : Expr)
  | binary (span : Span) (op : BinaryOp) (left right : Expr)
  | logical (span : Span) (op : LogicalOp) (left right : Expr)
  | assign (span : Span) (op : AssignOp) (target value : Expr)
  | conditional (span : Span) (test consequent alternate : Expr)
  | sequence (span : Span) (exprs : List Expr)

/-- What selects the property of a member expression. -/
inductive MemberKey where
  | named (name : String)
  | computed (expr : Expr)

/-- One `key: value` of an object literal. -/
structure PropertyDef where
  key : String
  value : Expr
  span : Span

/-- A function literal: a declaration or an expression. -/
structure FunctionNode where
  id : Nat
  name : Option String
  params : List String
  body : List Stmt
  /-- A declaration binds its name outside, an expression only inside. -/
  isDeclaration : Bool
  span : Span

/-- One `name = init` of a `var` statement. -/
structure VarDecl where
  name : String
  init : Option Expr
  span : Span

/-- The first part of a three-part loop. -/
inductive ForInit where
  | declare (decls : List VarDecl)
  | expression (expr : Expr)

/-- What a loop over a collection assigns. -/
inductive ForTarget where
  | declare (span : Span) (name : String)
  | expression (expr : Expr)

/-- The handler of a guarded block. -/
structure CatchClause where
  param : Option String
  body : Stmt

/-- A statement. -/
inductive Stmt where
  | expression (span : Span) (expr : Expr)
  | declare (span : Span) (decls : List VarDecl)
  | function (span : Span) (fn : FunctionNode)
  | ret (span : Span) (arg : Option Expr)
  | cond (span : Span) (test : Expr) (thenBranch : Stmt) (elseBranch : Option Stmt)
  | whileLoop (span : Span) (test : Expr) (body : Stmt)
  | doLoop (span : Span) (body : Stmt) (test : Expr)
  | forLoop (span : Span) (init : Option ForInit) (test update : Option Expr) (body : Stmt)
  | forEach (span : Span) (kind : EachKind) (target : ForTarget) (source : Expr) (body : Stmt)
  | leave (span : Span) (label : Option String)
  | next (span : Span) (label : Option String)
  | raise (span : Span) (arg : Expr)
  | guarded (span : Span) (block : Stmt) (handler : Option CatchClause) (finalizer : Option Stmt)
  | labeled (span : Span) (label : String) (body : Stmt)
  | block (span : Span) (body : List Stmt)
  | empty (span : Span)

end

instance : Inhabited Expr := ⟨.null {}⟩
instance : Inhabited Stmt := ⟨.empty {}⟩

/-- Where the expression stands. -/
def Expr.span : Expr → Span
  | .number s _ | .string s _ | .bool s _ | .null s | .array s _ | .object s _ | .ident s _
  | .this s | .function s _ | .member s _ _ _ | .call s _ _ | .construct s _ _ | .unary s _ _
  | .update s _ _ _ | .binary s _ _ _ | .logical s _ _ _ | .assign s _ _ _
  | .conditional s _ _ _ | .sequence s _ => s

/-- Only names and members can be assigned. -/
def Expr.isAssignable : Expr → Bool
  | .ident .. | .member .. => true
  | _ => false

/-- Where the statement stands. -/
def Stmt.span : Stmt → Span
  | .expression s _ | .declare s _ | .function s _ | .ret s _ | .cond s _ _ _
  | .whileLoop s _ _ | .doLoop s _ _ | .forLoop s _ _ _ _ | .forEach s _ _ _ _ | .leave s _
  | .next s _ | .raise s _ | .guarded s _ _ _ | .labeled s _ _ | .block s _ | .empty s => s

/-- Loops own unlabelled jumps. -/
def Stmt.isLoop : Stmt → Bool
  | .whileLoop .. | .doLoop .. | .forLoop .. | .forEach .. => true
  | _ => false

/-- A whole program. `functionCount` numbers are in use, the program's own 0 included. -/
structure Program where
  body : List Stmt
  span : Span
  functionCount : Nat
deriving Inhabited

end Fermata
