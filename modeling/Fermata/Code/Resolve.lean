import Fermata.Syntax.Error
import Fermata.Syntax.Tree

/-!
# Resolving names

`Resolve.program` (`instrument`) goes through a tree once, in source order, and

* turns each name that no enclosing function and no outer scope binds into a member of the global
  object, and a `var` at the top level into assignments to such members;
* finds out for every function which of its declared names are referred to, and lists its literals
  in a `ScopeRecord` (`ScopeTreeRecord`);
* refuses a `return` outside a function, and a `break` or `continue` that no enclosing statement
  answers.

A function that mentions `eval`, or encloses one that does, keeps all its names.

* `Declarations` (`collect_declarations`) are the names that a body declares, and its declared functions.
* `Context` (`FunctionCtx`) is a function on the way, `Resolve.resolve` and `Resolve.identifier`
  (`Instrumenter::resolve`, `identifier`) look a name up and mark it.
* `Resolve.expr`, `Resolve.stmt`, `Resolve.function` follow the methods of `Instrumenter` of these names;
  `Resolve.forInit` is `for_var_init`, `Resolve.inLoop` is `loop_body`.
-/

namespace Fermata

/-!
## The scope tree

A `ScopeRecord` says about one function literal, or about the program itself, which names an
activation of it binds and which literals it creates. The records of a unit, listed by the number of
their literal, are its scope tree.
-/

/-- What one activation binds and creates. -/
structure ScopeRecord where
  /-- The number of the literal. -/
  node : Nat
  /-- The declared name, or one made from the number. -/
  name : String
  params : List String
  /-- Declared names that something refers to, in order of declaration. -/
  bindings : List String
  /-- The literal's own name, when it binds it. -/
  selfBinding : Option String
  usesThis : Bool
  /-- An activation needs a scope of its own. -/
  requiresCapture : Bool
  /-- Function declarations; they are created on entry. -/
  hoisted : List Nat
  /-- Every literal inside: the declarations, then the expressions in source order. -/
  children : List Nat
  span : Span
deriving Inhabited, Repr, DecidableEq

/-- The name of the global object. -/
def globalName : String := "global"

/-- Names that the root scope answers by itself. -/
def reservedNames : List String := [globalName, "undefined", "NaN"]

/-- The name under which a function finds all its arguments. -/
def argumentsName : String := "arguments"

/-- The function that evaluates code where it is called. -/
def evalName : String := "eval"

/-- The name of a program's own record. -/
def programName : String := "(program)"

/-! ## Declarations -/

/-- Add a name that is not there yet at the end. -/
def addName (names : List String) (name : String) : List String :=
  if names.contains name then names else names ++ [name]

/-- The names that a function body declares, nested functions aside. -/
structure Declarations where
  vars : List String := []
  functions : List String := []

namespace Declarations

/-- Declare variables. -/
def addVars (d : Declarations) (decls : List VarDecl) : Declarations :=
  { d with vars := decls.foldl (fun vs v => addName vs v.name) d.vars }

mutual

/-- Collect from a statement. -/
def ofStmt (d : Declarations) : Stmt → Declarations
  | .declare _ decls => d.addVars decls
  | .function _ fn =>
    match fn.name with
    | some name => { d with functions := addName d.functions name }
    | none => d
  | .cond _ _ yes no => ofOption (ofStmt d yes) no
  | .whileLoop _ _ body | .doLoop _ body _ | .labeled _ _ body => ofStmt d body
  | .forLoop _ init _ _ body =>
    let d := match init with
      | some (.declare decls) => d.addVars decls
      | _ => d
    ofStmt d body
  | .forEach _ _ target _ body =>
    let d := match target with
      | .declare _ name => { d with vars := addName d.vars name }
      | .expression _ => d
    ofStmt d body
  | .guarded _ block handler finalizer => ofOption (ofHandler (ofStmt d block) handler) finalizer
  | .block _ body => ofList d body
  | _ => d

/-- Collect from a statement that may be absent. -/
def ofOption (d : Declarations) : Option Stmt → Declarations
  | none => d
  | some s => ofStmt d s

/-- Collect from a handler. -/
def ofHandler (d : Declarations) : Option CatchClause → Declarations
  | none => d
  | some ⟨_, body⟩ => ofStmt d body

/-- Collect from statements. -/
def ofList (d : Declarations) : List Stmt → Declarations
  | [] => d
  | s :: ss => ofList (ofStmt d s) ss

end

end Declarations

/-- Labels stand on a loop, possibly behind more labels. -/
def Stmt.labelsLoop : Stmt → Bool
  | .labeled _ _ body => body.labelsLoop
  | s => s.isLoop

namespace Resolve

/-! ## State -/

/-- What is known of a function while its body is gone through. -/
structure Context where
  id : Nat
  isRoot : Bool
  /-- Declared names in order. -/
  declared : List String := []
  selfName : Option String := none
  referenced : List String := []
  usesThis : Bool := false
  hoisted : List Nat := []
  literals : List Nat := []
  /-- Enclosing labels, and whether each stands on a loop. -/
  labels : List (String × Bool) := []
  loopDepth : Nat := 0
  hasEval : Bool := false

namespace Context

/-- The name is declared here. -/
def declares (ctx : Context) (name : String) : Bool := ctx.declared.contains name

/-- Declare a name. -/
def declare (ctx : Context) (name : String) : Context :=
  { ctx with declared := addName ctx.declared name }

/-- Refer to a name. -/
def refer (ctx : Context) (name : String) : Context :=
  { ctx with referenced := addName ctx.referenced name }

/-- The context of a function literal: parameters, declared functions and variables, and last the
own name of a function expression unless one of them hides it. -/
def ofFunction (fn : FunctionNode) : Context :=
  let decls := Declarations.ofList {} fn.body
  let ctx : Context :=
    (fn.params ++ decls.functions ++ decls.vars).foldl declare { id := fn.id, isRoot := false }
  match fn.isDeclaration, fn.name with
  | false, some name =>
    if ctx.declares name then ctx else { ctx.declare name with selfName := some name }
  | _, _ => ctx

/-- The record of a finished context. -/
def toRecord (ctx : Context) (name : String) (params : List String) (span : Span) :
    ScopeRecord :=
  let bindings := ctx.declared.filter fun d => ctx.hasEval || ctx.referenced.contains d
  let children := ctx.hoisted ++ ctx.literals
  let usesThis := ctx.usesThis || ctx.hasEval
  { node := ctx.id
    name
    params
    bindings
    selfBinding := ctx.selfName.filter bindings.contains
    usesThis
    requiresCapture := !bindings.isEmpty || !children.isEmpty || usesThis
    hoisted := ctx.hoisted
    children
    span }

end Context

/-- The state of the pass: contexts from the innermost out, what is finished, and the names bound
around the program. -/
structure State where
  stack : List Context
  records : Array (Option ScopeRecord)
  functions : Array (Option FunctionNode)
  outer : List String

/-- A step of the pass. -/
abbrev Pass (α : Type) := StateT State (Except CompileError) α

/-- Refuse the program. -/
def refuse (cause : InvalidCause) (span : Span) : Pass α :=
  throw (.invalid cause (some span))

/-- Change the innermost context. -/
def modifyTop (f : Context → Context) : Pass Unit :=
  modify fun s =>
    match s.stack with
    | ctx :: rest => { s with stack := f ctx :: rest }
    | [] => s

/-- The innermost context. -/
def top : Pass Context := return (← get).stack.headD { id := 0, isRoot := true }

/-- The pass is outside every function. -/
def atRoot : Pass Bool := return (← top).isRoot

/-- Refer to a name in the nearest function that declares it, if there is one. -/
def referIn (name : String) : List Context → Option (List Context)
  | [] => none
  | ctx :: rest =>
    if ctx.isRoot then none
    else if ctx.declares name then some (ctx.refer name :: rest)
    else (referIn name rest).map (ctx :: ·)

/-- Contexts after a reference to a name, and whether some function binds it. `arguments` is
declared by being used in a function. -/
def referStack (name : String) (stack : List Context) : List Context × Bool :=
  match stack with
  | ctx :: rest =>
    if name = argumentsName ∧ ctx.isRoot = false then ((ctx.declare name).refer name :: rest, true)
    else
      match referIn name stack with
      | some stack => (stack, true)
      | none => (stack, false)
  | [] => ([], false)

/-- Refer to a name: is it bound by an enclosing function or around the program? -/
def resolve (name : String) : Pass Bool := do
  let s ← get
  let (stack, bound) := referStack name s.stack
  set { s with stack }
  return bound || s.outer.contains name

/-- The member of the global object. -/
def globalMember (name : String) (span : Span) (implicit : Bool) : Expr :=
  .member span (.ident span globalName) (.named name) implicit

/-- A name as an expression. -/
def identifier (name : String) (span : Span) : Pass Expr := do
  if (← resolve name) || reservedNames.contains name then return .ident span name
  if name = evalName then
    modify fun s =>
      { s with stack := s.stack.map fun c => if c.isRoot then c else { c with hasEval := true } }
  return globalMember name span true

/-- What a `var` at the top level assigns. -/
def rootTarget (name : String) (span : Span) : Pass Expr := do
  if (← get).outer.contains name then return .ident span name
  return globalMember name span false

/-- Assignments stand as one expression. -/
def asExpr (exprs : List Expr) (span : Span) : Expr :=
  match exprs with
  | [e] => e
  | es => .sequence span es

/-- Enter a literal: the function around it gets a child, and its own context opens. -/
def enter (fn : FunctionNode) : Pass Unit := do
  modifyTop fun ctx =>
    if fn.isDeclaration then { ctx with hoisted := ctx.hoisted ++ [fn.id] }
    else { ctx with literals := ctx.literals ++ [fn.id] }
  modify fun s => { s with stack := Context.ofFunction fn :: s.stack }

/-- Leave a literal: its record and its resolved node are kept under its number. -/
def leave (fn : FunctionNode) : Pass Unit := do
  let ctx ← top
  let record := ctx.toRecord (fn.name.getD ("anonymous_" ++ toString fn.id)) fn.params fn.span
  modify fun s =>
    { s with
      stack := s.stack.tail
      records := s.records.setIfInBounds ctx.id (some record)
      functions := s.functions.setIfInBounds fn.id (some fn) }

/-- Go through something as the body of a loop. -/
def inLoop (body : Pass α) : Pass α := do
  modifyTop fun ctx => { ctx with loopDepth := ctx.loopDepth + 1 }
  let a ← body
  modifyTop fun ctx => { ctx with loopDepth := ctx.loopDepth - 1 }
  return a

/-- Go through something under a label. -/
def underLabel (label : String) (isLoop : Bool) (body : Pass α) : Pass α := do
  modifyTop fun ctx => { ctx with labels := (label, isLoop) :: ctx.labels }
  let a ← body
  modifyTop fun ctx => { ctx with labels := ctx.labels.tail }
  return a

/-- A `break` needs a loop, or its label around it. -/
def checkBreak (label : Option String) (span : Span) : Pass Unit := do
  let ctx ← top
  match label with
  | none => unless ctx.loopDepth > 0 do refuse .breakOutside span
  | some l => unless ctx.labels.any (·.1 == l) do refuse (.unknownLabel l) span

/-- A `continue` needs a loop, or its label on a loop around it. -/
def checkContinue (label : Option String) (span : Span) : Pass Unit := do
  let ctx ← top
  match label with
  | none => unless ctx.loopDepth > 0 do refuse .continueOutside span
  | some l => unless ctx.labels.any (fun p => p.1 == l && p.2) do refuse (.continueLabel l) span

/-! ## The pass -/

mutual

/-- An expression. -/
def expr : Expr → Pass Expr
  | .ident s name => identifier name s
  | .this s => do
    modifyTop fun ctx => { ctx with usesThis := true }
    return .this s
  | .function s fn => return .function s (← function fn)
  | .array s es => return .array s (← exprs es)
  | .object s ps => return .object s (← properties ps)
  | .member s o k i => do
    let o ← expr o
    return .member s o (← memberKey k) i
  | .call s f args => do
    let f ← expr f
    return .call s f (← exprs args)
  | .construct s f args => do
    let f ← expr f
    return .construct s f (← exprs args)
  | .unary s op a => return .unary s op (← expr a)
  | .update s op b t => return .update s op b (← expr t)
  | .binary s op l r => do
    let l ← expr l
    return .binary s op l (← expr r)
  | .logical s op l r => do
    let l ← expr l
    return .logical s op l (← expr r)
  | .assign s op t v => do
    let t ← expr t
    return .assign s op t (← expr v)
  | .conditional s t y n => do
    let t ← expr t
    let y ← expr y
    return .conditional s t y (← expr n)
  | .sequence s es => return .sequence s (← exprs es)
  | .number s v => return .number s v
  | .string s v => return .string s v
  | .bool s v => return .bool s v
  | .null s => return .null s

/-- Expressions in order. -/
def exprs : List Expr → Pass (List Expr)
  | [] => return []
  | e :: es => do
    let e ← expr e
    return e :: (← exprs es)

/-- An expression that may be absent. -/
def optionalExpr : Option Expr → Pass (Option Expr)
  | none => return none
  | some e => return some (← expr e)

/-- What selects a member. -/
def memberKey : MemberKey → Pass MemberKey
  | .named name => return .named name
  | .computed e => return .computed (← expr e)

/-- Properties of a literal. -/
def properties : List PropertyDef → Pass (List PropertyDef)
  | [] => return []
  | ⟨key, value, span⟩ :: ps => do
    let value ← expr value
    return ⟨key, value, span⟩ :: (← properties ps)

/-- A function literal. -/
def function : FunctionNode → Pass FunctionNode
  | ⟨id, name, params, body, isDeclaration, span⟩ => do
    enter ⟨id, name, params, body, isDeclaration, span⟩
    let body ← stmts body
    let fn : FunctionNode := ⟨id, name, params, body, isDeclaration, span⟩
    leave fn
    return fn

/-- Declarations at the top level, as assignments. -/
def assignments : List VarDecl → Pass (List Expr)
  | [] => return []
  | ⟨name, init, span⟩ :: ds => do
    let value ← optionalExpr init
    let target ← rootTarget name span
    let rest ← assignments ds
    return .assign span .plain target (value.getD (.ident span "undefined")) :: rest

/-- Declarations in a function; those that give no value have done their work. -/
def localDecls : List VarDecl → Pass (List VarDecl)
  | [] => return []
  | ⟨_, none, _⟩ :: ds => localDecls ds
  | ⟨name, some init, span⟩ :: ds => do
    let _ ← resolve name
    let init ← expr init
    return ⟨name, some init, span⟩ :: (← localDecls ds)

/-- The first part of a loop. -/
def forInit (span : Span) : Option ForInit → Pass (Option ForInit)
  | none => return none
  | some (.expression e) => return some (.expression (← expr e))
  | some (.declare ds) => do
    if ← atRoot then return some (.expression (asExpr (← assignments ds) span))
    else
      match ← localDecls ds with
      | [] => return none
      | ds => return some (.declare ds)

/-- The target of a loop. -/
def forTarget : ForTarget → Pass ForTarget
  | .expression e => return .expression (← expr e)
  | .declare span name => do
    if ← atRoot then return .expression (← rootTarget name span)
    else
      let _ ← resolve name
      return .declare span name

/-- A handler. -/
def handler : Option CatchClause → Pass (Option CatchClause)
  | none => return none
  | some ⟨param, body⟩ => return some ⟨param, ← stmt body⟩

/-- A statement that may be absent. -/
def optionalStmt : Option Stmt → Pass (Option Stmt)
  | none => return none
  | some s => return some (← stmt s)

/-- A statement. -/
def stmt : Stmt → Pass Stmt
  | .expression s e => return .expression s (← expr e)
  | .declare s ds => do
    if ← atRoot then return .expression s (asExpr (← assignments ds) s)
    else
      match ← localDecls ds with
      | [] => return .empty s
      | ds => return .declare s ds
  | .function s fn => return .function s (← function fn)
  | .ret s arg => do
    if ← atRoot then refuse .returnOutside s
    return .ret s (← optionalExpr arg)
  | .cond s test yes no => do
    let test ← expr test
    let yes ← stmt yes
    return .cond s test yes (← optionalStmt no)
  | .whileLoop s test body => do
    let test ← expr test
    return .whileLoop s test (← inLoop (stmt body))
  | .doLoop s body test => do
    let body ← inLoop (stmt body)
    return .doLoop s body (← expr test)
  | .forLoop s init test update body => do
    let init ← forInit s init
    let test ← optionalExpr test
    let update ← optionalExpr update
    return .forLoop s init test update (← inLoop (stmt body))
  | .forEach s kind target source body => do
    let target ← forTarget target
    let source ← expr source
    return .forEach s kind target source (← inLoop (stmt body))
  | .leave s label => do
    checkBreak label s
    return .leave s label
  | .next s label => do
    checkContinue label s
    return .next s label
  | .raise s arg => return .raise s (← expr arg)
  | .guarded s block h finalizer => do
    let block ← stmt block
    let h ← handler h
    return .guarded s block h (← optionalStmt finalizer)
  | .labeled s label body =>
    return .labeled s label (← underLabel label body.labelsLoop (stmt body))
  | .block s body => return .block s (← stmts body)
  | .empty s => return .empty s

/-- Statements in order. -/
def stmts : List Stmt → Pass (List Stmt)
  | [] => return []
  | s :: ss => do
    let s ← stmt s
    return s :: (← stmts ss)

end

/-- What the pass makes of a program. -/
structure Result where
  body : List Stmt
  records : Array ScopeRecord
  functions : Array (Option FunctionNode)

/-- All records, or the first number that has none. -/
def allRecords (records : List (Option ScopeRecord)) (next : Nat) :
    Except CompileError (List ScopeRecord) :=
  match records with
  | [] => .ok []
  | none :: _ => .error (.invalid (.uninstrumented next) none)
  | some r :: rest => (allRecords rest (next + 1)).map (r :: ·)

/-- Resolve the names of a program that runs where the names `outer` are bound. -/
def program (p : Program) (outer : List String) : Except CompileError Result := do
  let start : State :=
    { stack := [{ id := 0, isRoot := true }]
      records := Array.replicate p.functionCount none
      functions := Array.replicate p.functionCount none
      outer }
  let (body, s) ← (stmts p.body).run start
  let root := (s.stack.headD { id := 0, isRoot := true }).toRecord programName [] p.span
  let records := s.records.setIfInBounds 0 (some root)
  return ⟨body, (← allRecords records.toList 0).toArray, s.functions⟩

end Resolve

end Fermata
