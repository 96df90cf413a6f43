import Fermata.Json.Basic
import Fermata.Number.Binary
import Fermata.Syntax.Tree

/-!
# Trees as JSON

`Program.toJson` writes a program as a JSON tree and `Program.ofJson?` reads it back. A node is an
object with its kind under `t`. Members that hold nothing are left out: an absent part, a `false`
flag, the blank span. Reading takes unknown members for nothing and refuses a node that lacks a
part, or has one of the wrong kind.

Reading also takes a node as a list: its kind, if it has one, and then its parts in order. Below the
statements of the program itself, a kind may be given by its number.
-/

namespace Fermata

/-! ## Names of operators -/

/-- Operators with their names. -/
def BinaryOp.names : List (BinaryOp × String) :=
  [(.add, "Add"), (.sub, "Sub"), (.mul, "Mul"), (.div, "Div"), (.mod, "Mod"), (.pow, "Pow"),
   (.eq, "Eq"), (.ne, "Ne"), (.strictEq, "StrictEq"), (.strictNe, "StrictNe"), (.lt, "Lt"),
   (.lte, "Lte"), (.gt, "Gt"), (.gte, "Gte"), (.bitAnd, "BitAnd"), (.bitOr, "BitOr"),
   (.bitXor, "BitXor"), (.shl, "Shl"), (.shr, "Shr"), (.ushr, "UShr"), (.hasKey, "In"),
   (.instanceOf, "InstanceOf")]

/-- Operators with their names. -/
def LogicalOp.names : List (LogicalOp × String) :=
  [(.and, "And"), (.or, "Or"), (.nullish, "Nullish")]

/-- Operators with their names. -/
def UnaryOp.names : List (UnaryOp × String) :=
  [(.not, "Not"), (.neg, "Neg"), (.plus, "Plus"), (.bitNot, "BitNot"), (.typeOf, "TypeOf"),
   (.void, "Void"), (.delete, "Delete")]

/-- Operators with their names. -/
def UpdateOp.names : List (UpdateOp × String) := [(.inc, "Inc"), (.dec, "Dec")]

/-- Kinds of loop with their names. -/
def EachKind.names : List (EachKind × String) := [(.keys, "In"), (.values, "Of")]

namespace Layout

/-- The name of something listed. -/
def nameIn [BEq α] (names : List (α × String)) (a : α) : Json :=
  .string ((names.lookup a).getD "")

/-- What a name stands for. -/
def named? (names : List (α × String)) (name : String) : Option α :=
  (names.find? fun p => p.2 == name).map (·.1)

/-! ## Writing -/

/-- The members of a span. -/
def spanMembers (s : Span) : List (String × Json) :=
  [("start", .ofNat s.start.offset), ("end", .ofNat s.stop.offset),
   ("start_line", .ofNat s.start.line), ("start_col", .ofNat s.start.column),
   ("end_line", .ofNat s.stop.line), ("end_col", .ofNat s.stop.column)]

/-- The span of a node, left out if blank. -/
def spanPart (s : Span) : List (String × Json) :=
  if s.isBlank then [] else [("span", .object (spanMembers s))]

/-- An optional member. -/
def optionalPart (name : String) : Option Json → List (String × Json)
  | none => []
  | some j => [(name, j)]

/-- A flag, left out if false. -/
def flagPart (name : String) (b : Bool) : List (String × Json) :=
  if b then [(name, .bool true)] else []

/-- A node of a kind. -/
def node (kind : String) (parts : List (String × Json)) (span : Span) : Json :=
  .object ([("t", .string kind)] ++ parts ++ spanPart span)

/-- A list of names. -/
def nameList (names : List String) : Json := .array (names.map .string)

/-- The way to assign. -/
def assignOp : AssignOp → Json
  | .plain => .object [("t", .string "Assign")]
  | .compound op => .object [("t", .string "Compound"), ("op", nameIn BinaryOp.names op)]
  | .logical op => .object [("t", .string "Logical"), ("op", nameIn LogicalOp.names op)]

mutual

/-- An expression. -/
def expr : Expr → Json
  | .number s v => node "LitNum" [("v", .number (.double v))] s
  | .string s v => node "LitStr" [("v", .string v)] s
  | .bool s v => node "LitBool" [("v", .bool v)] s
  | .null s => node "LitNull" [] s
  | .array s es => node "LitArray" [("elements", .array (exprs es))] s
  | .object s ps => node "LitObj" [("properties", .array (properties ps))] s
  | .ident s name => node "Ident" [("name", .string name)] s
  | .this s => node "This" [] s
  | .function s fn => node "Function" [("func", function fn)] s
  | .member s o k i =>
    node "Member" ([("object", expr o), ("property", memberKey k)] ++ flagPart "implicit" i) s
  | .call s f args => node "Call" [("callee", expr f), ("args", .array (exprs args))] s
  | .construct s f args => node "New" [("callee", expr f), ("args", .array (exprs args))] s
  | .unary s op a => node "Unary" [("op", nameIn UnaryOp.names op), ("arg", expr a)] s
  | .update s op b t =>
    node "Update" [("op", nameIn UpdateOp.names op), ("prefix", .bool b), ("target", expr t)] s
  | .binary s op l r =>
    node "Binary" [("op", nameIn BinaryOp.names op), ("left", expr l), ("right", expr r)] s
  | .logical s op l r =>
    node "Logical" [("op", nameIn LogicalOp.names op), ("left", expr l), ("right", expr r)] s
  | .assign s op t v =>
    node "Assign" [("op", assignOp op), ("target", expr t), ("value", expr v)] s
  | .conditional s t y n =>
    node "Conditional" [("test", expr t), ("consequent", expr y), ("alternate", expr n)] s
  | .sequence s es => node "Sequence" [("exprs", .array (exprs es))] s

/-- Expressions. -/
def exprs : List Expr → List Json
  | [] => []
  | e :: es => expr e :: exprs es

/-- An expression that may be absent. -/
def optionalExpr : Option Expr → Option Json
  | none => none
  | some e => some (expr e)

/-- What selects a member. -/
def memberKey : MemberKey → Json
  | .named name => .object [("t", .string "Named"), ("name", .string name)]
  | .computed e => .object [("t", .string "Computed"), ("expr", expr e)]

/-- Properties of a literal. -/
def properties : List PropertyDef → List Json
  | [] => []
  | ⟨key, value, span⟩ :: ps =>
    .object ([("key", .string key), ("value", expr value)] ++ spanPart span) :: properties ps

/-- A function literal. -/
def function : FunctionNode → Json
  | ⟨id, name, params, body, isDeclaration, span⟩ =>
    .object ([("id", .ofNat id)] ++ optionalPart "name" (name.map .string)
      ++ [("params", nameList params), ("body", .array (stmts body))]
      ++ flagPart "is_declaration" isDeclaration ++ spanPart span)

/-- Declared names. -/
def decls : List VarDecl → List Json
  | [] => []
  | ⟨name, init, span⟩ :: ds =>
    .object ([("name", .string name)] ++ optionalPart "init" (optionalExpr init) ++ spanPart span)
      :: decls ds

/-- The first part of a loop. -/
def forInit : Option ForInit → Option Json
  | none => none
  | some (.declare ds) => some (.object [("t", .string "Var"), ("decls", .array (decls ds))])
  | some (.expression e) => some (.object [("t", .string "Expr"), ("expr", expr e)])

/-- The target of a loop. -/
def forTarget : ForTarget → Json
  | .declare span name => node "Var" [("name", .string name)] span
  | .expression e => .object [("t", .string "Expr"), ("expr", expr e)]

/-- A handler. -/
def catchClause : Option CatchClause → Option Json
  | none => none
  | some ⟨param, body⟩ =>
    some (.object (optionalPart "param" (param.map .string) ++ [("body", stmt body)]))

/-- A statement that may be absent. -/
def optionalStmt : Option Stmt → Option Json
  | none => none
  | some s => some (stmt s)

/-- A statement. -/
def stmt : Stmt → Json
  | .expression s e => node "Expr" [("expr", expr e)] s
  | .declare s ds => node "Var" [("decls", .array (decls ds))] s
  | .function s fn => node "Function" [("func", function fn)] s
  | .ret s arg => node "Return" (optionalPart "arg" (optionalExpr arg)) s
  | .cond s test yes no =>
    node "If" ([("test", expr test), ("then_s", stmt yes)]
      ++ optionalPart "else_s" (optionalStmt no)) s
  | .whileLoop s test body => node "While" [("test", expr test), ("body", stmt body)] s
  | .doLoop s body test => node "DoWhile" [("body", stmt body), ("test", expr test)] s
  | .forLoop s init test update body =>
    node "For" (optionalPart "init" (forInit init) ++ optionalPart "test" (optionalExpr test)
      ++ optionalPart "update" (optionalExpr update) ++ [("body", stmt body)]) s
  | .forEach s kind target source body =>
    node "ForIn" [("kind", nameIn EachKind.names kind), ("target", forTarget target),
      ("iterable", expr source), ("body", stmt body)] s
  | .leave s label => node "Break" (optionalPart "label" (label.map .string)) s
  | .next s label => node "Continue" (optionalPart "label" (label.map .string)) s
  | .raise s arg => node "Throw" [("arg", expr arg)] s
  | .guarded s block handler finalizer =>
    node "Try" ([("block", stmt block)] ++ optionalPart "handler" (catchClause handler)
      ++ optionalPart "finalizer" (optionalStmt finalizer)) s
  | .labeled s label body => node "Labeled" [("label", .string label), ("body", stmt body)] s
  | .block s body => node "Block" [("body", .array (stmts body))] s
  | .empty s => node "Empty" [] s

/-- Statements. -/
def stmts : List Stmt → List Json
  | [] => []
  | s :: ss => stmt s :: stmts ss

end

/-! ## Reading -/

/-- A natural number up to a bound. -/
def nat? (bound : Nat) : Json → Option Nat
  | .number (.integer i) => if 0 ≤ i ∧ i ≤ bound then some i.toNat else none
  | _ => none

/-- The greatest offset. -/
def greatestOffset : Nat := 0xFFFFFFFFFFFFFFFF

/-- The greatest number of a function literal. -/
def greatestId : Nat := 0xFFFFFFFF

/-- A text. -/
def string? : Json → Option String
  | .string s => some s
  | _ => none

/-- A flag. -/
def bool? : Json → Option Bool
  | .bool b => some b
  | _ => none

/-- A number. -/
def float? : Json → Option Float
  | .number (.integer i) => some (Number.ofInt i)
  | .number (.double x) => some x
  | _ => none

/-- A list, each item read the same way. -/
def list? (item? : Json → Option α) : Json → Option (List α)
  | .array items => items.mapM item?
  | _ => none

/-- Read a member that must be there. -/
def part? (j : Json) (name : String) (read? : Json → Option α) : Option α :=
  (j.member? name).bind read?

/-- Read a member that may be absent or `null`. -/
def maybe? (j : Json) (name : String) (read? : Json → Option α) : Option (Option α) :=
  match j.member? name with
  | none | some .null => some none
  | some v => (read? v).map some

/-- Read a member that may be absent. -/
def default? (j : Json) (name : String) (d : α) (read? : Json → Option α) : Option α :=
  match j.member? name with
  | none => some d
  | some v => read? v

/-- The parts of a node by name: the members of an object, or the items of a list in the order of
the names, the last ones possibly missing. -/
def parts? (names : List String) : Json → Option Json
  | .object members => some (.object members)
  | .array items =>
    if items.length ≤ names.length then some (.object (names.zip items)) else none
  | _ => none

/-- The kinds that a place admits, each with the names of its parts in order. -/
abbrev Kinds := List (String × List String)

/-- The kind of a name or, where those are admitted, of a number. -/
def Kinds.find? (kinds : Kinds) (numbers : Bool) : Json → Option (String × List String)
  | .string name => List.find? (·.1 == name) kinds
  | .number (.integer i) => if numbers && 0 ≤ i then kinds[i.toNat]? else none
  | _ => none

/-- The kind of a node, and its parts by name. -/
def Kinds.node? (kinds : Kinds) (numbers : Bool) (j : Json) : Option (String × Json) :=
  match j with
  | .object _ => do
    let (kind, _) ← kinds.find? numbers (← j.member? "t")
    return (kind, j)
  | .array (t :: rest) => do
    let (kind, names) ← kinds.find? numbers t
    return (kind, ← parts? names (.array rest))
  | _ => none

/-- The parts of a span. -/
def spanNames : List String :=
  ["start", "end", "start_line", "start_col", "end_line", "end_col"]

/-- A span. -/
def span? (j : Json) : Option Span := do
  let j ← parts? spanNames j
  let field (name : String) := part? j name (nat? greatestOffset)
  return ⟨⟨← field "start", ← field "start_line", ← field "start_col"⟩,
    ⟨← field "end", ← field "end_line", ← field "end_col"⟩⟩

/-- The span of a node, blank if absent. -/
def spanOf? (j : Json) : Option Span := default? j "span" {} span?

/-- A listed name, written as a text or as the only member of an object, which then holds
nothing. -/
def choice? (names : List (α × String)) : Json → Option α
  | .string s | .object [(s, .null)] | .object [(s, .object [])] => named? names s
  | _ => none

/-- The ways to assign. -/
inductive AssignKind where
  | plain | compound | logical

/-- Ways to assign with their names. -/
def AssignKind.names : List (AssignKind × String) :=
  [(.plain, "Assign"), (.compound, "Compound"), (.logical, "Logical")]

/-- The operator of a plain assignment: none. -/
def nothing? : Json → Option Unit
  | .null => some ()
  | _ => none

/-- The way to assign. A list always holds the operator. -/
def assignOp? (j : Json) : Option AssignOp := do
  let j ← match j with
    | .array [t, op] => some (.object [("t", t), ("op", op)])
    | .object _ => some j
    | _ => none
  match ← part? j "t" (choice? AssignKind.names) with
  | .plain =>
    let _ ← default? j "op" () nothing?
    return .plain
  | .compound => return .compound (← part? j "op" (choice? BinaryOp.names))
  | .logical => return .logical (← part? j "op" (choice? LogicalOp.names))

/-- The kinds of expression. -/
def exprKinds : Kinds :=
  [("LitNum", ["v", "span"]), ("LitStr", ["v", "span"]), ("LitBool", ["v", "span"]),
   ("LitNull", ["span"]), ("LitArray", ["elements", "span"]), ("LitObj", ["properties", "span"]),
   ("Ident", ["name", "span"]), ("This", ["span"]), ("Function", ["func", "span"]),
   ("Member", ["object", "property", "implicit", "span"]), ("Call", ["callee", "args", "span"]),
   ("New", ["callee", "args", "span"]), ("Unary", ["op", "arg", "span"]),
   ("Update", ["op", "prefix", "target", "span"]), ("Binary", ["op", "left", "right", "span"]),
   ("Logical", ["op", "left", "right", "span"]), ("Assign", ["op", "target", "value", "span"]),
   ("Conditional", ["test", "consequent", "alternate", "span"]), ("Sequence", ["exprs", "span"])]

/-- The kinds of member key. -/
def memberKinds : Kinds := [("Named", ["name"]), ("Computed", ["expr"])]

/-- The kinds of first part of a loop. -/
def initKinds : Kinds := [("Var", ["decls"]), ("Expr", ["expr"])]

/-- The kinds of target of a loop. -/
def targetKinds : Kinds := [("Var", ["name", "span"]), ("Expr", ["expr"])]

/-- The kinds of statement. -/
def stmtKinds : Kinds :=
  [("Expr", ["expr", "span"]), ("Var", ["decls", "span"]), ("Function", ["func", "span"]),
   ("Return", ["arg", "span"]), ("If", ["test", "then_s", "else_s", "span"]),
   ("While", ["test", "body", "span"]), ("DoWhile", ["body", "test", "span"]),
   ("For", ["init", "test", "update", "body", "span"]),
   ("ForIn", ["kind", "target", "iterable", "body", "span"]), ("Break", ["label", "span"]),
   ("Continue", ["label", "span"]), ("Throw", ["arg", "span"]),
   ("Try", ["block", "handler", "finalizer", "span"]), ("Labeled", ["label", "body", "span"]),
   ("Block", ["body", "span"]), ("Empty", ["span"])]

mutual

/-- An expression. -/
def expr? : Nat → Json → Option Expr
  | 0, _ => none
  | n + 1, j => do
    let (kind, j) ← exprKinds.node? true j
    let s ← spanOf? j
    match kind with
    | "LitNum" => return .number s (← part? j "v" float?)
    | "LitStr" => return .string s (← part? j "v" string?)
    | "LitBool" => return .bool s (← part? j "v" bool?)
    | "LitNull" => return .null s
    | "LitArray" => return .array s (← part? j "elements" (list? (expr? n)))
    | "LitObj" => return .object s (← part? j "properties" (list? (property? n)))
    | "Ident" => return .ident s (← part? j "name" string?)
    | "This" => return .this s
    | "Function" => return .function s (← part? j "func" (function? n))
    | "Member" =>
      return .member s (← part? j "object" (expr? n)) (← part? j "property" (memberKey? n))
        (← default? j "implicit" false bool?)
    | "Call" => return .call s (← part? j "callee" (expr? n)) (← part? j "args" (list? (expr? n)))
    | "New" =>
      return .construct s (← part? j "callee" (expr? n)) (← part? j "args" (list? (expr? n)))
    | "Unary" =>
      return .unary s (← part? j "op" (choice? UnaryOp.names)) (← part? j "arg" (expr? n))
    | "Update" =>
      return .update s (← part? j "op" (choice? UpdateOp.names)) (← part? j "prefix" bool?)
        (← part? j "target" (expr? n))
    | "Binary" =>
      return .binary s (← part? j "op" (choice? BinaryOp.names)) (← part? j "left" (expr? n))
        (← part? j "right" (expr? n))
    | "Logical" =>
      return .logical s (← part? j "op" (choice? LogicalOp.names)) (← part? j "left" (expr? n))
        (← part? j "right" (expr? n))
    | "Assign" =>
      return .assign s (← part? j "op" assignOp?) (← part? j "target" (expr? n))
        (← part? j "value" (expr? n))
    | "Conditional" =>
      return .conditional s (← part? j "test" (expr? n)) (← part? j "consequent" (expr? n))
        (← part? j "alternate" (expr? n))
    | "Sequence" => return .sequence s (← part? j "exprs" (list? (expr? n)))
    | _ => none

/-- What selects a member. -/
def memberKey? : Nat → Json → Option MemberKey
  | 0, _ => none
  | n + 1, j => do
    let (kind, j) ← memberKinds.node? true j
    match kind with
    | "Named" => return .named (← part? j "name" string?)
    | "Computed" => return .computed (← part? j "expr" (expr? n))
    | _ => none

/-- A property of a literal. -/
def property? : Nat → Json → Option PropertyDef
  | 0, _ => none
  | n + 1, j => do
    let j ← parts? ["key", "value", "span"] j
    return ⟨← part? j "key" string?, ← part? j "value" (expr? n), ← spanOf? j⟩

/-- A function literal. -/
def function? : Nat → Json → Option FunctionNode
  | 0, _ => none
  | n + 1, j => do
    let j ← parts? ["id", "name", "params", "body", "is_declaration", "span"] j
    return ⟨← part? j "id" (nat? greatestId), ← maybe? j "name" string?,
      ← part? j "params" (list? string?), ← part? j "body" (list? (stmt? true n)),
      ← default? j "is_declaration" false bool?, ← spanOf? j⟩

/-- A declared name. -/
def decl? : Nat → Json → Option VarDecl
  | 0, _ => none
  | n + 1, j => do
    let j ← parts? ["name", "init", "span"] j
    return ⟨← part? j "name" string?, ← maybe? j "init" (expr? n), ← spanOf? j⟩

/-- The first part of a loop. -/
def forInit? : Nat → Json → Option ForInit
  | 0, _ => none
  | n + 1, j => do
    let (kind, j) ← initKinds.node? true j
    match kind with
    | "Var" => return .declare (← part? j "decls" (list? (decl? n)))
    | "Expr" => return .expression (← part? j "expr" (expr? n))
    | _ => none

/-- The target of a loop. -/
def forTarget? : Nat → Json → Option ForTarget
  | 0, _ => none
  | n + 1, j => do
    let (kind, j) ← targetKinds.node? true j
    match kind with
    | "Var" => return .declare (← spanOf? j) (← part? j "name" string?)
    | "Expr" => return .expression (← part? j "expr" (expr? n))
    | _ => none

/-- A handler. -/
def catchClause? : Nat → Json → Option CatchClause
  | 0, _ => none
  | n + 1, j => do
    let j ← parts? ["param", "body"] j
    return ⟨← maybe? j "param" string?, ← part? j "body" (stmt? true n)⟩

/-- A statement, its kind possibly given by a number. -/
def stmt? (numbers : Bool) : Nat → Json → Option Stmt
  | 0, _ => none
  | n + 1, j => do
    let (kind, j) ← stmtKinds.node? numbers j
    let s ← spanOf? j
    match kind with
    | "Expr" => return .expression s (← part? j "expr" (expr? n))
    | "Var" => return .declare s (← part? j "decls" (list? (decl? n)))
    | "Function" => return .function s (← part? j "func" (function? n))
    | "Return" => return .ret s (← maybe? j "arg" (expr? n))
    | "If" =>
      return .cond s (← part? j "test" (expr? n)) (← part? j "then_s" (stmt? true n))
        (← maybe? j "else_s" (stmt? true n))
    | "While" => return .whileLoop s (← part? j "test" (expr? n)) (← part? j "body" (stmt? true n))
    | "DoWhile" => return .doLoop s (← part? j "body" (stmt? true n)) (← part? j "test" (expr? n))
    | "For" =>
      return .forLoop s (← maybe? j "init" (forInit? n)) (← maybe? j "test" (expr? n))
        (← maybe? j "update" (expr? n)) (← part? j "body" (stmt? true n))
    | "ForIn" =>
      return .forEach s (← part? j "kind" (choice? EachKind.names))
        (← part? j "target" (forTarget? n)) (← part? j "iterable" (expr? n))
        (← part? j "body" (stmt? true n))
    | "Break" => return .leave s (← maybe? j "label" string?)
    | "Continue" => return .next s (← maybe? j "label" string?)
    | "Throw" => return .raise s (← part? j "arg" (expr? n))
    | "Try" =>
      return .guarded s (← part? j "block" (stmt? true n)) (← maybe? j "handler" (catchClause? n))
        (← maybe? j "finalizer" (stmt? true n))
    | "Labeled" => return .labeled s (← part? j "label" string?) (← part? j "body" (stmt? true n))
    | "Block" => return .block s (← part? j "body" (list? (stmt? true n)))
    | "Empty" => return .empty s
    | _ => none

end

end Layout

mutual

/-- How deep a JSON tree nests. -/
def Json.depth : Json → Nat
  | .array items => Json.depthItems items + 1
  | .object members => Json.depthMembers members + 1
  | _ => 1

/-- The depth of the deepest item. -/
def Json.depthItems : List Json → Nat
  | [] => 0
  | j :: js => max j.depth (Json.depthItems js)

/-- The depth of the deepest member. -/
def Json.depthMembers : List (String × Json) → Nat
  | [] => 0
  | (_, j) :: ms => max j.depth (Json.depthMembers ms)

end

/-- A program as JSON. -/
def Program.toJson (p : Program) : Json :=
  .object ([("body", .array (Layout.stmts p.body))] ++ Layout.spanPart p.span
    ++ [("function_count", .ofNat p.functionCount)])

/-- Read a program from JSON. -/
def Program.ofJson? (j : Json) : Option Program := do
  let j ← Layout.parts? ["body", "span", "function_count"] j
  return ⟨← Layout.part? j "body" (Layout.list? (Layout.stmt? false j.depth)), ← Layout.spanOf? j,
    ← Layout.part? j "function_count" (Layout.nat? Layout.greatestId)⟩

end Fermata
