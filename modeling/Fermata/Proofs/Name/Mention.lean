import Fermata.Code.Resolve

/-!
# What code mentions and declares

The names of a tree, read off it without regard to how they are resolved. A body mentions names and
function literals, in source order; what stands inside a literal belongs to the literal. A function
declares its parameters, the variables and functions hoisted in its body, its own name if it is an
expression, and `arguments` if its body mentions it.

* `Mention.ofStmts`: what a body mentions itself, `Mention.literals`: the literals among it.
* `Free`: the names that mentions leave to the functions around.
* `FunctionNode.Declares`: the names of a function.
* `Program.Nested`: the functions around a place of a program.
-/

namespace Fermata

/-- A name or a function literal that code mentions. -/
inductive Mention where
  | name (x : String)
  | literal (fn : FunctionNode)

namespace Mention

mutual

/-- The mentions of an expression. -/
def ofExpr : Expr → List Mention
  | .ident _ x => [.name x]
  | .function _ fn => [.literal fn]
  | .array _ es | .sequence _ es => ofExprs es
  | .object _ ps => ofProperties ps
  | .member _ o k _ => ofExpr o ++ ofKey k
  | .call _ f args | .construct _ f args => ofExpr f ++ ofExprs args
  | .unary _ _ a | .update _ _ _ a => ofExpr a
  | .binary _ _ l r | .logical _ _ l r | .assign _ _ l r => ofExpr l ++ ofExpr r
  | .conditional _ t y n => ofExpr t ++ (ofExpr y ++ ofExpr n)
  | .number .. | .string .. | .bool .. | .null .. | .this .. => []

/-- The mentions of expressions. -/
def ofExprs : List Expr → List Mention
  | [] => []
  | e :: es => ofExpr e ++ ofExprs es

/-- The mentions of what selects a member. -/
def ofKey : MemberKey → List Mention
  | .named _ => []
  | .computed e => ofExpr e

/-- The mentions of properties. -/
def ofProperties : List PropertyDef → List Mention
  | [] => []
  | ⟨_, value, _⟩ :: ps => ofExpr value ++ ofProperties ps

end

/-- The mentions of an expression that may be absent. -/
def ofOptionalExpr : Option Expr → List Mention
  | none => []
  | some e => ofExpr e

/-- The mentions of declarations. In a function, one without a value (`bare`) does nothing. -/
def ofDecls (bare : Bool) : List VarDecl → List Mention
  | [] => []
  | ⟨x, none, _⟩ :: ds => (if bare then [.name x] else []) ++ ofDecls bare ds
  | ⟨x, some e, _⟩ :: ds =>
    (if bare then ofExpr e ++ [.name x] else .name x :: ofExpr e) ++ ofDecls bare ds

/-- The mentions of the first part of a loop. -/
def ofInit (bare : Bool) : Option ForInit → List Mention
  | none => []
  | some (.expression e) => ofExpr e
  | some (.declare ds) => ofDecls bare ds

/-- The mentions of the target of a loop. -/
def ofTarget : ForTarget → List Mention
  | .expression e => ofExpr e
  | .declare _ x => [.name x]

mutual

/-- The mentions of a statement. -/
def ofStmt (bare : Bool) : Stmt → List Mention
  | .expression _ e | .raise _ e => ofExpr e
  | .declare _ ds => ofDecls bare ds
  | .function _ fn => [.literal fn]
  | .ret _ e => ofOptionalExpr e
  | .cond _ test yes no => ofExpr test ++ (ofStmt bare yes ++ ofOptionalStmt bare no)
  | .whileLoop _ test body => ofExpr test ++ ofStmt bare body
  | .doLoop _ body test => ofStmt bare body ++ ofExpr test
  | .forLoop _ init test update body =>
    ofInit bare init ++ (ofOptionalExpr test ++ (ofOptionalExpr update ++ ofStmt bare body))
  | .forEach _ _ target source body => ofTarget target ++ (ofExpr source ++ ofStmt bare body)
  | .guarded _ block handler finalizer =>
    ofStmt bare block ++ (ofHandler bare handler ++ ofOptionalStmt bare finalizer)
  | .labeled _ _ body => ofStmt bare body
  | .block _ body => ofStmts bare body
  | .leave .. | .next .. | .empty .. => []

/-- The mentions of a statement that may be absent. -/
def ofOptionalStmt (bare : Bool) : Option Stmt → List Mention
  | none => []
  | some t => ofStmt bare t

/-- The mentions of a handler. -/
def ofHandler (bare : Bool) : Option CatchClause → List Mention
  | none => []
  | some ⟨_, body⟩ => ofStmt bare body

/-- The mentions of statements. -/
def ofStmts (bare : Bool) : List Stmt → List Mention
  | [] => []
  | t :: ts => ofStmt bare t ++ ofStmts bare ts

end

end Mention

namespace Mention

variable {ms ns : List Mention}

/-- The function literals among mentions, in order. -/
def literals : List Mention → List FunctionNode
  | [] => []
  | .name _ :: ms => literals ms
  | .literal g :: ms => g :: literals ms

/-- The literals that are declarations. -/
def declarations (ms : List Mention) : List FunctionNode := (literals ms).filter (·.isDeclaration)

/-- The literals that are expressions. -/
def expressions (ms : List Mention) : List FunctionNode := (literals ms).filter (!·.isDeclaration)

@[simp]
theorem literals_append : literals (ms ++ ns) = literals ms ++ literals ns := by
  induction ms with
  | nil => rfl
  | cons m ms ih => cases m <;> simp [literals, ih]

@[simp]
theorem mem_literals {g : FunctionNode} : g ∈ literals ms ↔ .literal g ∈ ms := by
  induction ms with
  | nil => simp [literals]
  | cons m ms ih => cases m <;> simp [literals, ih]

@[simp]
theorem declarations_append : declarations (ms ++ ns) = declarations ms ++ declarations ns := by
  simp [declarations]

@[simp]
theorem expressions_append : expressions (ms ++ ns) = expressions ms ++ expressions ns := by
  simp [expressions]

/-- A literal is a declaration or an expression. -/
theorem mem_declarations_or {g : FunctionNode} :
    g ∈ declarations ms ∨ g ∈ expressions ms ↔ .literal g ∈ ms := by
  cases h : g.isDeclaration <;> simp [declarations, expressions, h]

/-! ### Declarations without a value mention no literal -/

theorem literals_ofDecls (bare : Bool) (ds : List VarDecl) :
    literals (ofDecls bare ds) = literals (ofDecls false ds) := by
  induction ds with
  | nil => rfl
  | cons d ds ih =>
    obtain ⟨x, init, span⟩ := d
    cases init <;> cases bare <;> simp [ofDecls, literals, ih]

theorem literals_ofInit (bare : Bool) (init : Option ForInit) :
    literals (ofInit bare init) = literals (ofInit false init) :=
  match init with
  | none | some (.expression _) => rfl
  | some (.declare ds) => literals_ofDecls bare ds

mutual

theorem literals_ofStmt (bare : Bool) : (t : Stmt) →
    literals (ofStmt bare t) = literals (ofStmt false t)
  | .expression .. | .raise .. | .function .. | .ret .. | .leave .. | .next .. | .empty .. => by
    simp only [ofStmt]
  | .declare s ds => by
    simp only [ofStmt]
    exact literals_ofDecls bare ds
  | .cond s test yes no => by
    simp only [ofStmt, literals_append, literals_ofStmt bare yes, literals_ofOptionalStmt bare no]
  | .whileLoop s test body | .doLoop s body test | .forEach s _ _ test body => by
    simp only [ofStmt, literals_append, literals_ofStmt bare body]
  | .forLoop s init test update body => by
    simp only [ofStmt, literals_append, literals_ofInit bare init, literals_ofStmt bare body]
  | .guarded s block handler finalizer => by
    simp only [ofStmt, literals_append, literals_ofStmt bare block, literals_ofHandler bare handler,
      literals_ofOptionalStmt bare finalizer]
  | .labeled s label body => by
    simp only [ofStmt, literals_ofStmt bare body]
  | .block s body => by
    simp only [ofStmt, literals_ofStmts bare body]

theorem literals_ofOptionalStmt (bare : Bool) : (t : Option Stmt) →
    literals (ofOptionalStmt bare t) = literals (ofOptionalStmt false t)
  | none => by simp only [ofOptionalStmt]
  | some t => by simp only [ofOptionalStmt, literals_ofStmt bare t]

theorem literals_ofHandler (bare : Bool) : (h : Option CatchClause) →
    literals (ofHandler bare h) = literals (ofHandler false h)
  | none => by simp only [ofHandler]
  | some ⟨_, body⟩ => by simp only [ofHandler, literals_ofStmt bare body]

/-- The literals of a body do not depend on whether it is a function's. -/
theorem literals_ofStmts (bare : Bool) : (ts : List Stmt) →
    literals (ofStmts bare ts) = literals (ofStmts false ts)
  | [] => by simp only [ofStmts]
  | t :: ts => by
    simp only [ofStmts, literals_append, literals_ofStmt bare t, literals_ofStmts bare ts]

end

end Mention

/-- What the body of a function mentions. -/
def FunctionNode.mentions (fn : FunctionNode) : List Mention := Mention.ofStmts false fn.body

/-- What the top level of a program mentions. -/
def Program.mentions (p : Program) : List Mention := Mention.ofStmts true p.body

/-! ## Declarations -/

/-- The statements directly inside a statement. -/
def Stmt.inner : Stmt → List Stmt
  | .cond _ _ yes no => yes :: no.toList
  | .whileLoop _ _ body | .doLoop _ body _ | .forLoop _ _ _ _ body | .forEach _ _ _ _ body
  | .labeled _ _ body => [body]
  | .guarded _ body handler finalizer =>
    body :: ((handler.map CatchClause.body).toList ++ finalizer.toList)
  | .block _ body => body
  | _ => []

/-- The names that a statement declares, those inside it aside. -/
def Stmt.declared : Stmt → List String
  | .declare _ ds | .forLoop _ (some (.declare ds)) _ _ _ => ds.map VarDecl.name
  | .function _ fn => fn.name.toList
  | .forEach _ _ (.declare _ x) _ _ => [x]
  | _ => []

/-- The name is declared at or inside the statement, for the function around it. -/
inductive Stmt.Hoists : Stmt → String → Prop
  | own {t x} : x ∈ t.declared → Hoists t x
  | inner {t t' x} : t' ∈ t.inner → Hoists t' x → Hoists t x

theorem Stmt.hoists_iff {t : Stmt} {x : String} :
    t.Hoists x ↔ x ∈ t.declared ∨ ∃ t' ∈ t.inner, t'.Hoists x := by
  refine ⟨fun h => ?_, ?_⟩
  · cases h with
    | own hx => exact .inl hx
    | inner ht' h => exact .inr ⟨_, ht', h⟩
  · rintro (hx | ⟨t', ht', h⟩)
    · exact .own hx
    · exact .inner ht' h

/-- The function declares the name. -/
def FunctionNode.Declares (fn : FunctionNode) (x : String) : Prop :=
  x ∈ fn.params ∨ (∃ t ∈ fn.body, t.Hoists x) ∨ (fn.isDeclaration = false ∧ fn.name = some x) ∨
    (x = argumentsName ∧ .name x ∈ fn.mentions)

/-- The names that mentions leave to the functions around. -/
inductive Free : List Mention → String → Prop
  | name {ms x} : .name x ∈ ms → Free ms x
  | inner {ms g x} : .literal g ∈ ms → Free g.mentions x → ¬g.Declares x → Free ms x

/-! ## Places of a program -/

namespace Program

variable (p : Program)

/-- What is mentioned directly inside these functions, the innermost first. -/
def mentionsIn : List FunctionNode → List Mention
  | [] => p.mentions
  | g :: _ => g.mentions

/-- The functions are nested in each other in the program, the innermost first. -/
inductive Nested : List FunctionNode → Prop
  | top : Nested []
  | inside {path g} : Nested path → .literal g ∈ p.mentionsIn path → Nested (g :: path)

end Program

/-- The number of the record of a place. -/
def recordIn : List FunctionNode → Nat
  | [] => 0
  | g :: _ => g.id

end Fermata
