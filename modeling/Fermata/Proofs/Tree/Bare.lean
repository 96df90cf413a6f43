import Fermata.Syntax.Tree

/-!
# Trees without places

Two texts that differ around a part of them give trees for that part which differ in their places only,
and in the numbers of function literals: these go on from what was read before. The bare tree has all
spans blank and every literal numbered later by `δ`.

* `Expr.bare_isAssignable`: what can be assigned stays so.
* `Expr.bares_eq_map`, `Stmt.bares_eq_map`, …: lists are bared one by one.
-/

namespace Fermata

mutual

/-- An expression without places, its literals numbered later. -/
def Expr.bare (δ : Nat) : Expr → Expr
  | .number _ v => .number {} v
  | .string _ s => .string {} s
  | .bool _ b => .bool {} b
  | .null _ => .null {}
  | .array _ es => .array {} (Expr.bares δ es)
  | .object _ ps => .object {} (PropertyDef.bares δ ps)
  | .ident _ x => .ident {} x
  | .this _ => .this {}
  | .function _ fn => .function {} (fn.bare δ)
  | .member _ o key implicit => .member {} (o.bare δ) (key.bare δ) implicit
  | .call _ f args => .call {} (f.bare δ) (Expr.bares δ args)
  | .construct _ f args => .construct {} (f.bare δ) (Expr.bares δ args)
  | .unary _ op a => .unary {} op (a.bare δ)
  | .update _ op before a => .update {} op before (a.bare δ)
  | .binary _ op l r => .binary {} op (l.bare δ) (r.bare δ)
  | .logical _ op l r => .logical {} op (l.bare δ) (r.bare δ)
  | .assign _ op l r => .assign {} op (l.bare δ) (r.bare δ)
  | .conditional _ t y n => .conditional {} (t.bare δ) (y.bare δ) (n.bare δ)
  | .sequence _ es => .sequence {} (Expr.bares δ es)

/-- Expressions without places. -/
def Expr.bares (δ : Nat) : List Expr → List Expr
  | [] => []
  | e :: es => e.bare δ :: Expr.bares δ es

/-- An expression without places, if there is one. -/
def Expr.bare? (δ : Nat) : Option Expr → Option Expr
  | none => none
  | some e => some (e.bare δ)

/-- A member key without places. -/
def MemberKey.bare (δ : Nat) : MemberKey → MemberKey
  | .named name => .named name
  | .computed e => .computed (e.bare δ)

/-- A property without places. -/
def PropertyDef.bare (δ : Nat) : PropertyDef → PropertyDef
  | ⟨key, value, _⟩ => ⟨key, value.bare δ, {}⟩

/-- Properties without places. -/
def PropertyDef.bares (δ : Nat) : List PropertyDef → List PropertyDef
  | [] => []
  | p :: ps => p.bare δ :: PropertyDef.bares δ ps

/-- A function literal without places. -/
def FunctionNode.bare (δ : Nat) : FunctionNode → FunctionNode
  | ⟨id, name, params, body, isDeclaration, _⟩ =>
    ⟨id + δ, name, params, Stmt.bares δ body, isDeclaration, {}⟩

/-- A declared name without places. -/
def VarDecl.bare (δ : Nat) : VarDecl → VarDecl
  | ⟨name, init, _⟩ => ⟨name, Expr.bare? δ init, {}⟩

/-- Declared names without places. -/
def VarDecl.bares (δ : Nat) : List VarDecl → List VarDecl
  | [] => []
  | d :: ds => d.bare δ :: VarDecl.bares δ ds

/-- The first part of a loop without places. -/
def ForInit.bare (δ : Nat) : ForInit → ForInit
  | .declare ds => .declare (VarDecl.bares δ ds)
  | .expression e => .expression (e.bare δ)

/-- The first part of a loop without places, if there is one. -/
def ForInit.bare? (δ : Nat) : Option ForInit → Option ForInit
  | none => none
  | some i => some (i.bare δ)

/-- The target of a loop without places. -/
def ForTarget.bare (δ : Nat) : ForTarget → ForTarget
  | .declare _ name => .declare {} name
  | .expression e => .expression (e.bare δ)

/-- A handler without places. -/
def CatchClause.bare (δ : Nat) : CatchClause → CatchClause
  | ⟨param, body⟩ => ⟨param, body.bare δ⟩

/-- A handler without places, if there is one. -/
def CatchClause.bare? (δ : Nat) : Option CatchClause → Option CatchClause
  | none => none
  | some h => some (h.bare δ)

/-- A statement without places, its literals numbered later. -/
def Stmt.bare (δ : Nat) : Stmt → Stmt
  | .expression _ e => .expression {} (e.bare δ)
  | .declare _ ds => .declare {} (VarDecl.bares δ ds)
  | .function _ fn => .function {} (fn.bare δ)
  | .ret _ arg => .ret {} (Expr.bare? δ arg)
  | .cond _ test yes no => .cond {} (test.bare δ) (yes.bare δ) (Stmt.bare? δ no)
  | .whileLoop _ test body => .whileLoop {} (test.bare δ) (body.bare δ)
  | .doLoop _ body test => .doLoop {} (body.bare δ) (test.bare δ)
  | .forLoop _ init test update body =>
    .forLoop {} (ForInit.bare? δ init) (Expr.bare? δ test) (Expr.bare? δ update) (body.bare δ)
  | .forEach _ kind target source body =>
    .forEach {} kind (target.bare δ) (source.bare δ) (body.bare δ)
  | .leave _ label => .leave {} label
  | .next _ label => .next {} label
  | .raise _ arg => .raise {} (arg.bare δ)
  | .guarded _ block handler finalizer =>
    .guarded {} (block.bare δ) (CatchClause.bare? δ handler) (Stmt.bare? δ finalizer)
  | .labeled _ label body => .labeled {} label (body.bare δ)
  | .block _ body => .block {} (Stmt.bares δ body)
  | .empty _ => .empty {}

/-- Statements without places. -/
def Stmt.bares (δ : Nat) : List Stmt → List Stmt
  | [] => []
  | t :: ts => t.bare δ :: Stmt.bares δ ts

/-- A statement without places, if there is one. -/
def Stmt.bare? (δ : Nat) : Option Stmt → Option Stmt
  | none => none
  | some t => some (t.bare δ)

end

attribute [simp] Expr.bare Expr.bares Expr.bare? MemberKey.bare PropertyDef.bare PropertyDef.bares
  FunctionNode.bare VarDecl.bare VarDecl.bares ForInit.bare ForInit.bare? ForTarget.bare CatchClause.bare
  CatchClause.bare? Stmt.bare Stmt.bares Stmt.bare?

variable {δ : Nat}

theorem Expr.bares_eq_map (es : List Expr) : Expr.bares δ es = es.map (Expr.bare δ) := by
  induction es with
  | nil => rw [Expr.bares, List.map_nil]
  | cons e es ih => rw [Expr.bares, List.map_cons, ih]

theorem PropertyDef.bares_eq_map (ps : List PropertyDef) :
    PropertyDef.bares δ ps = ps.map (PropertyDef.bare δ) := by
  induction ps with
  | nil => rw [PropertyDef.bares, List.map_nil]
  | cons p ps ih => rw [PropertyDef.bares, List.map_cons, ih]

theorem VarDecl.bares_eq_map (ds : List VarDecl) :
    VarDecl.bares δ ds = ds.map (VarDecl.bare δ) := by
  induction ds with
  | nil => rw [VarDecl.bares, List.map_nil]
  | cons d ds ih => rw [VarDecl.bares, List.map_cons, ih]

theorem Stmt.bares_eq_map (ts : List Stmt) : Stmt.bares δ ts = ts.map (Stmt.bare δ) := by
  induction ts with
  | nil => rw [Stmt.bares, List.map_nil]
  | cons t ts ih => rw [Stmt.bares, List.map_cons, ih]

theorem Expr.bare?_eq_map (e : Option Expr) : Expr.bare? δ e = e.map (Expr.bare δ) := by
  cases e <;> rw [Expr.bare?] <;> rfl

theorem ForInit.bare?_eq_map (i : Option ForInit) : ForInit.bare? δ i = i.map (ForInit.bare δ) := by
  cases i <;> rw [ForInit.bare?] <;> rfl

theorem CatchClause.bare?_eq_map (h : Option CatchClause) :
    CatchClause.bare? δ h = h.map (CatchClause.bare δ) := by
  cases h <;> rw [CatchClause.bare?] <;> rfl

theorem Stmt.bare?_eq_map (t : Option Stmt) : Stmt.bare? δ t = t.map (Stmt.bare δ) := by
  cases t <;> rw [Stmt.bare?] <;> rfl

/-- Places do not decide what can be assigned. -/
theorem Expr.bare_isAssignable (e : Expr) : (e.bare δ).isAssignable = e.isAssignable := by
  cases e <;> rw [Expr.bare] <;> rfl

end Fermata
