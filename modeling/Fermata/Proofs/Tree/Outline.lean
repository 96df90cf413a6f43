import Fermata.Syntax.Tree

/-!
# Outlines of trees

The outline of a tree is what it says about places: the span of each node, and below it those of its
parts in the order in which they are written. Parts without a span of their own (a member key, a handler,
the first part of a loop) contribute theirs to the node above. A function literal is marked with its
number and a number literal with its value.

* `Outline.Each`: something holds of every node.
* `Outline.Nested`: parts lie inside of what they are parts of.
* `Outline.Ordered`: parts are in order and do not overlap.
* `Outline.nestedIn_iff`, `Outline.Below.part`: lists of outlines, one by one.
-/

namespace Fermata

/-- What an outline says of a node besides its span. -/
inductive Mark where
  | plain
  | function (id : Nat)
  | number (value : Float)

/-- The places of a tree. -/
inductive Outline where
  | node (span : Span) (mark : Mark) (parts : List Outline)

namespace Outline

/-- The span of the root. -/
def span : Outline → Span
  | node s _ _ => s

mutual

/-- Something holds of every node. -/
def Each (P : Span → Mark → Prop) : Outline → Prop
  | node s m parts => P s m ∧ EachOf P parts

/-- Something holds of every node of a list of outlines. -/
def EachOf (P : Span → Mark → Prop) : List Outline → Prop
  | [] => True
  | o :: os => Each P o ∧ EachOf P os

end

variable {P Q : Span → Mark → Prop}

@[simp]
theorem each_node {s : Span} {m : Mark} {parts : List Outline} :
    (node s m parts).Each P ↔ P s m ∧ EachOf P parts := Iff.rfl

@[simp]
theorem eachOf_nil : EachOf P [] ↔ True := Iff.rfl

@[simp]
theorem eachOf_cons {o : Outline} {os : List Outline} :
    EachOf P (o :: os) ↔ o.Each P ∧ EachOf P os := Iff.rfl

@[simp]
theorem eachOf_append {os qs : List Outline} :
    EachOf P (os ++ qs) ↔ EachOf P os ∧ EachOf P qs := by
  induction os with
  | nil => simp
  | cons o os ih => simp [ih, and_assoc]

mutual

theorem Each.mono (hPQ : ∀ s m, P s m → Q s m) {o : Outline} (h : o.Each P) : o.Each Q := by
  match o with
  | node s m parts =>
    rw [each_node] at h ⊢
    exact ⟨hPQ s m h.1, EachOf.mono hPQ h.2⟩

theorem EachOf.mono (hPQ : ∀ s m, P s m → Q s m) {os : List Outline} (h : EachOf P os) :
    EachOf Q os := by
  match os with
  | [] => exact eachOf_nil.mpr trivial
  | o :: os =>
    rw [eachOf_cons] at h ⊢
    exact ⟨Each.mono hPQ h.1, EachOf.mono hPQ h.2⟩

end

/-! ## Parts and siblings -/

end Outline

/-- One stretch lies inside of another. -/
structure Span.Inside (s t : Span) : Prop where
  start : t.start.offset ≤ s.start.offset
  stop : s.stop.offset ≤ t.stop.offset

namespace Outline

mutual

/-- Parts lie inside of what they are parts of. -/
def Nested : Outline → Prop
  | node s _ parts => NestedIn s parts

/-- All of them lie inside of the span, and their parts inside of them. -/
def NestedIn (s : Span) : List Outline → Prop
  | [] => True
  | o :: os => o.span.Inside s ∧ o.Nested ∧ NestedIn s os

end

mutual

/-- Parts are in order and do not overlap. -/
def Ordered : Outline → Prop
  | node s _ parts => OrderedIn s.start.offset parts s.stop.offset

/-- Between two offsets, each of them stops before the next one starts, and so do their parts. -/
def OrderedIn : Nat → List Outline → Nat → Prop
  | a, [], b => a ≤ b
  | a, o :: os, b => a ≤ o.span.start.offset ∧ o.Ordered ∧ OrderedIn o.span.stop.offset os b

end

@[simp]
theorem span_node {s : Span} {m : Mark} {parts : List Outline} : (node s m parts).span = s := rfl

@[simp]
theorem nested_node {s : Span} {m : Mark} {parts : List Outline} :
    (node s m parts).Nested ↔ NestedIn s parts := Iff.rfl

@[simp]
theorem nestedIn_nil {s : Span} : NestedIn s [] ↔ True := Iff.rfl

@[simp]
theorem nestedIn_cons {s : Span} {o : Outline} {os : List Outline} :
    NestedIn s (o :: os) ↔ o.span.Inside s ∧ o.Nested ∧ NestedIn s os := Iff.rfl

@[simp]
theorem nestedIn_append {s : Span} {os qs : List Outline} :
    NestedIn s (os ++ qs) ↔ NestedIn s os ∧ NestedIn s qs := by
  induction os with
  | nil => simp
  | cons o os ih => simp [ih, and_assoc]

@[simp]
theorem ordered_node {s : Span} {m : Mark} {parts : List Outline} :
    (node s m parts).Ordered ↔ OrderedIn s.start.offset parts s.stop.offset := Iff.rfl

@[simp]
theorem orderedIn_nil {a b : Nat} : OrderedIn a [] b ↔ a ≤ b := Iff.rfl

@[simp]
theorem orderedIn_cons {a b : Nat} {o : Outline} {os : List Outline} :
    OrderedIn a (o :: os) b ↔
      a ≤ o.span.start.offset ∧ o.Ordered ∧ OrderedIn o.span.stop.offset os b := by
  rw [OrderedIn]

theorem OrderedIn.append {a b b' d : Nat} {os qs : List Outline} (h : OrderedIn a os b)
    (hb : b ≤ b') (h' : OrderedIn b' qs d) : OrderedIn a (os ++ qs) d := by
  induction os generalizing a with
  | nil =>
    rw [orderedIn_nil] at h
    have hle := Nat.le_trans h hb
    cases qs with
    | nil => exact orderedIn_nil.mpr (Nat.le_trans hle (orderedIn_nil.mp h'))
    | cons o os =>
      rw [orderedIn_cons] at h'
      exact orderedIn_cons.mpr ⟨Nat.le_trans hle h'.1, h'.2⟩
  | cons o os ih =>
    rw [orderedIn_cons] at h
    exact orderedIn_cons.mpr ⟨h.1, h.2.1, ih h.2.2⟩

theorem OrderedIn.mono {a a' b b' : Nat} {os : List Outline} (h : OrderedIn a os b) (ha : a' ≤ a)
    (hb : b ≤ b') : OrderedIn a' os b' := by
  have hleft : OrderedIn a' ([] ++ os) b :=
    OrderedIn.append (orderedIn_nil.mpr ha) (Nat.le_refl a) h
  have hboth := hleft.append (Nat.le_refl b) (orderedIn_nil.mpr hb)
  simpa using hboth

/-- The span starts before it stops. -/
def Forward (s : Span) (_ : Mark) : Prop := s.start.offset ≤ s.stop.offset

theorem OrderedIn.le {os : List Outline} (hos : EachOf Forward os) {a b : Nat}
    (h : OrderedIn a os b) : a ≤ b := by
  induction os generalizing a with
  | nil => exact orderedIn_nil.mp h
  | cons o os ih =>
    obtain ⟨s, m, parts⟩ := o
    rw [orderedIn_cons] at h
    rw [eachOf_cons, each_node] at hos
    exact Nat.le_trans h.1 (Nat.le_trans hos.1.1 (ih hos.2 h.2.2))

mutual

/-- What is in order is nested. -/
theorem Ordered.nested {o : Outline} (ho : o.Each Forward) (h : o.Ordered) : o.Nested := by
  match o with
  | node s m parts =>
    rw [each_node] at ho
    exact nested_node.mpr (OrderedIn.nestedIn ho.2 (ordered_node.mp h) (Nat.le_refl _) (Nat.le_refl _))

theorem OrderedIn.nestedIn {os : List Outline} (hos : EachOf Forward os) {a b : Nat} {s : Span}
    (h : OrderedIn a os b) (ha : s.start.offset ≤ a) (hb : b ≤ s.stop.offset) : NestedIn s os := by
  match os with
  | [] => exact nestedIn_nil.mpr trivial
  | o :: os =>
    rw [orderedIn_cons] at h
    rw [eachOf_cons] at hos
    have hforward : o.span.start.offset ≤ o.span.stop.offset := by
      obtain ⟨s, m, parts⟩ := o
      exact (each_node.mp hos.1).1
    have hle := OrderedIn.le hos.2 h.2.2
    refine nestedIn_cons.mpr ⟨⟨by omega, by omega⟩, h.2.1.nested hos.1, ?_⟩
    exact h.2.2.nestedIn hos.2 (by omega) hb

end

end Outline

mutual

/-- The outline of an expression. -/
def Expr.outline : Expr → Outline
  | .number s v => .node s (.number v) []
  | .string s _ | .bool s _ | .null s | .ident s _ | .this s => .node s .plain []
  | .array s es | .sequence s es => .node s .plain (Expr.outlines es)
  | .object s ps => .node s .plain (PropertyDef.outlines ps)
  | .function s fn => .node s .plain [fn.outline]
  | .member s o k _ => .node s .plain (o.outline :: k.outlines)
  | .call s f args | .construct s f args => .node s .plain (f.outline :: Expr.outlines args)
  | .unary s _ a | .update s _ _ a => .node s .plain [a.outline]
  | .binary s _ l r | .logical s _ l r | .assign s _ l r => .node s .plain [l.outline, r.outline]
  | .conditional s t y n => .node s .plain [t.outline, y.outline, n.outline]

/-- The outlines of expressions. -/
def Expr.outlines : List Expr → List Outline
  | [] => []
  | e :: es => e.outline :: Expr.outlines es

/-- The outline of an expression, if there is one. -/
def Expr.outlines? : Option Expr → List Outline
  | none => []
  | some e => [e.outline]

/-- The outlines in a member key. -/
def MemberKey.outlines : MemberKey → List Outline
  | .named _ => []
  | .computed e => [e.outline]

/-- The outlines of properties. -/
def PropertyDef.outlines : List PropertyDef → List Outline
  | [] => []
  | ⟨_, value, span⟩ :: ps => .node span .plain [value.outline] :: PropertyDef.outlines ps

/-- The outline of a function literal. -/
def FunctionNode.outline : FunctionNode → Outline
  | ⟨id, _, _, body, _, span⟩ => .node span (.function id) (Stmt.outlines body)

/-- The outlines of declared names. -/
def VarDecl.outlines : List VarDecl → List Outline
  | [] => []
  | ⟨_, init, span⟩ :: ds => .node span .plain (Expr.outlines? init) :: VarDecl.outlines ds

/-- The outlines in the first part of a loop. -/
def ForInit.outlines? : Option ForInit → List Outline
  | none => []
  | some (.declare ds) => VarDecl.outlines ds
  | some (.expression e) => [e.outline]

/-- The outline of the target of a loop. -/
def ForTarget.outline : ForTarget → Outline
  | .declare span _ => .node span .plain []
  | .expression e => e.outline

/-- The outlines in a handler. -/
def CatchClause.outlines? : Option CatchClause → List Outline
  | none => []
  | some ⟨_, body⟩ => [body.outline]

/-- The outline of a statement, if there is one. -/
def Stmt.outlines? : Option Stmt → List Outline
  | none => []
  | some t => [t.outline]

/-- The outline of a statement. -/
def Stmt.outline : Stmt → Outline
  | .expression s e | .raise s e => .node s .plain [e.outline]
  | .declare s ds => .node s .plain (VarDecl.outlines ds)
  | .function s fn => .node s .plain [fn.outline]
  | .ret s arg => .node s .plain (Expr.outlines? arg)
  | .cond s test yes no => .node s .plain (test.outline :: yes.outline :: Stmt.outlines? no)
  | .whileLoop s test body => .node s .plain [test.outline, body.outline]
  | .doLoop s body test => .node s .plain [body.outline, test.outline]
  | .forLoop s init test update body =>
    .node s .plain (ForInit.outlines? init ++ Expr.outlines? test ++ Expr.outlines? update
      ++ [body.outline])
  | .forEach s _ target source body => .node s .plain [target.outline, source.outline, body.outline]
  | .leave s _ | .next s _ | .empty s => .node s .plain []
  | .guarded s block handler finalizer =>
    .node s .plain (block.outline :: (CatchClause.outlines? handler ++ Stmt.outlines? finalizer))
  | .labeled s _ body => .node s .plain [body.outline]
  | .block s body => .node s .plain (Stmt.outlines body)

/-- The outlines of statements. -/
def Stmt.outlines : List Stmt → List Outline
  | [] => []
  | t :: ts => t.outline :: Stmt.outlines ts

end

/-- The outline of a program. -/
def Program.outline (p : Program) : Outline := .node p.span .plain (Stmt.outlines p.body)

/-! ## Lists of outlines -/

namespace Outline

/-- The outline lies inside of the span, and so do parts inside of what they are parts of. -/
def Below (s : Span) (o : Outline) : Prop := o.span.Inside s ∧ o.Nested

theorem nestedIn_iff {s : Span} {os : List Outline} : NestedIn s os ↔ ∀ o ∈ os, o.Below s := by
  induction os with
  | nil => simp
  | cons o os ih => rw [nestedIn_cons, List.forall_mem_cons, ih, Below, and_assoc]

theorem Below.mono {s t : Span} {o : Outline} (h : o.Below s) (hst : s.Inside t) : o.Below t :=
  ⟨⟨Nat.le_trans hst.start h.1.start, Nat.le_trans h.1.stop hst.stop⟩, h.2⟩

/-- The parts of a node lie inside of it. -/
theorem Below.part {s t : Span} {m : Mark} {os : List Outline} {o : Outline}
    (h : (node s m os).Below t) (ho : o ∈ os) : o.Below s :=
  nestedIn_iff.mp (nested_node.mp h.2) o ho

end Outline

theorem Expr.outlines_eq_map (es : List Expr) : Expr.outlines es = es.map Expr.outline := by
  induction es with
  | nil => rfl
  | cons e es ih => rw [Expr.outlines, ih, List.map_cons]

theorem PropertyDef.outlines_eq_map (ps : List PropertyDef) :
    PropertyDef.outlines ps = ps.map fun p => .node p.span .plain [p.value.outline] := by
  induction ps with
  | nil => rfl
  | cons p ps ih =>
    obtain ⟨key, value, span⟩ := p
    rw [PropertyDef.outlines, ih, List.map_cons]

theorem VarDecl.outlines_eq_map (ds : List VarDecl) :
    VarDecl.outlines ds = ds.map fun d => .node d.span .plain (Expr.outlines? d.init) := by
  induction ds with
  | nil => rfl
  | cons d ds ih =>
    obtain ⟨name, init, span⟩ := d
    rw [VarDecl.outlines, ih, List.map_cons]

theorem Stmt.outlines_eq_map (ts : List Stmt) : Stmt.outlines ts = ts.map Stmt.outline := by
  induction ts with
  | nil => rfl
  | cons t ts ih => rw [Stmt.outlines, ih, List.map_cons]

theorem Expr.outline_span (e : Expr) : e.outline.span = e.span := by
  cases e <;> rfl

theorem Stmt.outline_span (t : Stmt) : t.outline.span = t.span := by
  cases t <;> rfl

end Fermata
