import Fermata.Proofs.Act.Ends

/-!
# Code in its place

A machine takes the body of an activation apart: pieces of it stand in the control and in the
continuations. `Parts` says which pieces belong to a body, and where: a statement stands under its
owners, the loops and labels around it that can stop a jump. The continuations of an activation carry
the same owners (`owners`), so a piece of code is in its place if the owners around it in the body are
those below it among the continuations.

* `Parts`: what belongs to a body. It is closed under taking apart.
* `Cont.In`, `Control.In`, `Abrupt` jumps: pieces of a running activation in their places.
* `Atlas`: the bodies of all units and function literals, fitting together.
-/

namespace Fermata

/-! ## Owners of jumps -/

/-- A construct that can stop a jump. -/
inductive Owner where
  /-- A loop with the labels attached to it. -/
  | loop (labels : List String)
  | label (name : String)
deriving DecidableEq, Repr

/-- The construct stops the transfer. -/
def Owner.stops : Owner → Abrupt → Bool
  | .loop _, .leave none | .loop _, .next none => true
  | .loop labels, .leave (some l) | .loop labels, .next (some l) => labels.contains l
  | .label name, .leave (some l) => l = name
  | _, _ => false

/-- The owners among continuations, innermost first. -/
def owners : List Cont → List Owner
  | [] => []
  | .loopBody l :: ks => .loop l.labels :: owners ks
  | .labeled name :: ks => .label name :: owners ks
  | _ :: ks => owners ks

@[simp]
theorem owners_append (ks ls : List Cont) : owners (ks ++ ls) = owners ks ++ owners ls := by
  fun_induction owners ks with
  | case1 => rfl
  | case2 l ks ih => simp only [List.cons_append, owners, ih]
  | case3 name ks ih => simp only [List.cons_append, owners, ih]
  | case4 k ks hloop hlabel ih =>
    rw [List.cons_append, owners, ih]
    · exact hloop
    · exact hlabel

/-! ## Taking code apart -/

/-- The expressions of a key. -/
def MemberKey.exprs : MemberKey → List Expr
  | .named _ => []
  | .computed e => [e]

/-- The expressions directly inside an expression. -/
def Expr.parts : Expr → List Expr
  | .array _ es | .sequence _ es => es
  | .object _ ps => ps.map PropertyDef.value
  | .member _ o k _ => o :: k.exprs
  | .call _ f args | .construct _ f args => f :: args
  | .unary _ _ a => [a]
  | .update _ _ _ t => [t]
  | .binary _ _ l r | .logical _ _ l r | .assign _ _ l r => [l, r]
  | .conditional _ t y n => [t, y, n]
  | _ => []

/-- The expressions of declarations. -/
def VarDecl.inits (ds : List VarDecl) : List Expr := ds.filterMap VarDecl.init

/-- The expressions of the first part of a loop. -/
def ForInit.exprs : ForInit → List Expr
  | .declare ds => VarDecl.inits ds
  | .expression e => [e]

/-- The names that the first part of a loop writes. -/
def ForInit.names : ForInit → List String
  | .declare ds => ds.map VarDecl.name
  | .expression _ => []

/-- The expressions of a target. -/
def ForTarget.exprs : ForTarget → List Expr
  | .declare _ _ => []
  | .expression e => [e]

/-- The names that a target writes. -/
def ForTarget.names : ForTarget → List String
  | .declare _ name => [name]
  | .expression _ => []

/-- The expressions directly inside a statement. -/
def Stmt.exprs : Stmt → List Expr
  | .expression _ e | .raise _ e => [e]
  | .declare _ ds => VarDecl.inits ds
  | .ret _ e => e.toList
  | .cond _ test _ _ | .whileLoop _ test _ | .doLoop _ _ test => [test]
  | .forLoop _ init test update _ => (init.map ForInit.exprs).getD [] ++ test.toList ++ update.toList
  | .forEach _ _ target source _ => target.exprs ++ [source]
  | _ => []

/-- The names that a statement itself writes. -/
def Stmt.names : Stmt → List String
  | .declare _ ds => ds.map VarDecl.name
  | .forLoop _ init _ _ _ => (init.map ForInit.names).getD []
  | .forEach _ _ target _ _ => target.names
  | _ => []

/-- A statement with its owners and the labels attached to it. -/
structure Spot where
  owners : List Owner
  labels : List String
  stmt : Stmt

/-- The statements directly inside a statement that stands at a spot. -/
def Spot.inside : Spot → List Spot
  | ⟨os, _, .cond _ _ yes no⟩ => ⟨os, [], yes⟩ :: no.toList.map (⟨os, [], ·⟩)
  | ⟨os, ls, .whileLoop _ _ body⟩ | ⟨os, ls, .doLoop _ body _⟩ | ⟨os, ls, .forLoop _ _ _ _ body⟩
  | ⟨os, ls, .forEach _ _ _ _ body⟩ => [⟨.loop ls :: os, [], body⟩]
  | ⟨os, ls, .labeled _ l body⟩ =>
    [⟨.label l :: os, if Act.passesLabels body then ls ++ [l] else [], body⟩]
  | ⟨os, _, .block _ body⟩ => body.map (⟨os, [], ·⟩)
  | _ => []

/-- The statement is a jump of this kind. -/
def Stmt.Jumps : Stmt → Abrupt → Prop
  | .leave _ label, x => x = .leave label
  | .next _ label, x => x = .next label
  | .ret _ _, x => ∃ v, x = .ret v
  | _, _ => False

/-- What belongs to a body. -/
structure Parts where
  name : String → Prop
  expr : Expr → Prop
  stmt : Spot → Prop
  /-- A transfer that can occur under these owners. -/
  jump : List Owner → Abrupt → Prop
  expr_parts {e} : expr e → ∀ e' ∈ e.parts, expr e'
  expr_ident {span x} : expr (.ident span x) → name x
  stmt_exprs {t} : stmt t → ∀ e ∈ t.stmt.exprs, expr e
  stmt_names {t} : stmt t → ∀ x ∈ t.stmt.names, name x
  stmt_inside {t} : stmt t → ∀ t' ∈ t.inside, stmt t'
  stmt_jumps {t} : stmt t → ∀ x, t.stmt.Jumps x → jump t.owners x
  failure {os x} : x.IsFailure → jump os x
  /-- A transfer that an owner does not stop goes on to the next one. -/
  pass {o os x} : jump (o :: os) x → o.stops x = false → jump os x

/-! ## Code in a running activation -/

variable (P : Parts) (os : List Owner)

/-- The reference belongs to the body. -/
def Reference.In : Reference → Prop
  | .binding name => P.name name
  | .property .. => True

/-- The target belongs to the body. -/
def ForTarget.In : ForTarget → Prop
  | .declare _ name => P.name name
  | .expression e => P.expr e

/-- The parts of a loop belong to the body. -/
def LoopKind.In : LoopKind → Prop
  | .whileLoop test | .doLoop test => P.expr test
  | .forLoop test update => (∀ e, test = some e → P.expr e) ∧ ∀ e, update = some e → P.expr e
  | .forEach target _ => target.In P

/-- The loop stands under these owners. -/
def Loop.In (l : Loop) : Prop := l.kind.In P ∧ P.stmt ⟨.loop l.labels :: os, [], l.body⟩

/-- The use of a reference stands under these owners. -/
def ReferenceUse.In : ReferenceUse → Prop
  | .assign _ value => P.expr value
  | .loopItem loop _ => loop.In P os
  | .update .. | .delete => True

/-- The use of a member stands under these owners. -/
def MemberUse.In : MemberUse → Prop
  | .read _ => True
  | .callee _ args => ∀ e ∈ args, P.expr e
  | .probe arg => P.expr arg
  | .refer _ use => use.In P os

/-- The use of a list belongs to the body. -/
def ListUse.In : ListUse → Prop
  | .construct callee => P.expr callee
  | .array | .call .. => True

/-- The declarations belong to the body. -/
def VarDecl.AllIn (ds : List VarDecl) : Prop :=
  ∀ d ∈ ds, P.name d.name ∧ ∀ e, d.init = some e → P.expr e

/-- What follows declarations stands under these owners. -/
def DeclareEnd.In : DeclareEnd → Prop
  | .done => True
  | .loop l => l.In P os

/-- The continuation stands above these owners. -/
def Cont.In : Cont → Prop
  | .element use _ rest => use.In P ∧ ∀ e ∈ rest, P.expr e
  | .property _ _ rest => ∀ p ∈ rest, P.expr p.value
  | .memberTarget key use => (∀ e ∈ key.exprs, P.expr e) ∧ use.In P os
  | .memberKey _ use => use.In P os
  | .callee args | .method _ args | .sequence args => ∀ e ∈ args, P.expr e
  | .binaryLeft _ e | .logicalLeft _ e => P.expr e
  | .choose yes no => P.expr yes ∧ P.expr no
  | .updateOld ref _ _ | .assignValue ref | .compoundValue ref _ _ => ref.In P
  | .compoundOld ref _ e | .logicalOld ref _ e => ref.In P ∧ P.expr e
  | .body rest => ∀ t ∈ rest, P.stmt ⟨os, [], t⟩
  | .declare name rest after => P.name name ∧ VarDecl.AllIn P rest ∧ after.In P os
  | .ret => ∀ v, P.jump os (.ret v)
  | .cond yes no => P.stmt ⟨os, [], yes⟩ ∧ ∀ t, no = some t → P.stmt ⟨os, [], t⟩
  | .loopInit l | .loopTest l | .loopBody l | .loopUpdate l => l.In P os
  | .eachSource _ target t labels => target.In P ∧ P.stmt ⟨.loop labels :: os, [], t⟩
  | .settle | .constructed _ | .made _ | .typeOf | .instead _ | .unary _ | .binaryRight .. | .raise
  | .labeled _ => True

/-- The continuations stand above these owners, each above those of the ones behind it. -/
def Cont.AllIn : List Cont → Prop
  | [] => True
  | k :: ks => k.In P (owners ks ++ os) ∧ AllIn ks

theorem Cont.allIn_append (ks ls : List Cont) :
    Cont.AllIn P os (ks ++ ls) ↔ Cont.AllIn P (owners ls ++ os) ks ∧ Cont.AllIn P os ls := by
  induction ks with
  | nil => exact ⟨fun h => ⟨trivial, h⟩, fun h => h.2⟩
  | cons k ks ih =>
    simp only [List.cons_append, AllIn, ih, owners_append, List.append_assoc, and_assoc]

/-- What happens next stands under these owners. A running machine does not wait. -/
def Control.In : Control → Prop
  | .eval e => P.expr e
  | .exec t labels => P.stmt ⟨os, labels, t⟩
  | .checkpoint _ | .value _ => True
  | .waiting _ => False
  | .abrupt x => P.jump os x

/-- The body that an activation runs. -/
def Activation.body (a : Activation) : List Stmt :=
  match a.boundary with
  | .unit => a.frame.unit.program.body
  | .function _ => ((a.frame.unit.function? a.frame.record).map FunctionNode.body).getD []

/-- The bodies of all units and function literals. -/
structure Bodies where
  ofUnit : CodeUnit → Parts
  ofFunction : CodeUnit → Nat → Parts

/-- The body of an activation. -/
def Bodies.parts (B : Bodies) (a : Activation) : Parts :=
  match a.boundary with
  | .unit => B.ofUnit a.frame.unit
  | .function _ => B.ofFunction a.frame.unit a.frame.record

/-- The transfer can occur anywhere. -/
def Bodies.Passes (B : Bodies) (x : Abrupt) : Prop := ∀ a os, (B.parts a).jump os x

/-- Bodies that fit together. -/
structure Atlas extends Bodies where
  /-- A unit that was compiled from a source has its statements in place. -/
  code {source names u} : CodeUnit.compile source names = .ok u →
    ∀ t ∈ u.program.body, (ofUnit u).stmt ⟨[], [], t⟩
  /-- What gets out of a body can occur anywhere. -/
  closing {a x y} : (toBodies.parts a).jump [] x → Machine.close a.boundary (.error x) = .abrupt y →
    toBodies.Passes y

namespace Atlas

/-- The statements of a closure are in place. -/
def Shows (A : Atlas) (k : Closure) : Prop :=
  ∀ t ∈ k.node.body, (A.ofFunction k.unit k.node.id).stmt ⟨[], [], t⟩

/-- The closures of a core have their statements in place. -/
def Covers (A : Atlas) (c : Core) : Prop := ∀ id, A.Shows (c.heap.closures.get id)

/-- An activation that is entered begins in its own body. -/
def Opens (A : Atlas) (a : Activation) (control : Control) : Prop :=
  Cont.AllIn (A.parts a) [] a.conts ∧ control.In (A.parts a) (owners a.conts)

/-- The move of a call: the value of a native function, or a body that is entered. -/
def Calls (A : Atlas) : Move → Prop
  | .go push control => push = [] ∧ ∃ v, control = .value v
  | .linked _ _ => False
  | .enter push a control => push = [] ∧ A.Opens a control

/-- The move of an activation leaves code in its place. -/
def Allows (A : Atlas) (P : Parts) (os : List Owner) (f : Frame) : Move → Prop
  | .go push control => Cont.AllIn P os push ∧ control.In P (owners push ++ os)
  | .linked frame _ => f.Same frame
  | .enter push a control => Cont.AllIn P os push ∧ A.Opens a control

variable {A : Atlas} {P : Parts} {os : List Owner} {f : Frame} {m : Move}

theorem Calls.allows (hm : A.Calls m) : A.Allows P os f m := by
  cases m with
  | go push control =>
    obtain ⟨rfl, v, rfl⟩ := hm
    exact ⟨trivial, trivial⟩
  | linked frame v => exact hm.elim
  | enter push a control =>
    obtain ⟨rfl, hopen⟩ := hm
    exact ⟨trivial, hopen⟩

/-- Continuations that stop no jump may be put below a move. -/
theorem Allows.pushing {ks : List Cont} (hm : A.Allows P os f m) (hks : Cont.AllIn P os ks)
    (hnone : owners ks = []) : A.Allows P os f (m.pushing ks) := by
  cases m with
  | go push control =>
    refine ⟨(Cont.allIn_append P os push ks).mpr ⟨?_, hks⟩, ?_⟩
    · rw [hnone]
      exact hm.1
    · rw [owners_append, hnone, List.append_nil]
      exact hm.2
  | linked frame v => exact hm
  | enter push a control =>
    refine ⟨(Cont.allIn_append P os push ks).mpr ⟨?_, hks⟩, hm.2⟩
    rw [hnone]
    exact hm.1

end Atlas

end Fermata
