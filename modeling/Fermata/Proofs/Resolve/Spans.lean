import Fermata.Proofs.Grammar.CoversStatement
import Fermata.Proofs.Resolve.Pass

/-!
# Resolving names keeps spans in place

The pass gives every node that it puts in the span of a node that was there: a member of the global object
that of the name, an assignment that of the declaration, and the assignments of a loop that of the loop. So
parts stay inside of what they are parts of, though no longer in order.

* `Resolve.stmts_snug`: the pass keeps nodes inside of the nodes around them.
-/

namespace Fermata

variable {whole : List Char} {s t : Span}

namespace Outline

/-- The outline lies inside of the span, and so do parts inside of what they are parts of; all its nodes are
sound. -/
structure Snug (whole : List Char) (s : Span) (o : Outline) : Prop where
  sound : o.Each (Sound whole)
  inside : o.span.Inside s
  nested : o.Nested

/-- All of them lie inside of the span. -/
def SnugIn (whole : List Char) (s : Span) (os : List Outline) : Prop := ∀ o ∈ os, o.Snug whole s

theorem snugIn_iff {os : List Outline} :
    SnugIn whole s os ↔ EachOf (Sound whole) os ∧ NestedIn s os := by
  induction os with
  | nil => simp [SnugIn]
  | cons o os ih =>
    unfold SnugIn at ih ⊢
    rw [List.forall_mem_cons, ih, eachOf_cons, nestedIn_cons]
    exact ⟨fun h => ⟨⟨h.1.sound, h.2.1⟩, h.1.inside, h.1.nested, h.2.2⟩,
      fun h => ⟨⟨h.1.1, h.2.1, h.2.2.1⟩, h.1.2, h.2.2.2⟩⟩

@[simp]
theorem snugIn_nil : SnugIn whole s [] ↔ True := by
  simp [SnugIn]

@[simp]
theorem snugIn_cons {o : Outline} {os : List Outline} :
    SnugIn whole s (o :: os) ↔ o.Snug whole s ∧ SnugIn whole s os :=
  List.forall_mem_cons

@[simp]
theorem snugIn_append {os qs : List Outline} :
    SnugIn whole s (os ++ qs) ↔ SnugIn whole s os ∧ SnugIn whole s qs :=
  List.forall_mem_append

@[simp]
theorem snug_node {m : Mark} {parts : List Outline} :
    (node t m parts).Snug whole s ↔ Sound whole t m ∧ t.Inside s ∧ SnugIn whole t parts := by
  rw [snugIn_iff]
  constructor
  · intro h
    have hsound := each_node.mp h.sound
    exact ⟨hsound.1, h.inside, hsound.2, nested_node.mp h.nested⟩
  · intro h
    exact ⟨each_node.mpr ⟨h.1, h.2.2.1⟩, h.2.1, nested_node.mpr h.2.2.2⟩

end Outline

theorem Span.Inside.refl (s : Span) : s.Inside s := ⟨Nat.le_refl _, Nat.le_refl _⟩

namespace Resolve

open Outline

variable {α β : Type} {Q : α → Prop} {R : β → Prop}

/-- The functions that are finished are sound and nested. -/
def State.Snug (whole : List Char) (st : State) : Prop :=
  ∀ fn, some fn ∈ st.functions → fn.outline.Snug whole fn.span

/-- The step keeps finished functions as they should be, and gives what `Q` allows. -/
def Keeps (whole : List Char) (p : Pass α) (Q : α → Prop) : Prop :=
  Gives (State.Snug whole) p fun a st => st.Snug whole ∧ Q a

namespace Keeps

theorem pure {a : α} (ha : Q a) : Keeps whole (Pure.pure a) Q := Gives.pure fun _ hs => ⟨hs, ha⟩

theorem bind {p : Pass α} {q : α → Pass β} (hp : Keeps whole p Q)
    (hq : ∀ a, Q a → Keeps whole (q a) R) : Keeps whole (p >>= q) R :=
  Gives.bind hp fun a s b s' hs heq => hq a hs.2 s b s' hs.1 heq

theorem map {p : Pass α} {f : α → β} (hp : Keeps whole p Q) (hf : ∀ a, Q a → R (f a)) :
    Keeps whole (p >>= fun a => Pure.pure (f a)) R :=
  hp.bind fun a ha => pure (hf a ha)

theorem refuse {cause : InvalidCause} {span : Span} : Keeps whole (refuse cause span) Q := Gives.refuse

theorem modify {f : State → State} (hf : ∀ s : State, (f s).functions = s.functions) :
    Keeps whole (modify f) fun _ => True := by
  refine Gives.modify fun s hs => ⟨fun fn hfn => hs fn ?_, trivial⟩
  rwa [hf s] at hfn

theorem get : Keeps whole (get : Pass State) fun _ => True :=
  fun s _ _ hs heq => by
    cases heq
    exact ⟨hs, trivial⟩

end Keeps

/-! ## Steps -/

theorem modifyTop_keeps (f : Context → Context) : Keeps whole (modifyTop f) fun _ => True := by
  refine Keeps.modify fun s => ?_
  split <;> rfl

theorem resolve_keeps (name : String) : Keeps whole (resolve name) fun _ => True := by
  intro s a s' hs heq
  cases heq
  exact ⟨hs, trivial⟩

theorem top_keeps : Keeps whole top fun _ => True := by
  intro s a s' hs heq
  cases heq
  exact ⟨hs, trivial⟩

theorem atRoot_keeps : Keeps whole atRoot fun _ => True := by
  intro s a s' hs heq
  cases heq
  exact ⟨hs, trivial⟩

theorem checkBreak_keeps (label : Option String) (span : Span) :
    Keeps whole (checkBreak label span) fun _ => True := by
  refine top_keeps.bind fun ctx _ => ?_
  cases label <;> dsimp only <;> split <;> first | exact Keeps.pure trivial | exact Keeps.refuse

theorem checkContinue_keeps (label : Option String) (span : Span) :
    Keeps whole (checkContinue label span) fun _ => True := by
  refine top_keeps.bind fun ctx _ => ?_
  cases label <;> dsimp only <;> split <;> first | exact Keeps.pure trivial | exact Keeps.refuse

theorem inLoop_keeps {p : Pass α} (hp : Keeps whole p Q) : Keeps whole (inLoop p) Q :=
  (modifyTop_keeps _).bind fun _ _ => hp.bind fun _ ha =>
    (modifyTop_keeps _).bind fun _ _ => Keeps.pure ha

theorem underLabel_keeps (label : String) (isLoop : Bool) {p : Pass α} (hp : Keeps whole p Q) :
    Keeps whole (underLabel label isLoop p) Q :=
  (modifyTop_keeps _).bind fun _ _ => hp.bind fun _ ha =>
    (modifyTop_keeps _).bind fun _ _ => Keeps.pure ha

/-! ## What is put in -/

theorem ident_snug (name : String) (hs : Sound whole s .plain) (hst : s.Inside t) :
    (Expr.ident s name).outline.Snug whole t :=
  snug_node.mpr ⟨hs, hst, snugIn_nil.mpr trivial⟩

theorem globalMember_snug (name : String) (implicit : Bool) (hs : Sound whole s .plain)
    (hst : s.Inside t) : (globalMember name s implicit).outline.Snug whole t := by
  refine snug_node.mpr ⟨hs, hst, snugIn_cons.mpr ⟨ident_snug _ hs (.refl s), ?_⟩⟩
  exact snugIn_nil.mpr trivial

theorem identifier_snug (name : String) (hs : Sound whole s .plain) (hst : s.Inside t) :
    Keeps whole (identifier name s) fun e => e.outline.Snug whole t := by
  have hmember := globalMember_snug name true hs hst
  refine (resolve_keeps name).bind fun bound _ => ?_
  split
  · exact Keeps.pure (ident_snug name hs hst)
  · split
    · refine Keeps.bind (Keeps.modify fun _ => ?_) fun _ _ => Keeps.pure hmember
      rfl
    · exact Keeps.pure hmember

theorem rootTarget_snug (name : String) (hs : Sound whole s .plain) (hst : s.Inside t) :
    Keeps whole (rootTarget name s) fun e => e.outline.Snug whole t := by
  refine Keeps.get.bind fun st _ => ?_
  split
  · exact Keeps.pure (ident_snug name hs hst)
  · exact Keeps.pure (globalMember_snug name false hs hst)

theorem asExpr_snug {es : List Expr} (hes : SnugIn whole s (Expr.outlines es))
    (hs : Sound whole s .plain) : (asExpr es s).outline.Snug whole s := by
  match es with
  | [e] => exact (snugIn_cons.mp hes).1
  | [] | _ :: _ :: _ => exact snug_node.mpr ⟨hs, .refl s, hes⟩

/-- A literal is kept as it is given. -/
theorem leave_keeps {fn : FunctionNode} (hfn : fn.outline.Snug whole fn.span) :
    Keeps whole (leave fn) fun _ => True := by
  refine top_keeps.bind fun ctx _ => ?_
  refine Gives.modify fun s hs => ⟨fun g hg => ?_, trivial⟩
  rcases Array.mem_or_eq_of_mem_setIfInBounds hg with hg | hg
  · exact hs g hg
  · cases hg
    exact hfn

/-! ## Trees -/

mutual

theorem expr_snug {t : Span} (e : Expr) (h : e.outline.Snug whole t) :
    Keeps whole (expr e) fun e' => e'.outline.Snug whole t := by
  match e with
  | .ident s name =>
    rw [Expr.outline, snug_node] at h
    rw [expr]
    exact identifier_snug name h.1 h.2.1
  | .this s =>
    rw [expr]
    exact (modifyTop_keeps _).bind fun _ _ => Keeps.pure h
  | .function s fn =>
    rw [Expr.outline, snug_node, snugIn_cons] at h
    rw [expr]
    exact (function_snug fn h.2.2.1).map fun fn' hfn =>
      snug_node.mpr ⟨h.1, h.2.1, snugIn_cons.mpr ⟨hfn, h.2.2.2⟩⟩
  | .array s es =>
    rw [Expr.outline, snug_node] at h
    rw [expr]
    exact (exprs_snug es h.2.2).map fun es' hes => snug_node.mpr ⟨h.1, h.2.1, hes⟩
  | .sequence s es =>
    rw [Expr.outline, snug_node] at h
    rw [expr]
    exact (exprs_snug es h.2.2).map fun es' hes => snug_node.mpr ⟨h.1, h.2.1, hes⟩
  | .object s ps =>
    rw [Expr.outline, snug_node] at h
    rw [expr]
    exact (properties_snug ps h.2.2).map fun ps' hps => snug_node.mpr ⟨h.1, h.2.1, hps⟩
  | .member s o k i =>
    rw [Expr.outline, snug_node, snugIn_cons] at h
    rw [expr]
    exact (expr_snug o h.2.2.1).bind fun o' ho => (memberKey_snug k h.2.2.2).map fun k' hk =>
      snug_node.mpr ⟨h.1, h.2.1, snugIn_cons.mpr ⟨ho, hk⟩⟩
  | .call s f args | .construct s f args =>
    rw [Expr.outline, snug_node, snugIn_cons] at h
    rw [expr]
    exact (expr_snug f h.2.2.1).bind fun f' hf => (exprs_snug args h.2.2.2).map fun args' hargs =>
      snug_node.mpr ⟨h.1, h.2.1, snugIn_cons.mpr ⟨hf, hargs⟩⟩
  | .unary s op a | .update s op b a =>
    rw [Expr.outline, snug_node, snugIn_cons] at h
    rw [expr]
    exact (expr_snug a h.2.2.1).map fun a' ha =>
      snug_node.mpr ⟨h.1, h.2.1, snugIn_cons.mpr ⟨ha, h.2.2.2⟩⟩
  | .binary s op l r | .logical s op l r | .assign s op l r =>
    rw [Expr.outline, snug_node, snugIn_cons, snugIn_cons] at h
    rw [expr]
    exact (expr_snug l h.2.2.1).bind fun l' hl => (expr_snug r h.2.2.2.1).map fun r' hr =>
      snug_node.mpr ⟨h.1, h.2.1, snugIn_cons.mpr ⟨hl, snugIn_cons.mpr ⟨hr, h.2.2.2.2⟩⟩⟩
  | .conditional s x y z =>
    simp only [Expr.outline, snug_node, snugIn_cons] at h
    rw [expr]
    refine (expr_snug x h.2.2.1).bind fun x' hx => (expr_snug y h.2.2.2.1).bind fun y' hy =>
      (expr_snug z h.2.2.2.2.1).map fun z' hz => ?_
    simp only [Expr.outline, snug_node, snugIn_cons]
    exact ⟨h.1, h.2.1, hx, hy, hz, h.2.2.2.2.2⟩
  | .number .. | .string .. | .bool .. | .null .. =>
    rw [expr]
    exact Keeps.pure h

theorem exprs_snug {t : Span} (es : List Expr) (h : SnugIn whole t (Expr.outlines es)) :
    Keeps whole (exprs es) fun es' => SnugIn whole t (Expr.outlines es') := by
  match es with
  | [] =>
    rw [exprs]
    exact Keeps.pure h
  | e :: es =>
    rw [Expr.outlines, snugIn_cons] at h
    rw [exprs]
    exact (expr_snug e h.1).bind fun e' he => (exprs_snug es h.2).map fun es' hes =>
      snugIn_cons.mpr ⟨he, hes⟩

theorem optionalExpr_snug {t : Span} (o : Option Expr) (h : SnugIn whole t (Expr.outlines? o)) :
    Keeps whole (optionalExpr o) fun o' => SnugIn whole t (Expr.outlines? o') := by
  match o with
  | none =>
    rw [optionalExpr]
    exact Keeps.pure h
  | some e =>
    rw [Expr.outlines?, snugIn_cons] at h
    rw [optionalExpr]
    exact (expr_snug e h.1).map fun e' he => snugIn_cons.mpr ⟨he, h.2⟩

theorem memberKey_snug {t : Span} (k : MemberKey) (h : SnugIn whole t k.outlines) :
    Keeps whole (memberKey k) fun k' => SnugIn whole t k'.outlines := by
  match k with
  | .named name =>
    rw [memberKey]
    exact Keeps.pure h
  | .computed e =>
    rw [MemberKey.outlines, snugIn_cons] at h
    rw [memberKey]
    exact (expr_snug e h.1).map fun e' he => snugIn_cons.mpr ⟨he, h.2⟩

theorem properties_snug {t : Span} (ps : List PropertyDef) (h : SnugIn whole t (PropertyDef.outlines ps)) :
    Keeps whole (properties ps) fun ps' => SnugIn whole t (PropertyDef.outlines ps') := by
  match ps with
  | [] =>
    rw [properties]
    exact Keeps.pure h
  | ⟨key, value, span⟩ :: ps =>
    simp only [PropertyDef.outlines, snugIn_cons, snug_node] at h
    rw [properties]
    refine (expr_snug value h.1.2.2.1).bind fun value' hv => (properties_snug ps h.2).map
      fun ps' hps => ?_
    simp only [PropertyDef.outlines, snugIn_cons, snug_node]
    exact ⟨⟨h.1.1, h.1.2.1, hv, h.1.2.2.2⟩, hps⟩

theorem function_snug {t : Span} (fn : FunctionNode) (h : fn.outline.Snug whole t) :
    Keeps whole (function fn) fun fn' => fn'.outline.Snug whole t := by
  obtain ⟨id, name, params, body, isDeclaration, span⟩ := fn
  rw [FunctionNode.outline, snug_node] at h
  rw [function]
  refine Keeps.bind (Q := fun _ => True) ((modifyTop_keeps _).bind fun _ _ =>
    Keeps.modify fun _ => rfl) fun _ _ => (stmts_snug body h.2.2).bind fun body' hbody => ?_
  refine (leave_keeps ?_).map fun _ _ => ?_
  · exact snug_node.mpr ⟨h.1, .refl _, hbody⟩
  · exact snug_node.mpr ⟨h.1, h.2.1, hbody⟩

theorem assignments_snug {t : Span} (ds : List VarDecl) (h : SnugIn whole t (VarDecl.outlines ds)) :
    Keeps whole (assignments ds) fun es => SnugIn whole t (Expr.outlines es) := by
  match ds with
  | [] =>
    rw [assignments]
    exact Keeps.pure h
  | ⟨name, init, span⟩ :: ds =>
    rw [VarDecl.outlines, snugIn_cons, snug_node] at h
    rw [assignments]
    refine (optionalExpr_snug init h.1.2.2).bind fun value hv =>
      (rootTarget_snug name h.1.1 (.refl span)).bind fun target ht =>
        (assignments_snug ds h.2).map fun rest hrest => ?_
    have hvalue : (value.getD (.ident span "undefined")).outline.Snug whole span := by
      cases value with
      | none => exact ident_snug _ h.1.1 (.refl span)
      | some v => exact (snugIn_cons.mp hv).1
    simp only [Expr.outlines, Expr.outline, snugIn_cons, snug_node]
    exact ⟨⟨h.1.1, h.1.2.1, ht, hvalue, snugIn_nil.mpr trivial⟩, hrest⟩

theorem localDecls_snug {t : Span} (ds : List VarDecl) (h : SnugIn whole t (VarDecl.outlines ds)) :
    Keeps whole (localDecls ds) fun ds' => SnugIn whole t (VarDecl.outlines ds') := by
  match ds with
  | [] =>
    rw [localDecls]
    exact Keeps.pure h
  | ⟨name, none, span⟩ :: ds =>
    rw [VarDecl.outlines, snugIn_cons] at h
    rw [localDecls]
    exact localDecls_snug ds h.2
  | ⟨name, some init, span⟩ :: ds =>
    simp only [VarDecl.outlines, Expr.outlines?, snugIn_cons, snug_node] at h
    rw [localDecls]
    refine (resolve_keeps name).bind fun _ _ => (expr_snug init h.1.2.2.1).bind fun init' hinit =>
      (localDecls_snug ds h.2).map fun ds' hds => ?_
    simp only [VarDecl.outlines, Expr.outlines?, snugIn_cons, snug_node]
    exact ⟨⟨h.1.1, h.1.2.1, hinit, h.1.2.2.2⟩, hds⟩

theorem forInit_snug {s : Span} (o : Option ForInit) (hs : Sound whole s .plain)
    (h : SnugIn whole s (ForInit.outlines? o)) :
    Keeps whole (forInit s o) fun o' => SnugIn whole s (ForInit.outlines? o') := by
  match o with
  | none =>
    rw [forInit]
    exact Keeps.pure h
  | some (.expression e) =>
    rw [ForInit.outlines?, snugIn_cons] at h
    rw [forInit]
    exact (expr_snug e h.1).map fun e' he => snugIn_cons.mpr ⟨he, h.2⟩
  | some (.declare ds) =>
    rw [ForInit.outlines?] at h
    rw [forInit]
    refine atRoot_keeps.bind fun root _ => ?_
    split
    · exact (assignments_snug ds h).map fun es hes =>
        snugIn_cons.mpr ⟨asExpr_snug hes hs, snugIn_nil.mpr trivial⟩
    · refine (localDecls_snug ds h).bind fun ds' hds => ?_
      split
      · exact Keeps.pure (snugIn_nil.mpr trivial)
      · exact Keeps.pure hds

theorem forTarget_snug {t : Span} (target : ForTarget) (h : target.outline.Snug whole t) :
    Keeps whole (forTarget target) fun target' => target'.outline.Snug whole t := by
  match target with
  | .expression e =>
    rw [ForTarget.outline] at h
    rw [forTarget]
    exact (expr_snug e h).map fun _ he => he
  | .declare span name =>
    rw [ForTarget.outline, snug_node] at h
    rw [forTarget]
    refine atRoot_keeps.bind fun root _ => ?_
    split
    · exact (rootTarget_snug name h.1 h.2.1).map fun _ he => he
    · exact (resolve_keeps name).map fun _ _ => snug_node.mpr h

theorem handler_snug {t : Span} (o : Option CatchClause) (h : SnugIn whole t (CatchClause.outlines? o)) :
    Keeps whole (handler o) fun o' => SnugIn whole t (CatchClause.outlines? o') := by
  match o with
  | none =>
    rw [handler]
    exact Keeps.pure h
  | some ⟨param, body⟩ =>
    rw [CatchClause.outlines?, snugIn_cons] at h
    rw [handler]
    exact (stmt_snug body h.1).map fun body' hbody => snugIn_cons.mpr ⟨hbody, h.2⟩

theorem optionalStmt_snug {t : Span} (o : Option Stmt) (h : SnugIn whole t (Stmt.outlines? o)) :
    Keeps whole (optionalStmt o) fun o' => SnugIn whole t (Stmt.outlines? o') := by
  match o with
  | none =>
    rw [optionalStmt]
    exact Keeps.pure h
  | some x =>
    rw [Stmt.outlines?, snugIn_cons] at h
    rw [optionalStmt]
    exact (stmt_snug x h.1).map fun x' hx => snugIn_cons.mpr ⟨hx, h.2⟩

theorem stmt_snug {t : Span} (x : Stmt) (h : x.outline.Snug whole t) :
    Keeps whole (stmt x) fun x' => x'.outline.Snug whole t := by
  match x with
  | .expression s e | .raise s e =>
    rw [Stmt.outline, snug_node, snugIn_cons] at h
    rw [stmt]
    exact (expr_snug e h.2.2.1).map fun e' he =>
      snug_node.mpr ⟨h.1, h.2.1, snugIn_cons.mpr ⟨he, h.2.2.2⟩⟩
  | .declare s ds =>
    rw [Stmt.outline, snug_node] at h
    rw [stmt]
    refine atRoot_keeps.bind fun root _ => ?_
    split
    · exact (assignments_snug ds h.2.2).map fun es hes => snug_node.mpr
        ⟨h.1, h.2.1, snugIn_cons.mpr ⟨asExpr_snug hes h.1, snugIn_nil.mpr trivial⟩⟩
    · refine (localDecls_snug ds h.2.2).bind fun ds' hds => ?_
      split
      · exact Keeps.pure (snug_node.mpr ⟨h.1, h.2.1, snugIn_nil.mpr trivial⟩)
      · exact Keeps.pure (snug_node.mpr ⟨h.1, h.2.1, hds⟩)
  | .function s fn =>
    rw [Stmt.outline, snug_node, snugIn_cons] at h
    rw [stmt]
    exact (function_snug fn h.2.2.1).map fun fn' hfn =>
      snug_node.mpr ⟨h.1, h.2.1, snugIn_cons.mpr ⟨hfn, h.2.2.2⟩⟩
  | .ret s arg =>
    rw [Stmt.outline, snug_node] at h
    rw [stmt]
    have harg : Keeps whole (do return Stmt.ret s (← optionalExpr arg)) fun x' =>
        x'.outline.Snug whole t :=
      (optionalExpr_snug arg h.2.2).map fun arg' harg => snug_node.mpr ⟨h.1, h.2.1, harg⟩
    refine atRoot_keeps.bind fun root _ => ?_
    cases root with
    | true => exact (Keeps.refuse (Q := fun _ => True)).bind fun _ _ => harg
    | false => exact harg
  | .cond s test yes no =>
    simp only [Stmt.outline, snug_node, snugIn_cons] at h
    rw [stmt]
    refine (expr_snug test h.2.2.1).bind fun test' htest => (stmt_snug yes h.2.2.2.1).bind
      fun yes' hyes => (optionalStmt_snug no h.2.2.2.2).map fun no' hno => ?_
    simp only [Stmt.outline, snug_node, snugIn_cons]
    exact ⟨h.1, h.2.1, htest, hyes, hno⟩
  | .whileLoop s test body =>
    simp only [Stmt.outline, snug_node, snugIn_cons] at h
    rw [stmt]
    refine (expr_snug test h.2.2.1).bind fun test' htest =>
      (inLoop_keeps (stmt_snug body h.2.2.2.1)).map fun body' hbody => ?_
    simp only [Stmt.outline, snug_node, snugIn_cons]
    exact ⟨h.1, h.2.1, htest, hbody, h.2.2.2.2⟩
  | .doLoop s body test =>
    simp only [Stmt.outline, snug_node, snugIn_cons] at h
    rw [stmt]
    refine (inLoop_keeps (stmt_snug body h.2.2.1)).bind fun body' hbody =>
      (expr_snug test h.2.2.2.1).map fun test' htest => ?_
    simp only [Stmt.outline, snug_node, snugIn_cons]
    exact ⟨h.1, h.2.1, hbody, htest, h.2.2.2.2⟩
  | .forLoop s init test update body =>
    simp only [Stmt.outline, snug_node, snugIn_cons, snugIn_append] at h
    rw [stmt]
    refine (forInit_snug init h.1 h.2.2.1.1.1).bind fun init' hinit =>
      (optionalExpr_snug test h.2.2.1.1.2).bind fun test' htest =>
        (optionalExpr_snug update h.2.2.1.2).bind fun update' hupdate =>
          (inLoop_keeps (stmt_snug body h.2.2.2.1)).map fun body' hbody => ?_
    simp only [Stmt.outline, snug_node, snugIn_cons, snugIn_append]
    exact ⟨h.1, h.2.1, ⟨⟨hinit, htest⟩, hupdate⟩, hbody, h.2.2.2.2⟩
  | .forEach s kind target source body =>
    simp only [Stmt.outline, snug_node, snugIn_cons] at h
    rw [stmt]
    refine (forTarget_snug target h.2.2.1).bind fun target' htarget =>
      (expr_snug source h.2.2.2.1).bind fun source' hsource =>
        (inLoop_keeps (stmt_snug body h.2.2.2.2.1)).map fun body' hbody => ?_
    simp only [Stmt.outline, snug_node, snugIn_cons]
    exact ⟨h.1, h.2.1, htarget, hsource, hbody, h.2.2.2.2.2⟩
  | .leave s label =>
    rw [stmt]
    exact (checkBreak_keeps label s).bind fun _ _ => Keeps.pure h
  | .next s label =>
    rw [stmt]
    exact (checkContinue_keeps label s).bind fun _ _ => Keeps.pure h
  | .guarded s block clause finalizer =>
    simp only [Stmt.outline, snug_node, snugIn_cons, snugIn_append] at h
    rw [stmt]
    refine (stmt_snug block h.2.2.1).bind fun block' hblock => (handler_snug clause h.2.2.2.1).bind
      fun clause' hclause => (optionalStmt_snug finalizer h.2.2.2.2).map fun final' hfinal => ?_
    simp only [Stmt.outline, snug_node, snugIn_cons, snugIn_append]
    exact ⟨h.1, h.2.1, hblock, hclause, hfinal⟩
  | .labeled s label body =>
    rw [Stmt.outline, snug_node, snugIn_cons] at h
    rw [stmt]
    exact (underLabel_keeps label _ (stmt_snug body h.2.2.1)).map fun body' hbody =>
      snug_node.mpr ⟨h.1, h.2.1, snugIn_cons.mpr ⟨hbody, h.2.2.2⟩⟩
  | .block s body =>
    rw [Stmt.outline, snug_node] at h
    rw [stmt]
    exact (stmts_snug body h.2.2).map fun body' hbody => snug_node.mpr ⟨h.1, h.2.1, hbody⟩
  | .empty s =>
    rw [stmt]
    exact Keeps.pure h

/-- **The pass keeps nodes inside of the nodes around them.** -/
theorem stmts_snug {t : Span} (xs : List Stmt) (h : SnugIn whole t (Stmt.outlines xs)) :
    Keeps whole (stmts xs) fun xs' => SnugIn whole t (Stmt.outlines xs') := by
  match xs with
  | [] =>
    rw [stmts]
    exact Keeps.pure h
  | x :: xs =>
    rw [Stmt.outlines, snugIn_cons] at h
    rw [stmts]
    exact (stmt_snug x h.1).bind fun x' hx => (stmts_snug xs h.2).map fun xs' hxs =>
      snugIn_cons.mpr ⟨hx, hxs⟩

end

end Resolve

/-! ## Spans of a source -/

open Text (byteLength byteLength_append byteLength_toList)

/-- The offset is one between two characters of the source, and the line and the column are those that
scanning the source up to there gives. -/
structure Position.Placed (source : String) (p : Position) : Prop where
  boundary : ∃ before after, source.toList = before ++ after ∧ p.offset = byteLength before
  scanned : p = Position.ofOffset source.toList p.offset

/-- Both ends are places of the source, in order. -/
structure Span.Placed (source : String) (s : Span) : Prop where
  start : s.start.Placed source
  stop : s.stop.Placed source
  order : s.start.offset ≤ s.stop.offset
  bound : s.stop.offset ≤ source.utf8ByteSize

/-- The span is placed in the source, and what stands there, if the node is a function literal, starts with
`function` and ends with a closing brace. -/
structure Mark.Placed (source : String) (s : Span) (m : Mark) : Prop where
  span : s.Placed source
  function : ∀ id, m = .function id → ∃ slice,
    sliceBytes source s.start.offset s.stop.offset = some slice ∧
      "function".toList <+: slice.toList ∧ ['\x7d'] <:+ slice.toList

theorem Position.Of.placed {source : String} {p : Position} (h : p.Of source.toList) :
    p.Placed source := by
  obtain ⟨before, after, hsource, rfl⟩ := h
  have hoffset : (Position.through {} before).offset = byteLength before :=
    (Position.offset_through _ _).trans (Nat.zero_add _)
  refine ⟨⟨before, after, hsource, hoffset⟩, ?_⟩
  rw [hoffset, hsource, Position.ofOffset_append]

theorem Span.Of.placed {source : String} {s : Span} (h : s.Of source.toList) : s.Placed source := by
  have hstop := h.stop.placed
  refine ⟨h.start.placed, hstop, h.le, ?_⟩
  obtain ⟨before, after, hsource, hoffset⟩ := hstop.boundary
  rw [hoffset, ← byteLength_toList, hsource, byteLength_append]
  exact Nat.le_add_right ..

theorem Sound.placed {source : String} {s : Span} {m : Mark} (h : Sound source.toList s m) :
    Mark.Placed source s m := by
  refine ⟨h.of.placed, fun id hid => ?_⟩
  obtain ⟨before, inside, after, hsource, hstart, hstop, hfirst, hlast⟩ := h.braced id hid
  have hslice : inside = (String.ofList inside).toList := String.toList_ofList.symm
  refine ⟨String.ofList inside, ?_, hslice ▸ hfirst, hslice ▸ hlast⟩
  rw [hstart, hstop, Position.offset_through, Position.offset_through, byteLength_append,
    Nat.zero_add, Nat.zero_add]
  exact sliceBytes_append hsource

/-- The spans of a tree are placed in the source, and parts lie inside of what they are parts of. -/
structure Outline.Placed (source : String) (o : Outline) : Prop where
  nodes : o.Each (Mark.Placed source)
  nested : o.Nested

theorem Outline.Snug.placed {source : String} {o : Outline} (h : o.Snug source.toList s) :
    o.Placed source :=
  ⟨h.sound.mono fun _ _ hm => hm.placed, h.nested⟩

/-- What is read from a source is snug within the span of the program. -/
theorem Grammar.parse_snug {source : String} {p : Program} (h : Grammar.parse source = .ok p) :
    p.outline.Snug source.toList p.span := by
  obtain ⟨hsound, hordered⟩ := Grammar.parse_covers h
  exact ⟨hsound, .refl _, hordered.nested (hsound.mono fun _ _ hm => hm.of.le)⟩

/-- What is compiled is snug as well. -/
theorem CodeUnit.compile_snug {source : String} {outer : List String} {u : CodeUnit}
    (h : CodeUnit.compile source outer = .ok u) :
    u.program.outline.Snug source.toList u.program.span ∧
      ∀ id fn, u.function? id = some fn → fn.outline.Snug source.toList fn.span := by
  obtain ⟨p, hparse, hprogram⟩ := Resolve.compile_ok h
  obtain ⟨r, hr, rfl⟩ := Resolve.ofProgram_ok hprogram
  obtain ⟨st, records, hbody, -, -, hfunctions⟩ := Resolve.program_ok hr
  have hp := Outline.snug_node.mp (Grammar.parse_snug hparse)
  have hstart : (Resolve.State.start p outer).Snug source.toList := fun fn hfn => by
    cases (Array.mem_replicate.mp hfn).2
  obtain ⟨hst, hbody'⟩ := Resolve.stmts_snug p.body hp.2.2 _ _ _ hstart hbody
  refine ⟨Outline.snug_node.mpr ⟨hp.1, hp.2.1, hbody'⟩, fun id fn hfn => hst fn ?_⟩
  unfold CodeUnit.function? at hfn
  rw [← hfunctions]
  exact Array.mem_of_getElem? (Option.join_eq_some_iff.mp hfn)

/-- **Spans are well-formed and nested**: in the tree of a source, where parts are in order besides, and in
the tree and the functions of a unit that is compiled from it. -/
theorem spans_placed (source : String) :
    (∀ p, Grammar.parse source = .ok p → p.outline.Placed source ∧ p.outline.Ordered) ∧
      ∀ outer u, CodeUnit.compile source outer = .ok u →
        u.program.outline.Placed source ∧
          ∀ id fn, u.function? id = some fn → fn.outline.Placed source := by
  refine ⟨fun p hp => ⟨(Grammar.parse_snug hp).placed, (Grammar.parse_covers hp).2⟩,
    fun outer u hu => ?_⟩
  obtain ⟨hprogram, hfunctions⟩ := CodeUnit.compile_snug hu
  exact ⟨hprogram.placed, fun id fn hfn => (hfunctions id fn hfn).placed⟩

/-- A function literal behind a character of two bytes. -/
theorem spans_placed_literal :
    ∃ p u, Grammar.parse "/* é */ var f = function (a) { return a + 1 }" = .ok p ∧
      CodeUnit.compile "/* é */ var f = function (a) { return a + 1 }" [] = .ok u ∧
      p.outline.Placed "/* é */ var f = function (a) { return a + 1 }" ∧ p.outline.Ordered ∧
      u.program.outline.Placed "/* é */ var f = function (a) { return a + 1 }" := by
  have hsome : ∀ c : Except CompileError CodeUnit, c.toOption.isSome → ∃ u, c = .ok u := by
    intro c hc
    cases c with
    | error => cases hc
    | ok u => exact ⟨u, rfl⟩
  obtain ⟨u, hu⟩ := hsome
    (CodeUnit.compile "/* é */ var f = function (a) { return a + 1 }" []) (by decide +kernel)
  obtain ⟨p, hp, -⟩ := Resolve.compile_ok hu
  obtain ⟨htree, hunit⟩ := spans_placed "/* é */ var f = function (a) { return a + 1 }"
  exact ⟨p, u, hp, hu, (htree p hp).1, (htree p hp).2, (hunit [] u hu).1⟩

end Fermata
