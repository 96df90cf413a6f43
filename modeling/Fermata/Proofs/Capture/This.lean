import Fermata.Proofs.Name.Walk
import Fermata.Proofs.Position.Stack

/-!
# Functions without a scope of their own

The record of a function says that its activations need no scope when it binds no name, lists no literal and
`this` does not occur in its body. What the record says of `this` is what the pass noted on the way through
the body, so a body whose record has no `this` has none. A frame that follows such a record therefore never
asks what `this` is.

* `Expr.Thisless`, `Spot.Thisless`: code without `this`, nested functions aside.
* `Resolve.Marks`: what a step of the pass gives has no `this`, or the innermost context notes it.
* `CodeUnit.Compiled.elided`: what can be said of a function whose record asks for no scope.
* `Atlas.thisless`: the pieces of such a function in a running activation.
-/

namespace Fermata

/-! ## Code without `this` -/

/-- `this` does not occur in the expression. -/
inductive Expr.Thisless : Expr → Prop
  | intro {e} : (∀ span, e ≠ .this span) → (∀ e' ∈ e.parts, e'.Thisless) → Thisless e

/-- `this` does not occur in the statement. -/
inductive Spot.Thisless : Spot → Prop
  | intro {t} : (∀ e ∈ t.stmt.exprs, e.Thisless) → (∀ u ∈ t.inside, u.Thisless) → Thisless t

/-- `this` does not occur in the statement, wherever it stands. -/
def Stmt.Thisless (t : Stmt) : Prop := ∀ os ls, Spot.Thisless ⟨os, ls, t⟩

/-- `this` does not occur in a body. -/
def ThislessBody (body : List Stmt) : Prop := ∀ t ∈ body, t.Thisless

theorem Expr.Thisless.ne_this {e : Expr} (h : e.Thisless) (span : Span) : e ≠ .this span := by
  obtain ⟨hself, -⟩ := h
  exact hself span

theorem Expr.Thisless.part {e e' : Expr} (h : e.Thisless) (he : e' ∈ e.parts) : e'.Thisless := by
  obtain ⟨-, hparts⟩ := h
  exact hparts e' he

theorem Spot.Thisless.expr {t : Spot} {e : Expr} (h : t.Thisless) (he : e ∈ t.stmt.exprs) :
    e.Thisless := by
  obtain ⟨hexprs, -⟩ := h
  exact hexprs e he

theorem Spot.Thisless.part {t u : Spot} (h : t.Thisless) (hu : u ∈ t.inside) : u.Thisless := by
  obtain ⟨-, hinside⟩ := h
  exact hinside u hu

/-- A statement without statements inside. -/
theorem Stmt.thisless_of_exprs {t : Stmt} (hexprs : ∀ e ∈ t.exprs, e.Thisless)
    (hinside : ∀ os ls, Spot.inside ⟨os, ls, t⟩ = []) : t.Thisless := by
  intro os ls
  refine .intro hexprs ?_
  rw [hinside]
  exact nofun

/-- A loop around a body. -/
theorem Stmt.thisless_of_body {t body : Stmt} {o : List String → Owner}
    (hexprs : ∀ e ∈ t.exprs, e.Thisless) (hbody : body.Thisless)
    (hinside : ∀ os ls, ∃ ls', Spot.inside ⟨os, ls, t⟩ = [⟨o ls :: os, ls', body⟩]) : t.Thisless := by
  intro os ls
  obtain ⟨ls', heq⟩ := hinside os ls
  refine .intro hexprs ?_
  rw [heq]
  intro u hu
  rw [List.mem_singleton.mp hu]
  exact hbody _ _

/-! ## What the pass notes -/

namespace Resolve

variable {α β : Type} {Q : α → Prop} {R : β → Prop} {s t u : State}

/-- The context went on: what it noted stays noted. -/
structure Context.Minds (c c' : Context) : Prop where
  id : c'.id = c.id
  noted : c.usesThis = true → c'.usesThis = true

theorem Context.Minds.refl (c : Context) : c.Minds c := ⟨rfl, fun h => h⟩

theorem Context.Minds.trans {c c' c'' : Context} (h : c.Minds c') (h' : c'.Minds c'') : c.Minds c'' :=
  ⟨h'.id.trans h.id, fun hc => h'.noted (h.noted hc)⟩

/-- The record asks for a scope if it has names or literals, and its function is without `this` if the
record says so. -/
structure State.Noted (s : State) : Prop where
  needs : ∀ (i : Nat) r, s.records[i]? = some (some r) → r.requiresCapture = false →
    r.bindings = [] ∧ r.children = [] ∧ r.usesThis = false
  body : ∀ (i : Nat) r fn, s.records[i]? = some (some r) → s.functions[i]? = some (some fn) →
    r.usesThis = false → ThislessBody fn.body

/-- The pass went on between these states. -/
structure State.Leads (s t : State) : Prop where
  stack : List.Forall₂ Context.Minds s.stack t.stack
  noted : s.Noted → t.Noted

/-- The innermost context has noted no `this`. -/
def State.Quiet (s : State) : Prop := ∃ c cs, s.stack = c :: cs ∧ c.usesThis = false

theorem minds_refl (cs : List Context) : List.Forall₂ Context.Minds cs cs :=
  List.forall₂_same.mpr fun c _ => .refl c

theorem minds_trans {cs ds es : List Context} (h : List.Forall₂ Context.Minds cs ds)
    (h' : List.Forall₂ Context.Minds ds es) : List.Forall₂ Context.Minds cs es := by
  induction h generalizing es with
  | nil => exact h'
  | cons hc _ ih =>
    cases h' with
    | cons hd hrest => exact .cons (hc.trans hd) (ih hrest)

theorem State.Leads.refl (s : State) : s.Leads s := ⟨minds_refl _, fun h => h⟩

theorem State.Leads.trans (h : s.Leads t) (h' : t.Leads u) : s.Leads u :=
  ⟨minds_trans h.stack h'.stack, fun hs => h'.noted (h.noted hs)⟩

/-- A change of the stack alone. -/
theorem State.Leads.of_stack {stack : List Context} (h : List.Forall₂ Context.Minds s.stack stack) :
    s.Leads { s with stack } :=
  ⟨h, fun hs => ⟨hs.needs, hs.body⟩⟩

theorem State.Quiet.of_leads (ht : t.Quiet) (h : s.Leads t) : s.Quiet := by
  obtain ⟨c', cs', hstack', hc'⟩ := ht
  have hminds := h.stack
  rw [hstack'] at hminds
  cases hstack : s.stack with
  | nil =>
    rw [hstack] at hminds
    cases hminds
  | cons c cs =>
    rw [hstack] at hminds
    obtain ⟨hc, -⟩ := List.forall₂_cons.mp hminds
    refine ⟨c, cs, hstack, ?_⟩
    cases hthis : c.usesThis with
    | false => rfl
    | true =>
      rw [hc.noted hthis] at hc'
      cases hc'

/-- The step goes on in the pass, and gives only what `Q` allows unless `this` was noted. -/
def Marks (p : Pass α) (Q : α → Prop) : Prop :=
  ∀ s a t, p s = .ok (a, t) → s.Leads t ∧ (t.Quiet → Q a)

namespace Marks

theorem pure {a : α} (ha : Q a) : Marks (Pure.pure a) Q := by
  intro s b t heq
  cases heq
  exact ⟨.refl s, fun _ => ha⟩

theorem bind {p : Pass α} {q : α → Pass β} (hp : Marks p Q)
    (hq : ∀ a, Marks (q a) fun b => Q a → R b) : Marks (p >>= q) R := by
  intro s b u heq
  simp only [Bind.bind, StateT.bind, Except.bind] at heq
  cases hps : p s with
  | error e =>
    rw [hps] at heq
    cases heq
  | ok r =>
    obtain ⟨a, t⟩ := r
    rw [hps] at heq
    obtain ⟨hst, ha⟩ := hp s a t hps
    obtain ⟨htu, hb⟩ := hq a t b u heq
    exact ⟨hst.trans htu, fun hu => hb hu (ha (hu.of_leads htu))⟩

/-- A step whose result does not matter. -/
theorem after {p : Pass α} {q : α → Pass β} (hp : Marks p fun _ => True)
    (hq : ∀ a, Marks (q a) R) : Marks (p >>= q) R :=
  hp.bind fun a s b t heq => ⟨(hq a s b t heq).1, fun ht _ => (hq a s b t heq).2 ht⟩

/-- A step that gives the result its shape. -/
theorem map {p : Pass α} {f : α → β} (hp : Marks p Q) (hf : ∀ a, Q a → R (f a)) :
    Marks (p >>= fun a => Pure.pure (f a)) R :=
  hp.bind fun a => pure (hf a)

theorem weaken {p : Pass α} {P : α → Prop} (hp : Marks p Q) (hQ : ∀ a, Q a → P a) : Marks p P :=
  fun s a t heq => ⟨(hp s a t heq).1, fun ht => hQ a ((hp s a t heq).2 ht)⟩

theorem refuse {cause : InvalidCause} {span : Span} : Marks (refuse cause span) Q :=
  fun _ _ _ heq => nomatch heq

theorem modify {f : State → State} (hf : ∀ s : State, s.Leads (f s)) :
    Marks (modify f) fun _ => True := by
  intro s a t heq
  cases heq
  exact ⟨hf s, fun _ => trivial⟩

theorem modifyTop {f : Context → Context} (hf : ∀ c : Context, c.Minds (f c)) :
    Marks (modifyTop f) fun _ => True := by
  refine modify fun s => ?_
  cases hstack : s.stack with
  | nil => exact .refl s
  | cons c cs =>
    refine .of_stack ?_
    rw [hstack]
    exact .cons (hf c) (minds_refl cs)

end Marks

/-! ## Names -/

theorem referIn_minds {name : String} {cs cs' : List Context} (h : referIn name cs = some cs') :
    List.Forall₂ Context.Minds cs cs' := by
  induction cs generalizing cs' with
  | nil => cases h
  | cons c cs ih =>
    unfold referIn at h
    split at h
    · cases h
    · split at h
      · cases h
        exact .cons ⟨rfl, fun hc => hc⟩ (minds_refl cs)
      · obtain ⟨rest, hrest, rfl⟩ := Option.map_eq_some_iff.mp h
        exact .cons (.refl c) (ih hrest)

theorem referStack_minds (name : String) (cs : List Context) :
    List.Forall₂ Context.Minds cs (referStack name cs).1 := by
  unfold referStack
  split
  · split
    · exact .cons ⟨rfl, fun hc => hc⟩ (minds_refl _)
    · split
      next h => exact referIn_minds h
      next => exact minds_refl _
  · exact .nil

theorem resolve_marks (name : String) : Marks (resolve name) fun _ => True := by
  intro s a t heq
  cases heq
  exact ⟨.of_stack (referStack_minds name s.stack), fun _ => trivial⟩

theorem top_marks : Marks top fun _ => True := by
  intro s a t heq
  cases heq
  exact ⟨.refl s, fun _ => trivial⟩

theorem atRoot_marks : Marks atRoot fun _ => True := top_marks.map fun _ _ => trivial

theorem Expr.thisless_leaf {e : Expr} (hself : ∀ span, e ≠ .this span) (hparts : e.parts = []) :
    e.Thisless := by
  refine .intro hself ?_
  rw [hparts]
  exact nofun

theorem thisless_ident (span : Span) (name : String) : (Expr.ident span name).Thisless :=
  Expr.thisless_leaf nofun rfl

theorem thisless_globalMember (name : String) (span : Span) (implicit : Bool) :
    (globalMember name span implicit).Thisless := by
  refine .intro nofun fun e he => ?_
  rw [List.mem_singleton.mp he]
  exact thisless_ident _ _

theorem identifier_marks (name : String) (span : Span) :
    Marks (identifier name span) Expr.Thisless := by
  refine (resolve_marks name).after fun bound => ?_
  split
  · exact Marks.pure (thisless_ident _ _)
  · split
    · refine Marks.after (Marks.modify fun s => .of_stack ?_) fun _ =>
        Marks.pure (thisless_globalMember _ _ _)
      generalize s.stack = cs
      induction cs with
      | nil => exact .nil
      | cons c cs ih =>
        refine .cons ?_ ih
        dsimp only
        split
        · exact .refl c
        · exact ⟨rfl, fun hc => hc⟩
    · exact Marks.pure (thisless_globalMember _ _ _)

theorem rootTarget_marks (name : String) (span : Span) :
    Marks (rootTarget name span) Expr.Thisless := by
  intro s e t heq
  simp only [rootTarget, Bind.bind, StateT.bind, get, getThe, MonadStateOf.get, StateT.get, pure,
    Except.bind, Except.pure] at heq
  split at heq <;> cases heq
  · exact ⟨.refl s, fun _ => thisless_ident _ _⟩
  · exact ⟨.refl s, fun _ => thisless_globalMember _ _ _⟩

/-! ## Functions, loops and labels -/

/-- The innermost context notes `this`, so nothing is said about what comes of it. -/
theorem this_marks : Marks (modifyTop fun ctx => { ctx with usesThis := true }) fun _ => False := by
  have hminds : ∀ c : Context, c.Minds { c with usesThis := true } := fun c => ⟨rfl, fun _ => rfl⟩
  intro s a t heq
  refine ⟨(Marks.modifyTop hminds s a t heq).1, fun ht => ?_⟩
  obtain ⟨c, cs, hstack, hc⟩ := ht
  cases heq
  dsimp only at hstack
  split at hstack
  · cases hstack
    cases hc
  · rename_i hnil
    rw [hnil] at hstack
    cases hstack

theorem addChild_minds (g : FunctionNode) (cs : List Context) :
    List.Forall₂ Context.Minds cs (addChild g cs) := by
  cases cs with
  | nil => exact .nil
  | cons c cs =>
    refine .cons ?_ (minds_refl cs)
    split <;> exact ⟨rfl, fun hc => hc⟩

/-- A context that notes no `this` makes a record that says so. -/
theorem Context.usesThis_of_toRecord {c : Context} {name : String} {params : List String} {span : Span}
    (h : (c.toRecord name params span).usesThis = false) : c.usesThis = false :=
  (Bool.or_eq_false_iff.mp h).1

theorem Context.needs_toRecord {c : Context} {name : String} {params : List String} {span : Span}
    (h : (c.toRecord name params span).requiresCapture = false) :
    (c.toRecord name params span).bindings = [] ∧ (c.toRecord name params span).children = [] ∧
      (c.toRecord name params span).usesThis = false := by
  obtain ⟨hnames, hthis⟩ := Bool.or_eq_false_iff.mp h
  obtain ⟨hbindings, hchildren⟩ := Bool.or_eq_false_iff.mp hnames
  rw [Bool.not_eq_false'] at hbindings hchildren
  exact ⟨List.isEmpty_iff.mp hbindings, List.isEmpty_iff.mp hchildren, hthis⟩

/-- Behind a literal its record and its node are in the tables. -/
theorem State.Noted.leave {fn : FunctionNode} (hs : s.Noted) (hid : s.top.id = fn.id)
    (hbody : s.top.usesThis = false → ThislessBody fn.body) : (s.leave fn).Noted := by
  have hrecord : ∀ (i : Nat) r, (s.leave fn).records[i]? = some (some r) →
      i = s.top.id ∧ r = s.top.toRecord (fn.name.getD ("anonymous_" ++ toString fn.id)) fn.params fn.span ∨
        i ≠ s.top.id ∧ s.records[i]? = some (some r) := by
    intro i r hr
    unfold State.leave at hr
    rw [Array.getElem?_setIfInBounds] at hr
    split at hr
    · rename_i hi
      split at hr
      · exact .inl ⟨hi.symm, (Option.some.inj (Option.some.inj hr)).symm⟩
      · cases hr
    · rename_i hi
      exact .inr ⟨fun h => hi h.symm, hr⟩
  refine ⟨fun i r hr hneed => ?_, fun i r g hr hg hthis => ?_⟩
  · rcases hrecord i r hr with ⟨-, rfl⟩ | ⟨-, hold⟩
    · exact Context.needs_toRecord hneed
    · exact hs.needs i r hold hneed
  · rcases hrecord i r hr with ⟨rfl, rfl⟩ | ⟨hi, hold⟩
    · unfold State.leave at hg
      rw [hid, Array.getElem?_setIfInBounds, if_pos rfl] at hg
      split at hg
      · cases hg
        exact hbody (Context.usesThis_of_toRecord hthis)
      · cases hg
    · unfold State.leave at hg
      rw [Array.getElem?_setIfInBounds, if_neg fun h => hi (hid.trans h).symm] at hg
      exact hs.body i r g hold hg hthis

/-- A literal whose body was gone through. -/
theorem function_marks_of_body (g : FunctionNode) (hbody : Marks (stmts g.body) ThislessBody) :
    Marks (function g) fun _ => True := by
  intro s fn t heq
  obtain ⟨id, name, params, body, isDeclaration, span⟩ := g
  rw [function] at heq
  simp only [Bind.bind, StateT.bind, Except.bind, enter_eq] at heq
  cases hs : stmts body (s.enter ⟨id, name, params, body, isDeclaration, span⟩) with
  | error e =>
    rw [hs] at heq
    cases heq
  | ok r =>
    obtain ⟨body', s₂⟩ := r
    rw [hs] at heq
    cases heq
    obtain ⟨hleads, hquiet⟩ := hbody _ _ _ hs
    obtain ⟨declared, selfName, hnew⟩ :=
      Context.ofFunction_eq ⟨id, name, params, body, isDeclaration, span⟩
    obtain ⟨c, cs, hc, hcs, hstack⟩ := List.forall₂_cons_left_iff.mp hleads.stack
    have htop : s₂.top = c := by
      unfold State.top
      rw [hstack]
      rfl
    have hid : s₂.top.id = id := by
      rw [htop, hc.id, hnew]
    refine ⟨⟨?_, fun hnoted => ?_⟩, fun _ => trivial⟩
    · change List.Forall₂ Context.Minds s.stack s₂.stack.tail
      rw [hstack, List.tail_cons]
      exact minds_trans (addChild_minds _ _) hcs
    · change (s₂.leave ⟨id, name, params, body', isDeclaration, span⟩).Noted
      exact (hleads.noted ⟨hnoted.needs, hnoted.body⟩).leave hid
        fun hthis => hquiet ⟨c, cs, hstack, htop ▸ hthis⟩

theorem inLoop_marks {p : Pass α} (hp : Marks p Q) : Marks (inLoop p) Q := by
  have hdepth : ∀ n : Context → Nat,
      Marks (modifyTop fun ctx => { ctx with loopDepth := n ctx }) fun _ => True :=
    fun n => Marks.modifyTop fun c => ⟨rfl, fun hc => hc⟩
  refine (hdepth (·.loopDepth + 1)).after fun _ => hp.bind fun a => ?_
  exact (hdepth (·.loopDepth - 1)).after fun _ => Marks.pure fun ha => ha

theorem underLabel_marks (label : String) (isLoop : Bool) {p : Pass α} (hp : Marks p Q) :
    Marks (underLabel label isLoop p) Q := by
  have hlabels : ∀ n : Context → List (String × Bool),
      Marks (modifyTop fun ctx => { ctx with labels := n ctx }) fun _ => True :=
    fun n => Marks.modifyTop fun c => ⟨rfl, fun hc => hc⟩
  refine (hlabels ((label, isLoop) :: ·.labels)).after fun _ => hp.bind fun a => ?_
  exact (hlabels (·.labels.tail)).after fun _ => Marks.pure fun ha => ha

theorem checkBreak_marks (label : Option String) (span : Span) :
    Marks (checkBreak label span) fun _ => True := by
  refine top_marks.after fun ctx => ?_
  cases label <;> dsimp only <;> split <;> first | exact Marks.pure trivial | exact Marks.refuse

theorem checkContinue_marks (label : Option String) (span : Span) :
    Marks (checkContinue label span) fun _ => True := by
  refine top_marks.after fun ctx => ?_
  cases label <;> dsimp only <;> split <;> first | exact Marks.pure trivial | exact Marks.refuse

/-! ## The walk -/

theorem thisless_asExpr {es : List Expr} (hes : ∀ e ∈ es, e.Thisless) (span : Span) :
    (asExpr es span).Thisless := by
  unfold asExpr
  split
  · exact hes _ List.mem_cons_self
  · exact .intro nofun hes

mutual

/-- An expression in which the pass notes no `this` has none. -/
theorem expr_marks (e : Expr) : Marks (expr e) Expr.Thisless := by
  match e with
  | .ident s name =>
    rw [expr]
    exact identifier_marks name s
  | .this s =>
    rw [expr]
    exact this_marks.bind fun _ => Marks.pure False.elim
  | .function s fn =>
    rw [expr]
    exact (function_marks fn).map fun _ _ => Expr.thisless_leaf nofun rfl
  | .array s es =>
    rw [expr]
    exact (exprs_marks es).map fun _ hes => .intro nofun hes
  | .object s ps =>
    rw [expr]
    refine (properties_marks ps).map fun ps' hps => .intro nofun fun e he => ?_
    obtain ⟨p, hp, rfl⟩ := List.mem_map.mp he
    exact hps p hp
  | .member s o key i =>
    rw [expr]
    refine (expr_marks o).bind fun o' => (memberKey_marks key).map fun key' hkey ho => .intro nofun ?_
    exact List.forall_mem_cons.mpr ⟨ho, hkey⟩
  | .call s f args | .construct s f args =>
    rw [expr]
    refine (expr_marks f).bind fun f' => (exprs_marks args).map fun args' hargs hf => .intro nofun ?_
    exact List.forall_mem_cons.mpr ⟨hf, hargs⟩
  | .unary s op a | .update s op _ a =>
    rw [expr]
    exact (expr_marks a).map fun _ ha => .intro nofun (List.forall_mem_singleton.mpr ha)
  | .binary s op l r | .logical s op l r | .assign s op l r =>
    rw [expr]
    refine (expr_marks l).bind fun l' => (expr_marks r).map fun r' hr hl => .intro nofun ?_
    exact List.forall_mem_cons.mpr ⟨hl, List.forall_mem_singleton.mpr hr⟩
  | .conditional s t y n =>
    rw [expr]
    refine (expr_marks t).bind fun t' => (expr_marks y).bind fun y' =>
      (expr_marks n).map fun n' hn hy ht => .intro nofun ?_
    exact List.forall_mem_cons.mpr ⟨ht, List.forall_mem_cons.mpr ⟨hy, List.forall_mem_singleton.mpr hn⟩⟩
  | .sequence s es =>
    rw [expr]
    exact (exprs_marks es).map fun _ hes => .intro nofun hes
  | .number s v | .string s v | .bool s v =>
    rw [expr]
    exact Marks.pure (Expr.thisless_leaf nofun rfl)
  | .null s =>
    rw [expr]
    exact Marks.pure (Expr.thisless_leaf nofun rfl)

theorem exprs_marks (es : List Expr) : Marks (exprs es) fun es' => ∀ e ∈ es', e.Thisless := by
  match es with
  | [] =>
    rw [exprs]
    exact Marks.pure nofun
  | e :: es =>
    rw [exprs]
    refine (expr_marks e).bind fun e' => (exprs_marks es).map fun es' hes he => ?_
    exact List.forall_mem_cons.mpr ⟨he, hes⟩

theorem optionalExpr_marks (e : Option Expr) :
    Marks (optionalExpr e) fun e' => ∀ x ∈ e'.toList, x.Thisless := by
  match e with
  | none =>
    rw [optionalExpr]
    exact Marks.pure nofun
  | some e =>
    rw [optionalExpr]
    exact (expr_marks e).map fun _ he => List.forall_mem_singleton.mpr he

theorem memberKey_marks (key : MemberKey) :
    Marks (memberKey key) fun key' => ∀ e ∈ key'.exprs, e.Thisless := by
  match key with
  | .named name =>
    rw [memberKey]
    exact Marks.pure nofun
  | .computed e =>
    rw [memberKey]
    exact (expr_marks e).map fun _ he => List.forall_mem_singleton.mpr he

theorem properties_marks (ps : List PropertyDef) :
    Marks (properties ps) fun ps' => ∀ p ∈ ps', p.value.Thisless := by
  match ps with
  | [] =>
    rw [properties]
    exact Marks.pure nofun
  | ⟨key, value, span⟩ :: ps =>
    rw [properties]
    refine (expr_marks value).bind fun v => (properties_marks ps).map fun ps' hps hv => ?_
    exact List.forall_mem_cons.mpr ⟨hv, hps⟩

theorem function_marks (fn : FunctionNode) : Marks (function fn) fun _ => True := by
  match fn with
  | ⟨id, name, params, body, isDeclaration, span⟩ =>
    exact function_marks_of_body ⟨id, name, params, body, isDeclaration, span⟩ (stmts_marks body)

theorem assignments_marks (ds : List VarDecl) :
    Marks (assignments ds) fun es => ∀ e ∈ es, e.Thisless := by
  match ds with
  | [] =>
    rw [assignments]
    exact Marks.pure nofun
  | ⟨name, init, span⟩ :: ds =>
    rw [assignments]
    refine (optionalExpr_marks init).bind fun value => (rootTarget_marks name span).bind fun target =>
      (assignments_marks ds).map fun rest hrest htarget hvalue => ?_
    refine List.forall_mem_cons.mpr ⟨.intro nofun ?_, hrest⟩
    refine List.forall_mem_cons.mpr ⟨htarget, List.forall_mem_singleton.mpr ?_⟩
    cases value with
    | none => exact thisless_ident _ _
    | some v => exact hvalue v List.mem_cons_self

theorem localDecls_marks (ds : List VarDecl) :
    Marks (localDecls ds) fun ds' => ∀ e ∈ VarDecl.inits ds', e.Thisless := by
  match ds with
  | [] =>
    rw [localDecls]
    exact Marks.pure nofun
  | ⟨_, none, _⟩ :: ds =>
    rw [localDecls]
    exact localDecls_marks ds
  | ⟨name, some init, span⟩ :: ds =>
    rw [localDecls]
    refine (resolve_marks name).after fun _ => (expr_marks init).bind fun init' =>
      (localDecls_marks ds).map fun ds' hds hinit => ?_
    exact List.forall_mem_cons.mpr ⟨hinit, hds⟩

theorem forInit_marks (span : Span) (init : Option ForInit) :
    Marks (forInit span init) fun i => ∀ e ∈ (i.map ForInit.exprs).getD [], e.Thisless := by
  match init with
  | none =>
    rw [forInit]
    exact Marks.pure nofun
  | some (.expression e) =>
    rw [forInit]
    exact (expr_marks e).map fun _ he => List.forall_mem_singleton.mpr he
  | some (.declare ds) =>
    rw [forInit]
    refine atRoot_marks.after fun root => ?_
    split
    · exact (assignments_marks ds).map fun es hes =>
        List.forall_mem_singleton.mpr (thisless_asExpr hes span)
    · refine (localDecls_marks ds).bind fun ds' => ?_
      split
      · exact Marks.pure fun _ => nofun
      · exact Marks.pure fun hds => hds

theorem forTarget_marks (target : ForTarget) :
    Marks (forTarget target) fun t => ∀ e ∈ t.exprs, e.Thisless := by
  match target with
  | .expression e =>
    rw [forTarget]
    exact (expr_marks e).map fun _ he => List.forall_mem_singleton.mpr he
  | .declare span name =>
    rw [forTarget]
    refine atRoot_marks.after fun root => ?_
    split
    · exact (rootTarget_marks name span).map fun _ he => List.forall_mem_singleton.mpr he
    · exact (resolve_marks name).after fun _ => Marks.pure nofun

theorem handler_marks (h : Option CatchClause) : Marks (handler h) fun _ => True := by
  match h with
  | none =>
    rw [handler]
    exact Marks.pure trivial
  | some ⟨param, body⟩ =>
    rw [handler]
    exact (stmt_marks body).map fun _ _ => trivial

theorem optionalStmt_marks (t : Option Stmt) :
    Marks (optionalStmt t) fun t' => ∀ x ∈ t'.toList, x.Thisless := by
  match t with
  | none =>
    rw [optionalStmt]
    exact Marks.pure nofun
  | some t =>
    rw [optionalStmt]
    exact (stmt_marks t).map fun _ ht => List.forall_mem_singleton.mpr ht

/-- A statement in which the pass notes no `this` has none. -/
theorem stmt_marks (t : Stmt) : Marks (stmt t) Stmt.Thisless := by
  match t with
  | .expression s e | .raise s e =>
    rw [stmt]
    exact (expr_marks e).map fun _ he =>
      Stmt.thisless_of_exprs (List.forall_mem_singleton.mpr he) fun _ _ => rfl
  | .declare s ds =>
    rw [stmt]
    refine atRoot_marks.after fun root => ?_
    split
    · exact (assignments_marks ds).map fun _ hes =>
        Stmt.thisless_of_exprs (List.forall_mem_singleton.mpr (thisless_asExpr hes s)) fun _ _ => rfl
    · refine (localDecls_marks ds).bind fun ds' => ?_
      split
      · exact Marks.pure fun _ => Stmt.thisless_of_exprs nofun fun _ _ => rfl
      · exact Marks.pure fun hds => Stmt.thisless_of_exprs hds fun _ _ => rfl
  | .function s fn =>
    rw [stmt]
    exact (function_marks fn).map fun _ _ => Stmt.thisless_of_exprs nofun fun _ _ => rfl
  | .ret s arg =>
    rw [stmt]
    refine atRoot_marks.after fun root => ?_
    split
    · exact Marks.bind (Q := fun _ => True) Marks.refuse fun _ =>
        (optionalExpr_marks arg).map fun _ harg _ => Stmt.thisless_of_exprs harg fun _ _ => rfl
    · exact (optionalExpr_marks arg).map fun _ harg => Stmt.thisless_of_exprs harg fun _ _ => rfl
  | .cond s test yes no =>
    rw [stmt]
    refine (expr_marks test).bind fun test' => (stmt_marks yes).bind fun yes' =>
      (optionalStmt_marks no).map fun no' hno hyes htest os ls => ?_
    refine .intro (List.forall_mem_singleton.mpr htest) (List.forall_mem_cons.mpr ⟨hyes _ _, ?_⟩)
    intro u hu
    obtain ⟨x, hx, rfl⟩ := List.mem_map.mp hu
    exact hno x hx _ _
  | .whileLoop s test body =>
    rw [stmt]
    refine (expr_marks test).bind fun test' =>
      (inLoop_marks (stmt_marks body)).map fun body' hbody htest => ?_
    exact Stmt.thisless_of_body (List.forall_mem_singleton.mpr htest) hbody fun _ _ => ⟨_, rfl⟩
  | .doLoop s body test =>
    rw [stmt]
    refine (inLoop_marks (stmt_marks body)).bind fun body' =>
      (expr_marks test).map fun test' htest hbody => ?_
    exact Stmt.thisless_of_body (List.forall_mem_singleton.mpr htest) hbody fun _ _ => ⟨_, rfl⟩
  | .forLoop s init test update body =>
    rw [stmt]
    refine (forInit_marks s init).bind fun init' => (optionalExpr_marks test).bind fun test' =>
      (optionalExpr_marks update).bind fun update' =>
      (inLoop_marks (stmt_marks body)).map fun body' hbody hupdate htest hinit => ?_
    refine Stmt.thisless_of_body (fun e he => ?_) hbody fun _ _ => ⟨_, rfl⟩
    rcases List.mem_append.mp he with he | he
    · rcases List.mem_append.mp he with he | he
      · exact hinit e he
      · exact htest e he
    · exact hupdate e he
  | .forEach s kind target source body =>
    rw [stmt]
    refine (forTarget_marks target).bind fun target' => (expr_marks source).bind fun source' =>
      (inLoop_marks (stmt_marks body)).map fun body' hbody hsource htarget => ?_
    refine Stmt.thisless_of_body (fun e he => ?_) hbody fun _ _ => ⟨_, rfl⟩
    rcases List.mem_append.mp he with he | he
    · exact htarget e he
    · exact List.mem_singleton.mp he ▸ hsource
  | .leave s label =>
    rw [stmt]
    exact (checkBreak_marks label s).after fun _ =>
      Marks.pure (Stmt.thisless_of_exprs nofun fun _ _ => rfl)
  | .next s label =>
    rw [stmt]
    exact (checkContinue_marks label s).after fun _ =>
      Marks.pure (Stmt.thisless_of_exprs nofun fun _ _ => rfl)
  | .guarded s block h finalizer =>
    rw [stmt]
    refine ((stmt_marks block).weaken fun _ _ => trivial).after fun _ =>
      (handler_marks h).after fun _ => (optionalStmt_marks finalizer).map fun _ _ => ?_
    exact Stmt.thisless_of_exprs nofun fun _ _ => rfl
  | .labeled s label body =>
    rw [stmt]
    refine (underLabel_marks label body.labelsLoop (stmt_marks body)).map fun body' hbody => ?_
    exact Stmt.thisless_of_body (o := fun _ => .label label) nofun hbody fun _ _ => ⟨_, rfl⟩
  | .block s body =>
    rw [stmt]
    refine (stmts_marks body).map fun body' hbody os ls => .intro nofun fun u hu => ?_
    obtain ⟨x, hx, rfl⟩ := List.mem_map.mp hu
    exact hbody x hx _ _
  | .empty s =>
    rw [stmt]
    exact Marks.pure (Stmt.thisless_of_exprs nofun fun _ _ => rfl)

theorem stmts_marks (ts : List Stmt) : Marks (stmts ts) ThislessBody := by
  match ts with
  | [] =>
    rw [stmts]
    exact Marks.pure nofun
  | t :: ts =>
    rw [stmts]
    refine (stmt_marks t).bind fun t' => (stmts_marks ts).map fun ts' hts ht => ?_
    exact List.forall_mem_cons.mpr ⟨ht, hts⟩

end

end Resolve

/-! ## Units -/

open Resolve

/-- **A function whose record asks for no scope** binds no name and makes no closure, and `this` does not
occur in its body. -/
theorem CodeUnit.Compiled.elided {u : CodeUnit} {id : Nat} {r : ScopeRecord} (hu : u.Compiled)
    (hr : u.record? id = some r) (hneed : r.requiresCapture = false) :
    r.bindings = [] ∧ r.children = [] ∧ ∀ fn, u.function? id = some fn → ThislessBody fn.body := by
  obtain ⟨p, outer, hp⟩ := hu.madeFrom
  obtain ⟨r', hr', heq⟩ := ofProgram_ok hp.program
  obtain ⟨s, records, hbody, hrecords, hlist, hfunctions⟩ := program_ok hr'
  have hstart : (State.start p outer).Noted := by
    have hnone : ∀ (i : Nat) r, (State.start p outer).records[i]? ≠ some (some r) := by
      intro i r h
      simp only [State.start, Array.getElem?_replicate] at h
      split at h <;> cases h
    exact ⟨fun i r h => absurd h (hnone i r), fun i r _ h => absurd h (hnone i r)⟩
  have hnoted := (stmts_marks p.body _ _ _ hbody).1.noted hstart
  have hentry : (s.allRecords p)[id]? = some (some r) := by
    unfold record? at hr
    rw [heq] at hr
    dsimp only at hr
    rw [hlist, List.getElem?_toArray] at hr
    rw [← Array.getElem?_toList, eq_map_of_allRecords hrecords, List.getElem?_map, hr]
    rfl
  unfold State.allRecords at hentry
  rw [Array.getElem?_setIfInBounds] at hentry
  split at hentry
  · rename_i hid
    subst hid
    split at hentry
    · cases hentry
      obtain ⟨hbindings, hchildren, -⟩ := Context.needs_toRecord hneed
      refine ⟨hbindings, hchildren, fun fn hfn => ?_⟩
      -- the number of the program itself is that of no literal
      obtain ⟨g, hg, hid, -⟩ := hp.literal_of_function? hfn
      have hrange := hp.numbered.within hg
      omega
    · cases hentry
  · obtain ⟨hbindings, hchildren, hthis⟩ := hnoted.needs id r hentry hneed
    refine ⟨hbindings, hchildren, fun fn hfn => hnoted.body id r fn hentry ?_ hthis⟩
    unfold function? at hfn
    rw [heq] at hfn
    rw [← hfunctions]
    exact Option.join_eq_some_iff.mp hfn

/-! ## Running activations -/

/-- The record asks for no scope. -/
def CodeUnit.Elides (u : CodeUnit) (id : Nat) : Prop :=
  ∃ r, u.record? id = some r ∧ r.requiresCapture = false

/-- Code in which `this` does not occur, on a condition. -/
def Parts.thisless (p : Prop) : Parts where
  name _ := True
  expr e := p → e.Thisless
  stmt t := p → t.Thisless
  jump _ _ := True
  expr_parts h _ he hp := (h hp).part he
  expr_ident _ := trivial
  stmt_exprs h _ he hp := (h hp).expr he
  stmt_names _ _ _ := trivial
  stmt_inside h _ ht hp := (h hp).part ht
  stmt_jumps _ _ _ := trivial
  failure _ := trivial
  pass _ _ := trivial

/-- A function whose record asks for no scope is without `this`. -/
def Atlas.thisless : Atlas where
  ofUnit _ := .thisless False
  ofFunction u id := .thisless (u.Elides id)
  code _ _ _ := False.elim
  closing := by
    intro a x y _ _ b os
    unfold Bodies.parts
    split <;> trivial

/-- Compiled units everywhere, with what is known of `this` in their functions. -/
def Regime.thisless : Regime .compiling :=
  { Regime.sited with
    atlas := .thisless
    lone := false
    covers := fun _ _ h => Provenance.covers (fun u hu id fn hfn t ht => by
      rintro ⟨r, hr, hneed⟩
      exact (CodeUnit.Compiled.elided hu hr hneed).2.2 fn hfn t ht _ _) h.code
    place := fun _ _ _ => False.elim }

end Fermata
