import Fermata.Code.Basic
import Fermata.Proofs.Resolve.Pass
import Fermata.Proofs.Machine.Parts

/-!
# What the pass checks about jumps

A `break` or `continue` addresses the innermost construct around it that stops it. `Spot.Settled`
says of a statement that every jump inside it has such a construct, and every `return` a function.

The pass counts loops and keeps a stack of labels, each with a note whether it stands on a loop. A
running body knows nothing of these: there, loops and labels stop jumps, and a loop is told its labels
when it starts. Both agree: what the pass lets through is settled (`CodeUnit.settled`).

* `Spot.Has`: the statements inside a statement, each with its owners.
* `Spot.settled_iff`: a statement is settled if it is so itself and everything directly inside it is.
* `Resolve.Stance`: what the pass knows when it meets a jump.
* `Resolve.Stance.Fits`: the stance agrees with the owners of a spot.
* `Resolve.stmt_settled`: a statement that the pass accepts is settled wherever its stance fits.
-/

namespace Fermata

/-! ## Jumps with an owner -/

/-- The spots at and inside a spot. -/
inductive Spot.Has : Spot → Spot → Prop
  | self (t : Spot) : Has t t
  | inside {t u v : Spot} : u ∈ t.inside → Has u v → Has t v

theorem Spot.Has.trans {t u v : Spot} (htu : t.Has u) (huv : u.Has v) : t.Has v := by
  induction htu with
  | self t => exact huv
  | inside hin _ ih => exact .inside hin (ih huv)

/-- The transfer is answered: a `return` by a function, a jump by one of the owners. -/
def Owned (inFunction : Bool) (os : List Owner) (x : Abrupt) : Prop :=
  match x with
  | .ret _ => inFunction = true
  | .leave _ | .next _ => ∃ o ∈ os, o.stops x = true
  | .thrown _ | .fault _ => True

/-- Every transfer at or inside the spot is answered. -/
def Spot.Settled (inFunction : Bool) (t : Spot) : Prop :=
  ∀ u, t.Has u → ∀ x, u.stmt.Jumps x → Owned inFunction u.owners x

namespace Spot

variable {b : Bool} {t : Spot}

theorem settled_iff : t.Settled b ↔
    (∀ x, t.stmt.Jumps x → Owned b t.owners x) ∧ ∀ u ∈ t.inside, u.Settled b := by
  refine ⟨fun h => ⟨fun x hx => h t (.self t) x hx, fun u hu v hv => h v (.inside hu hv)⟩, ?_⟩
  rintro ⟨hself, hinside⟩ u hu
  cases hu with
  | self => exact hself
  | inside hin hrest => exact hinside _ hin u hrest

/-- A statement that neither jumps nor has statements inside. -/
theorem settled_of_plain (hjumps : ∀ x, ¬t.stmt.Jumps x) (hinside : t.inside = []) :
    t.Settled b := by
  rw [settled_iff, hinside]
  exact ⟨fun x hx => absurd hx (hjumps x), nofun⟩

end Spot

/-- Every transfer in a body is answered. -/
def SettledBody (inFunction : Bool) (body : List Stmt) : Prop :=
  ∀ t ∈ body, Spot.Settled inFunction ⟨[], [], t⟩

/-! ## The pass -/

open Resolve

namespace Resolve

variable {α β : Type}

/-- What the pass knows about jumps in a function. -/
structure Stance where
  isRoot : Bool
  labels : List (String × Bool)
  loopDepth : Nat

/-- The stance of a context. -/
def Context.stance (ctx : Context) : Stance := ⟨ctx.isRoot, ctx.labels, ctx.loopDepth⟩

/-- Inside one more loop. -/
def Stance.inLoop (k : Stance) : Stance := { k with loopDepth := k.loopDepth + 1 }

/-- Under one more label. -/
def Stance.under (k : Stance) (label : String) (isLoop : Bool) : Stance :=
  { k with labels := (label, isLoop) :: k.labels }

/-- The stances are these, and every finished function is settled and stands under its number. -/
structure Stands (K : List Stance) (s : State) : Prop where
  stack : s.stack.map Context.stance = K
  functions : ∀ (i : Nat) (fn : FunctionNode), s.functions[i]? = some (some fn) →
    fn.id = i ∧ SettledBody true fn.body

/-- A step of the pass that leaves the stances, and gives only what `Q` allows. -/
def Holds (K : List Stance) (p : Pass α) (Q : α → Prop) : Prop :=
  Gives (Stands K) p fun a s => Stands K s ∧ Q a

variable {K : List Stance} {k : Stance} {Q : α → Prop} {R : β → Prop}

theorem Holds.pure {a : α} (ha : Q a) : Holds K (Pure.pure a) Q :=
  Gives.pure fun _ hs => ⟨hs, ha⟩

theorem Holds.bind {p : Pass α} {q : α → Pass β} (hp : Holds K p Q)
    (hq : ∀ a, Q a → Holds K (q a) R) : Holds K (p >>= q) R :=
  Gives.bind hp fun a s b s' hs heq => hq a hs.2 s b s' hs.1 heq

/-- A change of the stack that leaves the stances. -/
theorem Stands.withStack {s : State} (hs : Stands K s) {stack : List Context}
    (hstack : stack.map Context.stance = K) : Stands K { s with stack } :=
  ⟨hstack, hs.functions⟩

theorem modifyTop_holds {f : Context → Context} (hf : ∀ ctx, (f ctx).stance = ctx.stance) :
    Holds K (modifyTop f) fun _ => True := by
  refine Gives.modify fun s hs => ⟨?_, trivial⟩
  cases hstack : s.stack with
  | nil => exact hs
  | cons ctx rest =>
    refine hs.withStack ?_
    rw [← hs.stack, hstack, List.map_cons, List.map_cons, hf]

/-! ## Names -/

theorem referIn_stance (name : String) (stack stack' : List Context)
    (h : referIn name stack = some stack') :
    stack'.map Context.stance = stack.map Context.stance := by
  induction stack generalizing stack' with
  | nil => cases h
  | cons ctx rest ih =>
    unfold referIn at h
    split at h
    · cases h
    · split at h
      · cases h
        rfl
      · obtain ⟨rest', hrest, rfl⟩ := Option.map_eq_some_iff.mp h
        rw [List.map_cons, List.map_cons, ih rest' hrest]

theorem referStack_stance (name : String) (stack : List Context) :
    (referStack name stack).1.map Context.stance = stack.map Context.stance := by
  unfold referStack
  split
  · split
    · rfl
    · split
      next stack' h => exact referIn_stance name _ _ h
      next => rfl
  · rfl

theorem resolve_holds (name : String) : Holds K (resolve name) fun _ => True := by
  refine Gives.bind (Q := fun t s => t = s ∧ Stands K s) (Gives.get fun s hs => ⟨rfl, hs⟩) fun t => ?_
  refine Gives.bind (Q := fun _ s => Stands K s) (Gives.set fun s hs => ?_) fun _ =>
    Gives.pure fun s hs => ⟨hs, trivial⟩
  obtain ⟨rfl, hs⟩ := hs
  exact hs.withStack ((referStack_stance name _).trans hs.stack)

theorem identifier_holds (name : String) (span : Span) :
    Holds K (identifier name span) fun _ => True := by
  refine (resolve_holds name).bind fun bound _ => ?_
  split
  · exact Holds.pure trivial
  · split
    · refine Holds.bind (Q := fun _ => True) (Gives.modify fun s hs => ⟨?_, trivial⟩) fun _ _ =>
        Holds.pure trivial
      refine hs.withStack ?_
      rw [← hs.stack, List.map_map]
      refine List.map_congr_left fun ctx _ => ?_
      simp only [Function.comp_apply]
      split <;> rfl
    · exact Holds.pure trivial

theorem rootTarget_holds (name : String) (span : Span) :
    Holds K (rootTarget name span) fun _ => True := by
  refine Gives.bind (Q := fun _ s => Stands K s) (Gives.get fun s hs => hs) fun t => ?_
  split <;> exact Holds.pure trivial

theorem top_holds : Holds (k :: K) top fun ctx => ctx.stance = k := by
  refine Gives.bind (Q := fun t s => t = s ∧ Stands (k :: K) s) (Gives.get fun s hs => ⟨rfl, hs⟩)
    fun t => Gives.pure fun s hs => ?_
  obtain ⟨rfl, hs⟩ := hs
  refine ⟨hs, ?_⟩
  obtain ⟨ctx, rest, hstack, hctx, -⟩ := List.map_eq_cons_iff.mp hs.stack
  rw [hstack, List.headD_cons]
  exact hctx

theorem atRoot_holds : Holds (k :: K) atRoot fun b => b = k.isRoot :=
  top_holds.bind fun _ hctx => Holds.pure (congrArg Stance.isRoot hctx)

/-! ## Functions, loops and labels -/

theorem enter_gives (fn : FunctionNode) :
    Gives (Stands K) (enter fn) fun _ s => Stands (⟨false, [], 0⟩ :: K) s := by
  refine Gives.bind (modifyTop_holds fun ctx => ?_) fun _ => Gives.modify fun s hs => ?_
  · split <;> rfl
  · have hnew : (Context.ofFunction fn).stance = ⟨false, [], 0⟩ := by
      have hfold : ∀ (names : List String) (ctx : Context),
          (names.foldl Context.declare ctx).stance = ctx.stance := by
        intro names
        induction names with
        | nil => exact fun _ => rfl
        | cons name names ih => exact fun ctx => ih _
      unfold Context.ofFunction
      dsimp only
      split
      · split
        · exact hfold _ _
        · exact hfold _ _
      · exact hfold _ _
    exact ⟨by rw [List.map_cons, hnew, hs.1.stack], hs.1.functions⟩

theorem leave_gives (fn : FunctionNode) (hfn : SettledBody true fn.body) :
    Gives (Stands (k :: K)) (leave fn) fun _ s => Stands K s := by
  refine Gives.bind top_holds fun ctx => Gives.modify fun s hs => ⟨?_, fun i g hg => ?_⟩
  · rw [List.map_tail, hs.1.stack, List.tail_cons]
  · rw [Array.getElem?_setIfInBounds] at hg
    split at hg
    · rename_i hi
      split at hg
      · cases hg
        exact ⟨hi, hfn⟩
      · cases hg
    · exact hs.1.functions i g hg

/-- A change of the innermost stance and back. -/
theorem bracket_holds {p : Pass α} {f g : Context → Context} {k' : Stance}
    (hf : ∀ ctx, ctx.stance = k → (f ctx).stance = k')
    (hg : ∀ ctx, ctx.stance = k' → (g ctx).stance = k) (hp : Holds (k' :: K) p Q) :
    Holds (k :: K) (do modifyTop f; let a ← p; modifyTop g; return a) Q := by
  have hchange : ∀ {f : Context → Context} {k k' : Stance},
      (∀ ctx, ctx.stance = k → (f ctx).stance = k') →
      Gives (Stands (k :: K)) (modifyTop f) fun _ s => Stands (k' :: K) s := by
    intro f k k' hf
    refine Gives.modify fun s hs => ?_
    obtain ⟨ctx, rest, hstack, hctx, hrest⟩ := List.map_eq_cons_iff.mp hs.stack
    rw [hstack]
    exact ⟨by rw [List.map_cons, hf ctx hctx, hrest], hs.functions⟩
  refine (hchange hf).bind fun _ => Gives.bind hp fun a s b s' hs heq => ?_
  have hback : Gives (Stands (k' :: K)) (do modifyTop g; return a)
      fun b s => Stands (k :: K) s ∧ Q b :=
    (hchange hg).bind fun _ => Gives.pure fun _ hs' => ⟨hs', hs.2⟩
  exact hback s b s' hs.1 heq

theorem inLoop_holds {p : Pass α} (hp : Holds (k.inLoop :: K) p Q) :
    Holds (k :: K) (inLoop p) Q := by
  refine bracket_holds (fun ctx h => ?_) (fun ctx h => ?_) hp
  · rw [← h]
    rfl
  · obtain ⟨isRoot, labels, loopDepth⟩ := k
    simp only [Context.stance, Stance.inLoop, Stance.mk.injEq] at h ⊢
    exact ⟨h.1, h.2.1, by omega⟩

theorem underLabel_holds {p : Pass α} {label : String} {isLoop : Bool}
    (hp : Holds (k.under label isLoop :: K) p Q) :
    Holds (k :: K) (underLabel label isLoop p) Q := by
  refine bracket_holds (fun ctx h => ?_) (fun ctx h => ?_) hp
  · rw [← h]
    rfl
  · obtain ⟨isRoot, labels, loopDepth⟩ := k
    simp only [Context.stance, Stance.under, Stance.mk.injEq] at h ⊢
    exact ⟨h.1, by rw [h.2.1, List.tail_cons], h.2.2⟩

/-! ## Stances and owners -/

/-- What the pass knows agrees with the owners `os` of a spot and the labels `ls` attached to it;
`loopy` says that the labels stand on a loop. -/
structure Stance.Fits (k : Stance) (os : List Owner) (ls : List String) (loopy : Bool) : Prop where
  loop : 0 < k.loopDepth → ∃ labels, .loop labels ∈ os
  label : ∀ l b, (l, b) ∈ k.labels → .label l ∈ os
  /-- A label on a loop is known to a loop around the spot, or is on its way to one. -/
  next : ∀ l, (l, true) ∈ k.labels →
    (∃ labels, .loop labels ∈ os ∧ l ∈ labels) ∨ loopy = true ∧ l ∈ ls

namespace Stance.Fits

variable {os : List Owner} {ls : List String} {b : Bool}

/-- A statement that labels do not lead to a loop through. -/
theorem plain (h : k.Fits os ls false) (ls' : List String) (b' : Bool) : k.Fits os ls' b' where
  loop := h.loop
  label := h.label
  next l hl := (h.next l hl).imp_right fun hn => absurd hn.1 Bool.false_ne_true

theorem inLoop (h : k.Fits os ls b) (ls' : List String) (b' : Bool) :
    k.inLoop.Fits (.loop ls :: os) ls' b' where
  loop _ := ⟨ls, List.mem_cons_self⟩
  label l c hl := List.mem_cons_of_mem _ (h.label l c hl)
  next l hl := by
    rcases h.next l hl with ⟨labels, hin, hmem⟩ | ⟨-, hmem⟩
    · exact .inl ⟨labels, List.mem_cons_of_mem _ hin, hmem⟩
    · exact .inl ⟨ls, List.mem_cons_self, hmem⟩

theorem under {body : Stmt} (h : k.Fits os ls body.labelsLoop) (l : String)
    (ls' : List String) (hls : body.labelsLoop = true → ls' = ls ++ [l]) :
    (k.under l body.labelsLoop).Fits (.label l :: os) ls' body.labelsLoop where
  loop hd := by
    obtain ⟨labels, hin⟩ := h.loop hd
    exact ⟨labels, List.mem_cons_of_mem _ hin⟩
  label m c hm := by
    rcases List.mem_cons.mp hm with heq | hm
    · cases heq
      exact List.mem_cons_self
    · exact List.mem_cons_of_mem _ (h.label m c hm)
  next m hm := by
    rcases List.mem_cons.mp hm with heq | hm
    · obtain ⟨rfl, hloop⟩ := Prod.mk.inj heq
      refine .inr ⟨hloop.symm, ?_⟩
      rw [hls hloop.symm]
      exact List.mem_append_right _ List.mem_cons_self
    · rcases h.next m hm with ⟨labels, hin, hmem⟩ | ⟨hloop, hmem⟩
      · exact .inl ⟨labels, List.mem_cons_of_mem _ hin, hmem⟩
      · refine .inr ⟨hloop, ?_⟩
        rw [hls hloop]
        exact List.mem_append_left _ hmem

/-- At the start of a body there is nothing to know. -/
theorem start (isRoot : Bool) (b : Bool) : Stance.Fits ⟨isRoot, [], 0⟩ [] [] b where
  loop hd := absurd hd (Nat.lt_irrefl 0)
  label _ _ hl := absurd hl List.not_mem_nil
  next _ hl := absurd hl List.not_mem_nil

end Stance.Fits

theorem checkBreak_holds (label : Option String) (span : Span) :
    Holds (k :: K) (checkBreak label span) fun _ =>
      ∀ os ls b c, k.Fits os ls b → Owned c os (.leave label) := by
  refine top_holds.bind fun ctx hctx => ?_
  subst hctx
  cases label with
  | none =>
    dsimp only
    split
    · rename_i hdepth
      refine Holds.pure fun os ls b c hfit => ?_
      obtain ⟨labels, hin⟩ := hfit.loop hdepth
      exact ⟨_, hin, rfl⟩
    · exact Gives.refuse
  | some l =>
    dsimp only
    split
    · rename_i hany
      refine Holds.pure fun os ls b c hfit => ?_
      obtain ⟨⟨m, d⟩, hin, heq⟩ := List.any_eq_true.mp hany
      have hm : m = l := eq_of_beq heq
      subst hm
      exact ⟨_, hfit.label m d hin, decide_eq_true rfl⟩
    · exact Gives.refuse

theorem checkContinue_holds (label : Option String) (span : Span) :
    Holds (k :: K) (checkContinue label span) fun _ =>
      ∀ os ls c, k.Fits os ls false → Owned c os (.next label) := by
  refine top_holds.bind fun ctx hctx => ?_
  subst hctx
  cases label with
  | none =>
    dsimp only
    split
    · rename_i hdepth
      refine Holds.pure fun os ls c hfit => ?_
      obtain ⟨labels, hin⟩ := hfit.loop hdepth
      exact ⟨_, hin, rfl⟩
    · exact Gives.refuse
  | some l =>
    dsimp only
    split
    · rename_i hany
      refine Holds.pure fun os ls c hfit => ?_
      obtain ⟨⟨m, d⟩, hin, heq⟩ := List.any_eq_true.mp hany
      obtain ⟨hm, hd⟩ := Bool.and_eq_true_iff.mp heq
      have hm : m = l := eq_of_beq hm
      subst hm
      obtain rfl : d = true := hd
      rcases hfit.next m hin with ⟨labels, hloop, hmem⟩ | ⟨hfalse, -⟩
      · exact ⟨_, hloop, List.contains_iff_mem.mpr hmem⟩
      · exact absurd hfalse Bool.false_ne_true
    · exact Gives.refuse

/-! ## The walk -/

/-- The resolved statement takes labels as the source does, and is settled wherever its stance
fits. -/
def SettledAs (k : Stance) (t t' : Stmt) : Prop :=
  t'.labelsLoop = t.labelsLoop ∧ Act.passesLabels t' = Act.passesLabels t ∧
    ∀ os ls, k.Fits os ls t.labelsLoop → Spot.Settled (!k.isRoot) ⟨os, ls, t'⟩

/-- The statement is settled wherever no labels are attached to it. -/
def SettledIn (k : Stance) (t : Stmt) : Prop :=
  ∀ os, k.Fits os [] false → Spot.Settled (!k.isRoot) ⟨os, [], t⟩

theorem SettledAs.settledIn {t t' : Stmt} (h : SettledAs k t t') : SettledIn k t' :=
  fun os hfit => h.2.2 os [] (hfit.plain [] _)

theorem labelsLoop_passes {t : Stmt} (h : t.labelsLoop = true) : Act.passesLabels t = true := by
  cases t <;> first | rfl | exact absurd h Bool.false_ne_true

theorem SettledAs.plain {t t' : Stmt} (hloop : t'.labelsLoop = t.labelsLoop)
    (hpass : Act.passesLabels t' = Act.passesLabels t) (hjumps : ∀ x, ¬t'.Jumps x)
    (hinside : ∀ os ls, Spot.inside ⟨os, ls, t'⟩ = []) : SettledAs k t t' :=
  ⟨hloop, hpass, fun os ls _ => Spot.settled_of_plain hjumps (hinside os ls)⟩

theorem SettledAs.loop {t t' body body' : Stmt} (hloop : t'.isLoop = true) (hsrc : t.isLoop = true)
    (hbody : SettledAs k.inLoop body body') (hjumps : ∀ x, ¬t'.Jumps x)
    (hinside : ∀ os ls, Spot.inside ⟨os, ls, t'⟩ = [⟨.loop ls :: os, [], body'⟩]) :
    SettledAs k t t' := by
  have hlabels : ∀ {t : Stmt}, t.isLoop = true → t.labelsLoop = true ∧ Act.passesLabels t = true :=
    fun {t} ht => by cases t <;> first | exact ⟨rfl, rfl⟩ | cases ht
  refine ⟨(hlabels hloop).1.trans (hlabels hsrc).1.symm, (hlabels hloop).2.trans (hlabels hsrc).2.symm,
    fun os ls hfit => Spot.settled_iff.mpr ⟨fun x hx => absurd hx (hjumps x), ?_⟩⟩
  rw [hinside]
  intro u hu
  rw [List.mem_singleton.mp hu]
  exact hbody.2.2 _ _ (hfit.inLoop [] _)

mutual

theorem expr_holds (K : List Stance) (e : Expr) : Holds K (expr e) fun _ => True := by
  match e with
  | .ident s name =>
    rw [expr]
    exact identifier_holds name s
  | .this s =>
    rw [expr]
    have hthis : Holds K (modifyTop fun ctx => { ctx with usesThis := true }) fun _ => True :=
      modifyTop_holds fun _ => rfl
    exact hthis.bind fun _ _ => Holds.pure trivial
  | .function s fn =>
    rw [expr]
    exact (function_holds K fn).bind fun _ _ => Holds.pure trivial
  | .array s es =>
    rw [expr]
    exact (exprs_holds K es).bind fun _ _ => Holds.pure trivial
  | .object s ps =>
    rw [expr]
    exact (properties_holds K ps).bind fun _ _ => Holds.pure trivial
  | .member s o key i =>
    rw [expr]
    refine (expr_holds K o).bind fun _ _ => ?_
    exact (memberKey_holds K key).bind fun _ _ => Holds.pure trivial
  | .call s f args | .construct s f args =>
    rw [expr]
    refine (expr_holds K f).bind fun _ _ => ?_
    exact (exprs_holds K args).bind fun _ _ => Holds.pure trivial
  | .unary s op a =>
    rw [expr]
    exact (expr_holds K a).bind fun _ _ => Holds.pure trivial
  | .update s op b t =>
    rw [expr]
    exact (expr_holds K t).bind fun _ _ => Holds.pure trivial
  | .binary s op l r | .logical s op l r | .assign s op l r =>
    rw [expr]
    refine (expr_holds K l).bind fun _ _ => ?_
    exact (expr_holds K r).bind fun _ _ => Holds.pure trivial
  | .conditional s t y n =>
    rw [expr]
    refine (expr_holds K t).bind fun _ _ => ?_
    refine (expr_holds K y).bind fun _ _ => ?_
    exact (expr_holds K n).bind fun _ _ => Holds.pure trivial
  | .sequence s es =>
    rw [expr]
    exact (exprs_holds K es).bind fun _ _ => Holds.pure trivial
  | .number s v | .string s v | .bool s v =>
    rw [expr]
    exact Holds.pure trivial
  | .null s =>
    rw [expr]
    exact Holds.pure trivial

theorem exprs_holds (K : List Stance) (es : List Expr) : Holds K (exprs es) fun _ => True := by
  match es with
  | [] =>
    rw [exprs]
    exact Holds.pure trivial
  | e :: es =>
    rw [exprs]
    refine (expr_holds K e).bind fun _ _ => ?_
    exact (exprs_holds K es).bind fun _ _ => Holds.pure trivial

theorem optionalExpr_holds (K : List Stance) (e : Option Expr) :
    Holds K (optionalExpr e) fun _ => True := by
  match e with
  | none =>
    rw [optionalExpr]
    exact Holds.pure trivial
  | some e =>
    rw [optionalExpr]
    exact (expr_holds K e).bind fun _ _ => Holds.pure trivial

theorem memberKey_holds (K : List Stance) (key : MemberKey) :
    Holds K (memberKey key) fun _ => True := by
  match key with
  | .named name =>
    rw [memberKey]
    exact Holds.pure trivial
  | .computed e =>
    rw [memberKey]
    exact (expr_holds K e).bind fun _ _ => Holds.pure trivial

theorem properties_holds (K : List Stance) (ps : List PropertyDef) :
    Holds K (properties ps) fun _ => True := by
  match ps with
  | [] =>
    rw [properties]
    exact Holds.pure trivial
  | ⟨key, value, span⟩ :: ps =>
    rw [properties]
    refine (expr_holds K value).bind fun _ _ => ?_
    exact (properties_holds K ps).bind fun _ _ => Holds.pure trivial

theorem function_holds (K : List Stance) (fn : FunctionNode) :
    Holds K (function fn) fun _ => True := by
  match fn with
  | ⟨id, name, params, body, isDeclaration, span⟩ =>
    rw [function]
    refine (enter_gives _).bind fun _ => ?_
    refine Gives.bind (stmts_settled ⟨false, [], 0⟩ K body) fun body' s fn s' hs heq => ?_
    have hbody : SettledBody true body' := fun t ht => hs.2 t ht [] (Stance.Fits.start false false)
    have hend : Gives (Stands (⟨false, [], 0⟩ :: K))
        (do leave ⟨id, name, params, body', isDeclaration, span⟩
            return (⟨id, name, params, body', isDeclaration, span⟩ : FunctionNode))
        fun _ s => Stands K s ∧ True :=
      (leave_gives _ hbody).bind fun _ => Gives.pure fun _ hs' => ⟨hs', trivial⟩
    exact hend s fn s' hs.1 heq

theorem assignments_holds (K : List Stance) (ds : List VarDecl) :
    Holds K (assignments ds) fun _ => True := by
  match ds with
  | [] =>
    rw [assignments]
    exact Holds.pure trivial
  | ⟨name, init, span⟩ :: ds =>
    rw [assignments]
    refine (optionalExpr_holds K init).bind fun _ _ => (rootTarget_holds name span).bind fun _ _ => ?_
    exact (assignments_holds K ds).bind fun _ _ => Holds.pure trivial

theorem localDecls_holds (K : List Stance) (ds : List VarDecl) :
    Holds K (localDecls ds) fun _ => True := by
  match ds with
  | [] =>
    rw [localDecls]
    exact Holds.pure trivial
  | ⟨_, none, _⟩ :: ds =>
    rw [localDecls]
    exact localDecls_holds K ds
  | ⟨name, some init, span⟩ :: ds =>
    rw [localDecls]
    refine (resolve_holds name).bind fun _ _ => (expr_holds K init).bind fun _ _ => ?_
    exact (localDecls_holds K ds).bind fun _ _ => Holds.pure trivial

theorem forInit_holds (k : Stance) (K : List Stance) (span : Span) (init : Option ForInit) :
    Holds (k :: K) (forInit span init) fun _ => True := by
  match init with
  | none =>
    rw [forInit]
    exact Holds.pure trivial
  | some (.expression e) =>
    rw [forInit]
    exact (expr_holds _ e).bind fun _ _ => Holds.pure trivial
  | some (.declare ds) =>
    rw [forInit]
    refine atRoot_holds.bind fun root _ => ?_
    split
    · exact (assignments_holds _ ds).bind fun _ _ => Holds.pure trivial
    · refine (localDecls_holds _ ds).bind fun ds' _ => ?_
      split <;> exact Holds.pure trivial

theorem forTarget_holds (k : Stance) (K : List Stance) (target : ForTarget) :
    Holds (k :: K) (forTarget target) fun _ => True := by
  match target with
  | .expression e =>
    rw [forTarget]
    exact (expr_holds _ e).bind fun _ _ => Holds.pure trivial
  | .declare span name =>
    rw [forTarget]
    refine atRoot_holds.bind fun root _ => ?_
    split
    · exact (rootTarget_holds name span).bind fun _ _ => Holds.pure trivial
    · exact (resolve_holds name).bind fun _ _ => Holds.pure trivial

theorem handler_holds (k : Stance) (K : List Stance) (h : Option CatchClause) :
    Holds (k :: K) (handler h) fun _ => True := by
  match h with
  | none =>
    rw [handler]
    exact Holds.pure trivial
  | some ⟨param, body⟩ =>
    rw [handler]
    exact (stmt_settled k K body).bind fun _ _ => Holds.pure trivial

theorem optionalStmt_settled (k : Stance) (K : List Stance) (t : Option Stmt) :
    Holds (k :: K) (optionalStmt t) fun r => ∀ t', r = some t' → SettledIn k t' := by
  match t with
  | none =>
    rw [optionalStmt]
    exact Holds.pure nofun
  | some t =>
    rw [optionalStmt]
    refine (stmt_settled k K t).bind fun t' ht' => Holds.pure fun u hu => ?_
    cases hu
    exact ht'.settledIn

/-- A statement that the pass accepts is settled wherever its stance fits. -/
theorem stmt_settled (k : Stance) (K : List Stance) (t : Stmt) :
    Holds (k :: K) (stmt t) (SettledAs k t) := by
  match t with
  | .expression s e =>
    rw [stmt]
    exact (expr_holds _ e).bind fun _ _ =>
      Holds.pure (.plain rfl rfl (fun _ => not_false) fun _ _ => rfl)
  | .declare s ds =>
    rw [stmt]
    refine atRoot_holds.bind fun root _ => ?_
    split
    · exact (assignments_holds _ ds).bind fun _ _ =>
        Holds.pure (.plain rfl rfl (fun _ => not_false) fun _ _ => rfl)
    · refine (localDecls_holds _ ds).bind fun ds' _ => ?_
      split <;> exact Holds.pure (.plain rfl rfl (fun _ => not_false) fun _ _ => rfl)
  | .function s fn =>
    rw [stmt]
    exact (function_holds _ fn).bind fun _ _ =>
      Holds.pure (.plain rfl rfl (fun _ => not_false) fun _ _ => rfl)
  | .ret s arg =>
    rw [stmt]
    refine atRoot_holds.bind fun root hroot => ?_
    split
    · exact Gives.bind (Q := fun _ _ => False) Gives.refuse fun _ _ _ _ hs => hs.elim
    · rename_i hfunction
      refine (optionalExpr_holds _ arg).bind fun arg' _ => Holds.pure ⟨rfl, rfl, fun os ls _ => ?_⟩
      refine Spot.settled_iff.mpr ⟨fun x hx => ?_, nofun⟩
      obtain ⟨v, rfl⟩ := hx
      rw [hroot] at hfunction
      simpa [Owned] using hfunction
  | .cond s test yes no =>
    rw [stmt]
    refine (expr_holds _ test).bind fun _ _ => ?_
    refine (stmt_settled k K yes).bind fun yes' hyes => ?_
    refine (optionalStmt_settled k K no).bind fun no' hno => Holds.pure ⟨rfl, rfl, fun os ls hfit => ?_⟩
    refine Spot.settled_iff.mpr ⟨fun x hx => hx.elim, fun u hu => ?_⟩
    rcases List.mem_cons.mp hu with rfl | hu
    · exact hyes.settledIn os (hfit.plain _ _)
    · obtain ⟨t', ht', rfl⟩ := List.mem_map.mp hu
      exact hno t' (Option.mem_toList.mp ht') os (hfit.plain _ _)
  | .whileLoop s test body =>
    rw [stmt]
    refine (expr_holds _ test).bind fun _ _ => ?_
    refine (inLoop_holds (stmt_settled k.inLoop K body)).bind fun body' hbody => ?_
    exact Holds.pure (.loop rfl rfl hbody (fun _ => not_false) fun _ _ => rfl)
  | .doLoop s body test =>
    rw [stmt]
    refine (inLoop_holds (stmt_settled k.inLoop K body)).bind fun body' hbody => ?_
    refine (expr_holds _ test).bind fun _ _ => ?_
    exact Holds.pure (.loop rfl rfl hbody (fun _ => not_false) fun _ _ => rfl)
  | .forLoop s init test update body =>
    rw [stmt]
    refine (forInit_holds k K s init).bind fun _ _ => ?_
    refine (optionalExpr_holds _ test).bind fun _ _ => ?_
    refine (optionalExpr_holds _ update).bind fun _ _ => ?_
    refine (inLoop_holds (stmt_settled k.inLoop K body)).bind fun body' hbody => ?_
    exact Holds.pure (.loop rfl rfl hbody (fun _ => not_false) fun _ _ => rfl)
  | .forEach s kind target source body =>
    rw [stmt]
    refine (forTarget_holds k K target).bind fun _ _ => ?_
    refine (expr_holds _ source).bind fun _ _ => ?_
    refine (inLoop_holds (stmt_settled k.inLoop K body)).bind fun body' hbody => ?_
    exact Holds.pure (.loop rfl rfl hbody (fun _ => not_false) fun _ _ => rfl)
  | .leave s label =>
    rw [stmt]
    refine (checkBreak_holds label s).bind fun _ howned => Holds.pure ⟨rfl, rfl, fun os ls hfit => ?_⟩
    refine Spot.settled_iff.mpr ⟨fun x hx => ?_, nofun⟩
    obtain rfl : x = .leave label := hx
    exact howned os ls _ _ hfit
  | .next s label =>
    rw [stmt]
    refine (checkContinue_holds label s).bind fun _ howned =>
      Holds.pure ⟨rfl, rfl, fun os ls hfit => ?_⟩
    refine Spot.settled_iff.mpr ⟨fun x hx => ?_, nofun⟩
    obtain rfl : x = .next label := hx
    exact howned os ls _ hfit
  | .raise s arg =>
    rw [stmt]
    exact (expr_holds _ arg).bind fun _ _ =>
      Holds.pure (.plain rfl rfl (fun _ => not_false) fun _ _ => rfl)
  | .guarded s block h finalizer =>
    rw [stmt]
    refine (stmt_settled k K block).bind fun _ _ => ?_
    refine (handler_holds k K h).bind fun _ _ => ?_
    exact (optionalStmt_settled k K finalizer).bind fun _ _ =>
      Holds.pure (.plain rfl rfl (fun _ => not_false) fun _ _ => rfl)
  | .labeled s label body =>
    rw [stmt]
    refine (underLabel_holds (stmt_settled (k.under label body.labelsLoop) K body)).bind
      fun body' hbody => Holds.pure ⟨hbody.1, rfl, fun os ls hfit => ?_⟩
    refine Spot.settled_iff.mpr ⟨fun x hx => hx.elim, fun u hu => ?_⟩
    rw [List.mem_singleton.mp hu]
    refine hbody.2.2 _ _ (hfit.under label _ fun hloop => ?_)
    rw [if_pos (hbody.2.1.trans (labelsLoop_passes hloop))]
  | .block s body =>
    rw [stmt]
    refine (stmts_settled k K body).bind fun body' hbody => Holds.pure ⟨rfl, rfl, fun os ls hfit => ?_⟩
    refine Spot.settled_iff.mpr ⟨fun x hx => hx.elim, fun u hu => ?_⟩
    obtain ⟨t', ht', rfl⟩ := List.mem_map.mp hu
    exact hbody t' ht' os (hfit.plain _ _)
  | .empty s =>
    rw [stmt]
    exact Holds.pure (.plain rfl rfl (fun _ => not_false) fun _ _ => rfl)

theorem stmts_settled (k : Stance) (K : List Stance) (ts : List Stmt) :
    Holds (k :: K) (stmts ts) fun ts' => ∀ t' ∈ ts', SettledIn k t' := by
  match ts with
  | [] =>
    rw [stmts]
    exact Holds.pure nofun
  | t :: ts =>
    rw [stmts]
    refine (stmt_settled k K t).bind fun t' ht' => ?_
    refine (stmts_settled k K ts).bind fun ts' hts' => Holds.pure fun u hu => ?_
    rcases List.mem_cons.mp hu with rfl | hu
    · exact ht'.settledIn
    · exact hts' u hu

end

end Resolve

/-- The unit was made from a tree that the pass accepts. -/
def CodeUnit.Accepted (u : CodeUnit) : Prop :=
  ∃ source p outer, CodeUnit.ofProgram source p outer = .ok u

namespace CodeUnit

theorem accepted_compile {source : String} {outer : List String} {u : CodeUnit}
    (h : compile source outer = .ok u) : u.Accepted := by
  obtain ⟨p, -, hp⟩ := compile_ok h
  exact ⟨source, p, outer, hp⟩

/-- **What the pass accepts is settled**, at the top level and in every function, and the functions
of a unit stand under their numbers. -/
theorem Accepted.settled {u : CodeUnit} (h : u.Accepted) :
    SettledBody false u.program.body ∧
      ∀ id fn, u.function? id = some fn → fn.id = id ∧ SettledBody true fn.body := by
  obtain ⟨source, p, outer, h⟩ := h
  obtain ⟨r, hr, rfl⟩ := ofProgram_ok h
  obtain ⟨s, records, hbody, -, -, hfunctions⟩ := program_ok hr
  have hstart : Stands [⟨true, [], 0⟩] (State.start p outer) := by
    refine ⟨rfl, fun i fn hfn => ?_⟩
    simp only [State.start, Array.getElem?_replicate] at hfn
    split at hfn <;> cases hfn
  obtain ⟨hs, hsettled⟩ := stmts_settled ⟨true, [], 0⟩ [] p.body _ _ _ hstart hbody
  refine ⟨fun t ht => hsettled t ht [] (Stance.Fits.start true false), fun id fn hfn => ?_⟩
  refine hs.functions id fn ?_
  rw [← hfunctions]
  exact Option.join_eq_some_iff.mp hfn

end CodeUnit

end Fermata
