import Fermata.Proofs.Name.Walk

/-!
# Names that are met again

The compiler resolves a name each time it meets it. The first time, it may keep a binding for it or let all
functions around keep theirs. The second time it learns nothing new, and makes the same of the name.

* `Expr.ofName`: what the compiler makes of a name.
* `Resolve.identifier_eq`, `Resolve.identifier_met`: the first and the second time.
* `Resolve.expr_assign`, `Resolve.expr_assign_binary`, `Resolve.expr_logical_assign`: assignments to a name,
  and what they stand for.
-/

namespace Fermata

/-! ## References -/

namespace Resolve

theorem addName_addName (names : List String) (x : String) :
    addName (addName names x) x = addName names x :=
  if_pos (List.contains_iff_mem.mpr (mem_addName.mpr (.inr rfl)))

theorem Context.refer_refer (ctx : Context) (x : String) : (ctx.refer x).refer x = ctx.refer x :=
  congrArg (fun referenced => { ctx with referenced }) (addName_addName ctx.referenced x)

theorem referIn_referIn {x : String} {cs ds : List Context} (h : referIn x cs = some ds) :
    referIn x ds = some ds := by
  induction cs generalizing ds with
  | nil => cases h
  | cons c cs ih =>
    unfold referIn at h
    split at h
    · cases h
    next hroot =>
      split at h
      next hdecl =>
        cases h
        unfold referIn
        rw [if_neg (show ¬(c.refer x).isRoot = true from hroot),
          if_pos (show (c.refer x).declares x = true from hdecl), Context.refer_refer]
      next hdecl =>
        obtain ⟨ds, hds, rfl⟩ := Option.map_eq_some_iff.mp h
        unfold referIn
        rw [if_neg hroot, if_neg hdecl, ih hds]
        rfl

theorem referIn_head {x : String} {c : Context} {cs ds : List Context} (h : referIn x (c :: cs) = some ds) :
    ∃ d es, ds = d :: es ∧ d.isRoot = c.isRoot := by
  unfold referIn at h
  split at h
  · cases h
  · split at h
    · cases h
      exact ⟨_, _, rfl, rfl⟩
    · obtain ⟨es, -, rfl⟩ := Option.map_eq_some_iff.mp h
      exact ⟨_, _, rfl, rfl⟩

/-- **A name that is met again has been referred to.** -/
theorem referStack_referStack (x : String) (cs : List Context) :
    referStack x (referStack x cs).1 = referStack x cs := by
  cases cs with
  | nil => rfl
  | cons c cs =>
    by_cases hx : x = argumentsName ∧ c.isRoot = false
    · have hfirst : referStack x (c :: cs) = ((c.declare x).refer x :: cs, true) := if_pos hx
      have hagain : ((((c.declare x).refer x).declare x).refer x) = (c.declare x).refer x := by
        unfold Context.declare Context.refer
        dsimp only
        rw [addName_addName, addName_addName]
      rw [hfirst]
      refine (if_pos (show x = argumentsName ∧ ((c.declare x).refer x).isRoot = false from hx)).trans ?_
      rw [hagain]
    · cases hin : referIn x (c :: cs) with
      | none =>
        have hfirst : referStack x (c :: cs) = (c :: cs, false) := by
          rw [referStack, if_neg hx, hin]
        rw [hfirst, hfirst]
      | some ds =>
        obtain ⟨d, es, rfl, hroot⟩ := referIn_head hin
        have hfirst : referStack x (c :: cs) = (d :: es, true) := by
          rw [referStack, if_neg hx, hin]
        rw [hfirst, referStack, if_neg (hroot ▸ hx), referIn_referIn hin]

end Resolve

/-- What the compiler makes of a name: the name itself, if something binds it or it is reserved, and a member
of the global object otherwise. -/
def Expr.ofName (bound : Bool) (x : String) (span : Span) : Expr :=
  if bound then .ident span x else Resolve.globalMember x span true

namespace Resolve

/-! ## Names -/

/-- A context in which all names are kept. -/
def Context.keeping (c : Context) : Context := if c.isRoot then c else { c with hasEval := true }

theorem Context.keeping_keeping (c : Context) : c.keeping.keeping = c.keeping := by
  by_cases hc : c.isRoot = true
  · rw [show c.keeping = c from if_pos hc, show c.keeping = c from if_pos hc]
  · rw [show c.keeping = { c with hasEval := true } from if_neg hc]
    exact if_neg hc

theorem Context.isRoot_keeping (c : Context) : c.keeping.isRoot = c.isRoot := by
  unfold keeping
  split <;> rfl

theorem Context.declares_keeping (c : Context) (x : String) : c.keeping.declares x = c.declares x := by
  unfold keeping
  split <;> rfl

theorem referIn_keeping {x : String} {cs : List Context} (h : referIn x cs = none) :
    referIn x (cs.map Context.keeping) = none := by
  induction cs with
  | nil => rfl
  | cons c cs ih =>
    rw [List.map_cons]
    unfold referIn at h ⊢
    rw [c.isRoot_keeping, c.declares_keeping]
    split at h
    next hroot => rw [if_pos hroot]
    next hroot =>
      split at h
      · cases h
      next hdecl =>
        rw [if_neg hroot, if_neg hdecl, ih (Option.map_eq_none_iff.mp h)]
        rfl

/-- A name that no function binds leaves the contexts as they are, also when they keep all names. -/
theorem referStack_keeping {x : String} {cs : List Context} (h : (referStack x cs).2 = false) :
    referStack x cs = (cs, false) ∧
      referStack x (cs.map Context.keeping) = (cs.map Context.keeping, false) := by
  cases cs with
  | nil => exact ⟨rfl, rfl⟩
  | cons c cs =>
    by_cases hx : x = argumentsName ∧ c.isRoot = false
    · rw [show referStack x (c :: cs) = _ from if_pos hx] at h
      cases h
    · cases hin : referIn x (c :: cs) with
      | some ds =>
        rw [referStack, if_neg hx, hin] at h
        cases h
      | none =>
        have hkept := referIn_keeping hin
        rw [List.map_cons] at hkept ⊢
        refine ⟨by rw [referStack, if_neg hx, hin], ?_⟩
        rw [referStack, c.isRoot_keeping, if_neg hx, hkept]

/-- Something binds the name, or it is reserved. -/
def State.answers (s : State) (x : String) : Bool :=
  (referStack x s.stack).2 || s.outer.contains x || reservedNames.contains x

/-- All functions around keep their names. -/
def State.keeping (s : State) : State := { s with stack := s.stack.map Context.keeping }

theorem identifier_eq (x : String) (span : Span) (s : State) :
    identifier x span s = .ok (.ofName (s.answers x) x span,
      if s.answers x = false ∧ x = evalName then (s.refer x).keeping else s.refer x) := by
  have hresolve : resolve x s = .ok ((referStack x s.stack).2 || s.outer.contains x, s.refer x) := rfl
  unfold identifier
  simp only [Bind.bind, StateT.bind, hresolve, Except.bind]
  change (if s.answers x = true then _ else _ : Pass Expr) (s.refer x) = _
  by_cases hb : s.answers x = true
  · rw [if_pos hb, if_neg (fun h => by rw [hb] at h; cases h.1), hb]
    rfl
  · rw [if_neg hb, Bool.eq_false_iff.mpr hb]
    by_cases hx : x = evalName
    · rw [if_pos hx, if_pos ⟨rfl, hx⟩]
      rfl
    · rw [if_neg hx, if_neg fun h => hx h.2]
      rfl

/-- What is known after the name was met. -/
def State.met (s : State) (x : String) : State :=
  if s.answers x = false ∧ x = evalName then (s.refer x).keeping else s.refer x

/-- **The compiler makes the same of a name when it meets it again**, and learns nothing new from it. -/
theorem identifier_met (x : String) (span : Span) (s : State) :
    identifier x span (s.met x) = .ok (.ofName (s.answers x) x span, s.met x) := by
  have hagain := referStack_referStack x s.stack
  have hanswers : (s.refer x).answers x = s.answers x := congrArg
    (fun p : List Context × Bool => p.2 || s.outer.contains x || reservedNames.contains x) hagain
  have hrefer : (s.refer x).refer x = s.refer x := congrArg (fun p => { s with stack := p.1 }) hagain
  by_cases hx : s.answers x = false ∧ x = evalName
  · have hnot : (referStack x s.stack).2 = false :=
      (Bool.or_eq_false_iff.mp (Bool.or_eq_false_iff.mp hx.1).1).1
    obtain ⟨hstack, hkept⟩ := referStack_keeping hnot
    have hsame : s.refer x = s := congrArg (fun p => { s with stack := p.1 }) hstack
    have hstay : s.keeping.refer x = s.keeping := congrArg (fun p => { s with stack := p.1 }) hkept
    have hkeep : s.keeping.keeping = s.keeping := congrArg (fun stack => { s with stack })
      ((List.map_map ..).trans (List.map_congr_left fun c _ => c.keeping_keeping))
    have hfalse : s.keeping.answers x = false := by
      rw [← hx.1]
      exact congrArg (fun b => b || s.outer.contains x || reservedNames.contains x)
        ((congrArg Prod.snd hkept).trans hnot.symm)
    rw [show s.met x = s.keeping from (if_pos hx).trans (congrArg State.keeping hsame), identifier_eq, hfalse,
      if_pos ⟨rfl, hx.2⟩, hstay, hkeep, hx.1]
  · rw [show s.met x = s.refer x from if_neg hx, identifier_eq, hanswers, if_neg hx, hrefer]

/-! ## Assignments to names -/

/-- What is made of what the pass gives. -/
theorem pass_return (p : Pass Expr) (make : Expr → Expr) (s : State) :
    (p >>= fun e => pure (make e)) s = (p s).map (Prod.map make id) := by
  change (p s >>= fun v => _) = _
  cases p s <;> rfl

theorem pass_ok {p : Pass α} {a : α} {s t : State} (h : p s = .ok (a, t)) (k : α → Pass β) :
    (p >>= k) s = k a t := by
  change (p s >>= fun v => k v.1 v.2) = _
  rw [h]
  rfl

variable {x : String} {e : Expr} {s : State}

/-- What the compiler makes of an assignment to a name. -/
theorem expr_assign (s₁ s₂ : Span) (op : AssignOp) :
    expr (.assign s₁ op (.ident s₂ x) e) s =
      (expr e (s.met x)).map (Prod.map (.assign s₁ op (.ofName (s.answers x) x s₂)) id) := by
  have htarget : expr (.ident s₂ x) s = .ok (.ofName (s.answers x) x s₂, s.met x) := identifier_eq x s₂ s
  rw [expr, pass_ok htarget]
  exact pass_return _ _ _

/-- And of one to a name that was met. -/
theorem expr_assign_met (s₁ s₂ : Span) (op : AssignOp) :
    expr (.assign s₁ op (.ident s₂ x) e) (s.met x) =
      (expr e (s.met x)).map (Prod.map (.assign s₁ op (.ofName (s.answers x) x s₂)) id) := by
  have htarget : expr (.ident s₂ x) (s.met x) = .ok (.ofName (s.answers x) x s₂, s.met x) :=
    identifier_met x s₂ s
  rw [expr, pass_ok htarget]
  exact pass_return _ _ _

/-- The right side of it may be an operation with the old value, -/
theorem expr_assign_binary (s₁ s₂ s₃ s₄ : Span) (op : BinaryOp) :
    expr (.assign s₁ .plain (.ident s₂ x) (.binary s₃ op (.ident s₄ x) e)) s =
      (expr e (s.met x)).map (Prod.map (fun e => .assign s₁ .plain (.ofName (s.answers x) x s₂)
        (.binary s₃ op (.ofName (s.answers x) x s₄) e)) id) := by
  have hold : expr (.ident s₄ x) (s.met x) = .ok (.ofName (s.answers x) x s₄, s.met x) :=
    identifier_met x s₄ s
  rw [expr_assign, expr, pass_ok hold, pass_return]
  cases expr e (s.met x) <;> rfl

/-- and the assignment may be the right side of a logical operation. -/
theorem expr_logical_assign (s₁ s₂ s₃ s₄ : Span) (op : LogicalOp) :
    expr (.logical s₁ op (.ident s₂ x) (.assign s₃ .plain (.ident s₄ x) e)) s =
      (expr e (s.met x)).map (Prod.map (fun e => .logical s₁ op (.ofName (s.answers x) x s₂)
        (.assign s₃ .plain (.ofName (s.answers x) x s₄) e)) id) := by
  have hold : expr (.ident s₂ x) s = .ok (.ofName (s.answers x) x s₂, s.met x) := identifier_eq x s₂ s
  rw [expr, pass_ok hold, pass_return, expr_assign_met]
  cases expr e (s.met x) <;> rfl

end Resolve

end Fermata
