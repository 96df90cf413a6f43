import Fermata.Proofs.Course.Loop
import Fermata.Proofs.Course.Run
import Fermata.Proofs.Jump.Absorbed

/-!
# A loop in three parts as a `while`

The update of a loop in three parts comes after each round, so it may as well stand behind the body of a
`while`. There it is a statement, and its value is that of the round. But a `continue` skips it there, and if the
update itself could jump, its jump would address the loop. So the two do the same when no `continue` addresses
the loop, and because an expression never jumps.

* `Strand.evaluate_fails`: what comes out of an expression is a value or a failure, whatever functions it calls.
* `Behaviour.Like`: behaviours that do the same and end in the same way, up to values.
* `Strand.for_rounds`: a loop in three parts goes round and round, and is like a `while`.
-/

namespace Fermata

/-! ## Expressions do not jump -/

/-- The evaluation failed: it threw a value, or it met a fault. -/
def Abrupt.Fails : Abrupt → Prop
  | .thrown _ | .fault _ => True
  | .ret _ | .leave _ | .next _ => False

theorem Abrupt.IsFailure.fails {x : Abrupt} (h : x.IsFailure) : x.Fails := by
  cases x with
  | thrown | fault => trivial
  | ret | leave | next => exact h

/-- The pieces of a unit, out of which nothing comes but its own answered transfers, and what failed in
another body. -/
def Parts.enclosing (body : List Stmt) : Parts :=
  { Parts.settled false body with
    jump := fun os x => x.Fails ∨ (Parts.settled false body).jump os x
    stmt_jumps := fun ht x hx => .inr ((Parts.settled false body).stmt_jumps ht x hx)
    failure := fun hx => .inl hx.fails
    pass := fun hx hstop => hx.imp_right fun hx => (Parts.settled false body).pass hx hstop }

theorem Parts.enclosing_ends {body : List Stmt} {x : Abrupt} (h : (Parts.enclosing body).jump [] x) :
    x.Fails := by
  rcases h with hfails | hjump
  · exact hfails
  · rcases Parts.settled_ends hjump with hfail | ⟨hb, -⟩
    · exact hfail.fails
    · cases hb

/-- Units whose transfers are answered. Of functions nothing is asked, since what gets out of them is a value or
a failure anyway. -/
def Bodies.enclosing : Bodies where
  ofUnit u := .enclosing u.program.body
  ofFunction _ _ := .any

/-- Nothing but failures gets out of a body. -/
theorem Bodies.enclosing_closing {a : Activation} {x y : Abrupt}
    (hx : (Bodies.enclosing.parts a).jump [] x) (hclose : Machine.close a.boundary (.error x) = .abrupt y) :
    Bodies.enclosing.Passes y := by
  obtain ⟨frame, boundary, conts⟩ := a
  have hy : y.Fails := by
    cases boundary with
    | unit =>
      cases hclose
      exact Parts.enclosing_ends hx
    | function name => cases x <;> cases hclose <;> trivial
  rintro ⟨frame', boundary', conts'⟩ os
  cases boundary' with
  | unit => exact .inl hy
  | function => trivial

/-- A unit that was compiled has its statements in place. -/
theorem Bodies.enclosing_code {source : String} {outer : List String} {u : CodeUnit}
    (hu : CodeUnit.compile source outer = .ok u) (t : Stmt) (ht : t ∈ u.program.body) :
    (Bodies.enclosing.ofUnit u).stmt ⟨[], [], t⟩ :=
  ⟨(CodeUnit.accepted_compile hu).settled.1, t, ht, .self _⟩

/-- They fit together. -/
def Atlas.enclosing : Atlas where
  toBodies := .enclosing
  code := Bodies.enclosing_code
  closing := Bodies.enclosing_closing

theorem Atlas.covers_enclosing (c : Core) : Atlas.enclosing.Covers c := fun _ _ _ => trivial

namespace Strand

open Behaviour

variable {f : Frame} {n : Nat} {w w' : Strand} {c c' d : Core} {ps : List Pause}

/-- All code of the strand is in its place, in a unit with nothing left to do. -/
def Placed (f : Frame) (n : Nat) (w : Strand) : Prop :=
  ∃ m, w.In f (bare n) m ∧ m.Placed .enclosing

theorem Placed.steps (hw : Placed f n w) (h : Steps f n w c w' c') : Placed f n w' := by
  obtain ⟨m, hm, hplaced⟩ := hw
  obtain ⟨m', hstep, hm'⟩ := h _ m hm
  have hnext := Atlas.step (Atlas.covers_enclosing c) hplaced
  rw [hstep] at hnext
  exact ⟨m', hm', hnext⟩

theorem Placed.resume {p : PendingId} (hw : Placed f n w) (h : Parks f n w c w' p c') (s : Settlement) :
    Placed f n { w' with control := s.control } := by
  obtain ⟨m, hm, hplaced⟩ := hw
  obtain ⟨m', hstep, hm'⟩ := h _ m hm
  have hnext := Atlas.step (Atlas.covers_enclosing c) hplaced
  rw [hstep] at hnext
  exact ⟨_, Strand.In.resume hm' s.control, Machine.Parked.resume hnext s⟩

theorem Placed.ends (hw : Placed f n w) {t j : Nat} {x : Abrupt}
    (h : Runs f n t w c ps (.back (.error x) j) d) : x.Fails := by
  generalize hE : Ending.back (.error x) j = E at h
  induction h with
  | back o i c =>
    cases hE
    obtain ⟨m, ⟨l, rfl⟩, -, hfollows⟩ := hw
    exact Parts.enclosing_ends hfollows
  | parked => cases hE
  | step hstep _ ih => exact ih (hw.steps hstep) hE
  | resume hpark _ ih => exact ih (hw.resume hpark _) hE

/-- **An expression does not jump**: it comes to a value, or it fails. -/
theorem evaluate_fails {e : Expr} {i j : Nat} {x : Abrupt}
    (h : evaluate f n e i c ps (.back (.error x) j) d) : x.Fails := by
  obtain ⟨t, hrun⟩ := h
  have hplaced : Placed f n ⟨.eval e, [], i, []⟩ := by
    refine ⟨_, ⟨{}, rfl⟩, fun a ha => ?_, trivial⟩
    rcases List.mem_cons.mp ha with rfl | ha
    · trivial
    · rw [List.eq_of_mem_replicate ha]
      trivial
  exact hplaced.ends hrun

end Strand

/-! ## Behaviours that end alike -/

/-- The two endings are of one kind; only values may differ. -/
inductive Ending.Like {α β : Type} (R : α → β → Prop) : Ending α → Ending β → Prop
  | value {a b i} : R a b → Like R (.back (.ok a) i) (.back (.ok b) i)
  | abrupt {x i} : Like R (.back (.error x) i) (.back (.error x) i)
  | parked {p} : Like R (.parked p) (.parked p)

namespace Behaviour

variable {α β γ δ : Type} {R : α → β → Prop} {S : γ → δ → Prop} {b : Behaviour α} {b' : Behaviour β}

/-- Whatever the one does, the other does with an ending of the same kind. -/
def Follows (R : α → β → Prop) (b : Behaviour α) (b' : Behaviour β) : Prop :=
  ∀ i c ps E d, b i c ps E d → ∃ E', E.Like R E' ∧ b' i c ps E' d

/-- Both do the same, with endings of the same kind. -/
structure Like (R : α → β → Prop) (b : Behaviour α) (b' : Behaviour β) : Prop where
  there : Follows R b b'
  back : Follows (fun x y => R y x) b' b

/-- The behaviour can come to this. -/
def CanEnd (b : Behaviour α) (o : Except Abrupt α) : Prop := ∃ i c ps j d, b i c ps (.back o j) d

namespace Follows

theorem value {v : α} {w : β} (h : R v w) : Follows R (pure v) (pure w) := by
  rintro i c ps E d ⟨rfl, rfl, rfl⟩
  exact ⟨_, .value h, rfl, rfl, rfl⟩

theorem abrupt (x : Abrupt) : Follows R (result (.error x)) (result (.error x)) := by
  rintro i c ps E d ⟨rfl, rfl, rfl⟩
  exact ⟨_, .abrupt, rfl, rfl, rfl⟩

/-- After the same behaviour. -/
theorem handle {a : Behaviour γ} {k : Except Abrupt γ → Behaviour α} {k' : Except Abrupt γ → Behaviour β}
    (h : ∀ o, a.CanEnd o → Follows R (k o) (k' o)) : Follows R (a.handle k) (a.handle k') := by
  intro i c ps E d hb
  cases hb with
  | parked ha => exact ⟨_, .parked, .parked ha⟩
  | back ha hk =>
    obtain ⟨E', hE, hk'⟩ := h _ ⟨_, _, _, _, _, ha⟩ _ _ _ _ _ hk
    exact ⟨E', hE, .back ha hk'⟩

/-- Round by round. -/
theorem iterate {r : γ → Behaviour (α ⊕ γ)} {r' : δ → Behaviour (β ⊕ δ)}
    (h : ∀ a a', S a a' → Follows (Sum.LiftRel R S) (r a) (r' a')) {a : γ} {a' : δ} (ha : S a a') :
    Follows R (Behaviour.iterate r a) (Behaviour.iterate r' a') := by
  intro i c ps E d hb
  induction hb generalizing a' with
  | parked hround =>
    obtain ⟨E', hE, hround'⟩ := h _ _ ha _ _ _ _ _ hround
    cases hE
    exact ⟨_, .parked, .parked hround'⟩
  | abrupt hround =>
    obtain ⟨E', hE, hround'⟩ := h _ _ ha _ _ _ _ _ hround
    cases hE
    exact ⟨_, .abrupt, .abrupt hround'⟩
  | last hround =>
    obtain ⟨E', hE, hround'⟩ := h _ _ ha _ _ _ _ _ hround
    cases hE with
    | value hlike =>
      cases hlike with
      | inl hR => exact ⟨_, .value hR, .last hround'⟩
  | again hround _ ih =>
    obtain ⟨E', hE, hround'⟩ := h _ _ ha _ _ _ _ _ hround
    cases hE with
    | value hlike =>
      cases hlike with
      | inr hS =>
        obtain ⟨E'', hE'', hrest⟩ := ih hS
        exact ⟨E'', hE'', .again hround' hrest⟩

theorem mono {R' : α → β → Prop} (h : Follows R b b') (hR : ∀ v w, R v w → R' v w) : Follows R' b b' := by
  intro i c ps E d hb
  obtain ⟨E', hE, hb'⟩ := h i c ps E d hb
  refine ⟨E', ?_, hb'⟩
  cases hE with
  | value hv => exact .value (hR _ _ hv)
  | abrupt => exact .abrupt
  | parked => exact .parked

end Follows

namespace Like

theorem value {v : α} {w : β} (h : R v w) : Like R (pure v) (pure w) := ⟨.value h, .value h⟩

theorem abrupt (x : Abrupt) : Like R (result (.error x)) (result (.error x)) := ⟨.abrupt x, .abrupt x⟩

theorem handle {a : Behaviour γ} {k : Except Abrupt γ → Behaviour α} {k' : Except Abrupt γ → Behaviour β}
    (h : ∀ o, a.CanEnd o → Like R (k o) (k' o)) : Like R (a.handle k) (a.handle k') :=
  ⟨.handle fun o ho => (h o ho).there, .handle fun o ho => (h o ho).back⟩

theorem bind {a : Behaviour γ} {k : γ → Behaviour α} {k' : γ → Behaviour β}
    (h : ∀ v, Like R (k v) (k' v)) : Like R (a >>= k) (a >>= k') := by
  refine handle fun o _ => ?_
  cases o with
  | ok v => exact h v
  | error x => exact abrupt x

/-- **Loops whose rounds end alike end alike.** -/
theorem iterate {r : γ → Behaviour (α ⊕ γ)} {r' : δ → Behaviour (β ⊕ δ)}
    (h : ∀ a a', S a a' → Like (Sum.LiftRel R S) (r a) (r' a')) {a : γ} {a' : δ} (ha : S a a') :
    Like R (Behaviour.iterate r a) (Behaviour.iterate r' a') := by
  refine ⟨.iterate (fun a a' ha => (h a a' ha).there) ha, .iterate (S := fun y x => S x y)
    (fun a' a ha => (h a a' ha).back.mono fun v w hvw => ?_) ha⟩
  cases hvw with
  | inl hR => exact .inl hR
  | inr hS => exact .inr hS

end Like

end Behaviour

/-! ## The two loops -/

namespace Strand

open Behaviour

variable {f : Frame} {n : Nat}

/-- The first part of a loop as statements of its own. -/
def initials (span : Span) : Option ForInit → List Stmt
  | none => []
  | some (.declare ds) => [.declare span ds]
  | some (.expression e) => [.expression span e]

/-- The last part of a loop as a statement of its own. -/
def trailing (span : Span) : Option Expr → List Stmt
  | none => []
  | some update => [.expression span update]

theorem executeAll_initials (span : Span) (init : Option ForInit) (k : Behaviour Value) :
    (executeAll f n .undefined (initials span init) >>= fun _ => k) = initialise f n init >>= fun _ => k := by
  cases init with
  | none => simp only [initials, executeAll, initialise, pure_bind]
  | some first =>
    cases first with
    | declare ds =>
      simp only [initials, executeAll, initialise, execute_declare, bind_assoc, pure_bind]
    | expression e =>
      simp only [initials, executeAll, initialise, execute_expression, bind_assoc, pure_bind]

/-- An absent test is like one that always holds. -/
theorem holds_getD (span : Span) (test : Option Expr) :
    holds f n (some (test.getD (.bool span true))) = holds f n test := by
  cases test with
  | some test => rfl
  | none =>
    have htrue : evaluate f n (.bool span true) = pure (.bool true) :=
      (course_eval_go fun _ => rfl).trans (settle_of_ready nofun)
    unfold holds
    dsimp only [Option.getD]
    rw [htrue, pure_bind]
    rfl

/-- No `continue` that comes out of the body addresses the loop. -/
def NeverContinues (f : Frame) (n : Nat) (l : Loop) : Prop :=
  ∀ label, (execute f n l.body []).CanEnd (.error (.next label)) → l.owns label = false

/-- Values do not matter, but whether the loop is over does. -/
abbrev Alike : Value ⊕ Value → Value ⊕ Value → Prop := Sum.LiftRel (fun _ _ => True) fun _ _ => True

variable {l l' : Loop} {last last' : Value}

theorem afterwards_ok (hupdate : l.update? = none) (v : Value) : afterwards f n l last (.ok v) = pure (.inr v) := by
  unfold afterwards
  dsimp only
  rw [hupdate]
  exact pure_bind () fun _ => pure (Sum.inr v)

theorem afterwards_fails {x : Abrupt} (hx : x.Fails) : afterwards f n l last (.error x) = result (.error x) := by
  cases x with
  | thrown | fault => rfl
  | ret | leave | next => exact hx.elim

/-- What follows a body that came to its end is like what follows the body with the update behind it. The value
is another one, since it is the update that comes last. -/
theorem afterwards_like_ok (hupdate : l'.update? = none) (span : Span) (v : Value) :
    Like Alike (afterwards f n l last (.ok v))
      ((executeAll f n v (trailing span l.update?)).handle (afterwards f n l' last')) := by
  cases hl : l.update? with
  | none =>
    rw [afterwards_ok hl, show executeAll f n v (trailing span none) = result (.ok v) from rfl, result_handle,
      afterwards_ok hupdate]
    exact .value (.inr trivial)
  | some update =>
    have hfor : afterwards f n l last (.ok v) = (evaluate f n update).handle (onValue fun _ => pure (.inr v)) := by
      unfold afterwards
      dsimp only
      rw [hl]
      exact (bind_assoc _ _ _).trans (bind_congr fun _ => pure_bind _ _)
    have hwhile : executeAll f n v (trailing span (some update)) = evaluate f n update := by
      simp only [trailing, executeAll, execute_expression, bind_pure]
    rw [hfor, hwhile]
    refine .handle fun o ho => ?_
    cases o with
    | ok w =>
      rw [afterwards_ok hupdate]
      exact .value (.inr trivial)
    | error x =>
      obtain ⟨i, c, ps, j, d, hx⟩ := ho
      rw [afterwards_fails (evaluate_fails hx)]
      exact .abrupt x

/-- Out of the loop, or to its end, a transfer of control leads as before. -/
theorem afterwards_like_error (hlabels : l'.labels = l.labels) {x : Abrupt}
    (hx : ∀ label, x = .next label → l.owns label = false) :
    Like Alike (afterwards f n l last (.error x)) (afterwards f n l' last' (.error x)) := by
  have howns : ∀ label, l'.owns label = l.owns label := by
    intro label
    unfold Loop.owns
    rw [hlabels]
  cases x with
  | next label =>
    unfold afterwards
    dsimp only
    rw [howns, hx label rfl]
    exact .abrupt _
  | leave label =>
    unfold afterwards
    dsimp only
    rw [howns]
    cases l.owns label with
    | true => exact .value (.inl trivial)
    | false => exact .abrupt _
  | _ => exact .abrupt _

variable {test update : Option Expr} {body : Stmt} {labels : List String}

/-- The loop as a `while`, with the update behind the body. -/
def asWhile (s₁ s₂ s₃ : Span) (l : Loop) : Loop :=
  ⟨.whileLoop (l.test?.getD (.bool s₁ true)), .block s₂ (l.body :: trailing s₃ l.update?), l.labels, l.last⟩

/-- **A round of a loop in three parts is like one of a `while`** with the update behind the body. -/
theorem round_like (s₁ s₂ s₃ : Span) (h : NeverContinues f n l) (last last' : Value) :
    Like Alike (round f n l last) (round f n (asWhile s₁ s₂ s₃ l) last') := by
  unfold round
  rw [show (asWhile s₁ s₂ s₃ l).test? = some (l.test?.getD (.bool s₁ true)) from rfl, holds_getD]
  refine .bind fun go => ?_
  cases go with
  | false => exact .value (.inl trivial)
  | true =>
    unfold attempt
    dsimp only
    rw [show (asWhile s₁ s₂ s₃ l).body = .block s₂ (l.body :: trailing s₃ l.update?) from rfl, execute_block,
      executeAll, bind_eq, handle_assoc]
    refine .handle fun o ho => ?_
    cases o with
    | ok v => exact afterwards_like_ok rfl s₃ v
    | error x =>
      refine Eq.mp (congrArg (Like Alike _) (result_handle (.error x) _).symm) ?_
      have hlabels : (asWhile s₁ s₂ s₃ l).labels = l.labels := rfl
      exact afterwards_like_error hlabels fun label hx => h label (hx ▸ ho)

/-- **A loop in three parts.** The first part is evaluated once. A round tests, executes the body, and evaluates
the update if the body came to its end or to a `continue` of the loop (`Strand.round`). When no `continue`
addresses the loop, it does the same as a `while` after the first part, with the update behind the body. -/
theorem for_rounds (f : Frame) (n : Nat) (span : Span) (init : Option ForInit) (test update : Option Expr)
    (body : Stmt) (labels : List String) :
    execute f n (.forLoop span init test update body) labels = (do
      initialise f n init
      iterate (round f n ⟨.forLoop test update, body, labels, .undefined⟩) .undefined) ∧
    (NeverContinues f n ⟨.forLoop test update, body, labels, .undefined⟩ → ∀ s₀ s₁ s₂ s₃ s₄ : Span,
      Like (fun _ _ => True) (execute f n (.forLoop span init test update body) labels) (do
        let _ ← execute f n (.block s₀ (initials s₀ init)) []
        execute f n (.whileLoop s₄ (test.getD (.bool s₁ true)) (.block s₂ (body :: trailing s₃ update)))
          labels)) := by
  refine ⟨execute_for span init test update body labels, fun h s₀ s₁ s₂ s₃ s₄ => ?_⟩
  rw [execute_for, execute_block, executeAll_initials, execute_while]
  exact .bind fun _ => .iterate (S := fun _ _ => True) (fun last last' _ => round_like s₁ s₂ s₃ h last last') trivial

/-- The loop `L: for (; x; y) z;`. -/
theorem for_rounds_names :
    let x : Expr := .ident {} "x"
    let y : Expr := .ident {} "y"
    let body : Stmt := .expression {} (.ident {} "z")
    NeverContinues default 0 ⟨.forLoop (some x) (some y), body, ["L"], .undefined⟩ ∧
      Like (fun _ _ => True) (execute default 0 (.forLoop {} none (some x) (some y) body) ["L"]) (do
        let _ ← execute default 0 (.block {} []) []
        execute default 0 (.whileLoop {} x (.block {} [body, .expression {} y])) ["L"]) := by
  intro x y body
  have hnever : NeverContinues default 0 ⟨.forLoop (some x) (some y), body, ["L"], .undefined⟩ := by
    rintro label ⟨i, c, ps, j, d, h⟩
    rw [show execute default 0 body [] = _ from execute_expression {} (.ident {} "z") []] at h
    exact absurd (evaluate_fails h) id
  exact ⟨hnever, (for_rounds default 0 {} none (some x) (some y) body ["L"]).2 hnever {} {} {} {} {}⟩

end Strand

end Fermata
