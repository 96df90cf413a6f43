import Fermata.Proofs.Course.Expression

/-!
# Loops that test first

A `while` and a loop in three parts go round in the same way: the test, the body, and for the latter the
update. The machine keeps a loop among the continuations, so a round shows only in what the continuations do
one after the other. Read as behaviours, a loop is the iteration of a round, and a round is the test, the body,
and what follows from the way in which the body ended.

* `Behaviour.iterate`: rounds until one says that it is over.
* `Strand.round`, `Strand.afterwards`: one round, and what follows a body.
* `Strand.Means`: what a loop does until another round begins, and `Strand.course_rounds`: a loop iterates
  rounds. The induction is on the steps of a run, of which fewer are left when another round begins.
* `Strand.execute_while`, `Strand.execute_for`: the statements. `Strand.execute_block`,
  `Strand.execute_declare`: those that may stand before a loop.
-/

namespace Fermata

namespace Behaviour

variable {α β : Type}

/-- Rounds, one after the other, until one says that it is over. -/
inductive Iterates (round : α → Behaviour (β ⊕ α)) : α → Behaviour β
  | parked {a i c ps p d} : round a i c ps (.parked p) d → Iterates round a i c ps (.parked p) d
  | abrupt {a i c ps x j d} : round a i c ps (.back (.error x) j) d →
      Iterates round a i c ps (.back (.error x) j) d
  | last {a i c ps b j d} : round a i c ps (.back (.ok (.inl b)) j) d →
      Iterates round a i c ps (.back (.ok b) j) d
  | again {a a' i j c c' ps ps' E d} : round a i c ps (.back (.ok (.inr a')) j) c' →
      Iterates round a' j c' ps' E d → Iterates round a i c (ps ++ ps') E d

/-- The behaviour of rounds. -/
def iterate (round : α → Behaviour (β ⊕ α)) (a : α) : Behaviour β := Iterates round a

end Behaviour

/-! ## The parts of a loop -/

namespace Loop

/-- The loop tests before each round. -/
def Pretested (l : Loop) : Prop :=
  match l.kind with
  | .whileLoop _ | .forLoop _ _ => True
  | _ => False

/-- What is tested before each round. -/
def test? (l : Loop) : Option Expr :=
  match l.kind with
  | .whileLoop test => some test
  | .forLoop test _ => test
  | _ => none

/-- What is evaluated after each round. -/
def update? (l : Loop) : Option Expr :=
  match l.kind with
  | .forLoop _ update => update
  | _ => none

/-- The loop when its last body came to this value. -/
def withLast (l : Loop) (last : Value) : Loop := { l with last }

/-- A round begins so. -/
def start (l : Loop) : Control :=
  match l.test? with
  | some test => .eval test
  | none => .exec l.body []

/-- And this waits meanwhile. -/
def pending (l : Loop) : Cont :=
  match l.test? with
  | some _ => .loopTest l
  | none => .loopBody l

/-- What comes after a body. -/
def next (l : Loop) : Control :=
  match l.update? with
  | some update => .eval update
  | none => l.start

/-- And this waits meanwhile. -/
def waits (l : Loop) : Cont :=
  match l.update? with
  | some _ => .loopUpdate l
  | none => l.pending

variable {l : Loop} {s : Site}

theorem round_eq (hl : l.Pretested) : l.round s = pure (.go [l.pending] l.start) := by
  obtain ⟨kind, body, labels, last⟩ := l
  cases kind with
  | whileLoop test => rfl
  | forLoop test update => cases test <;> rfl
  | _ => exact hl.elim

theorem afterTest_true (hl : l.Pretested) {v : Value} (hv : v.truthy = true) :
    l.afterTest s v = pure (.go [.loopBody l] (.exec l.body [])) := by
  unfold afterTest
  rw [hv]
  obtain ⟨kind, body, labels, last⟩ := l
  cases kind with
  | whileLoop | forLoop => rfl
  | _ => exact hl.elim

theorem afterTest_false {v : Value} (hv : v.truthy = false) :
    l.afterTest s v = pure (.go [] (.value l.last)) := by
  unfold afterTest
  rw [hv]
  rfl

theorem afterBody_eq (hl : l.Pretested) : l.afterBody s = pure (.go [l.waits] l.next) := by
  obtain ⟨kind, body, labels, last⟩ := l
  cases kind with
  | whileLoop test => rfl
  | forLoop test update =>
    cases update with
    | some update => rfl
    | none => exact round_eq (l := ⟨.forLoop test none, body, labels, last⟩) trivial
  | _ => exact hl.elim

end Loop

namespace Strand

open Behaviour

variable {f : Frame} {n : Nat} {l : Loop}

/-! ## Rounds -/

/-- The test holds; one that is absent does. -/
def holds (f : Frame) (n : Nat) : Option Expr → Behaviour Bool
  | none => pure true
  | some test => do return (← evaluate f n test).truthy

/-- Evaluate the update, if there is one. -/
def advance (f : Frame) (n : Nat) : Option Expr → Behaviour Unit
  | none => pure ()
  | some update => do
    let _ ← evaluate f n update
    return

/-- What follows a body. When it came to its end, or to a `continue` of this loop, the update is evaluated and
there is another round; a `break` of this loop ends it; everything else leaves it. -/
def afterwards (f : Frame) (n : Nat) (l : Loop) (last : Value) : Except Abrupt Value → Behaviour (Value ⊕ Value)
  | .ok v => do
    advance f n l.update?
    return .inr v
  | .error (.next label) =>
    if l.owns label then do
      advance f n l.update?
      return .inr last
    else result (.error (.next label))
  | .error (.leave label) =>
    if l.owns label then return .inl last else result (.error (.leave label))
  | .error x => result (.error x)

/-- The body and what follows it, if the test holds. -/
def attempt (f : Frame) (n : Nat) (l : Loop) (last : Value) : Bool → Behaviour (Value ⊕ Value)
  | true => (execute f n l.body []).handle (afterwards f n l last)
  | false => return .inl last

/-- One round: the test, the body, and what follows it. The loop is over with a value, or there is another
round after a body that came to a value. -/
def round (f : Frame) (n : Nat) (l : Loop) (last : Value) : Behaviour (Value ⊕ Value) :=
  holds f n l.test? >>= attempt f n l last

/-! ## What loops mean -/

/-- What is left after a round. -/
def further (f : Frame) (n : Nat) (l : Loop) : Value ⊕ Value → Behaviour Value
  | .inl v => pure v
  | .inr last => course f n (l.withLast last).start [(l.withLast last).pending]

/-- A run of so many steps does this, and has fewer left when another round begins. -/
inductive Turns (f : Frame) (n : Nat) (l : Loop) (t : Nat) (b : Behaviour (Value ⊕ Value)) (i : Nat) (c : Core) :
    List Pause → Ending Value → Core → Prop
  | parked {ps p d} : b i c ps (.parked p) d → Turns f n l t b i c ps (.parked p) d
  | abrupt {ps x j d} : b i c ps (.back (.error x) j) d → Turns f n l t b i c ps (.back (.error x) j) d
  | last {ps v j d} : b i c ps (.back (.ok (.inl v)) j) d → Turns f n l t b i c ps (.back (.ok v) j) d
  | again {ps ps' last j c' t' E d} : b i c ps (.back (.ok (.inr last)) j) c' → t' < t →
      Runs f n t' ⟨(l.withLast last).start, [], j, [(l.withLast last).pending]⟩ c' ps' E d →
      Turns f n l t b i c (ps ++ ps') E d

/-- From here, the loop does this before another round begins. -/
structure Means (f : Frame) (n : Nat) (l : Loop) (control : Control) (ks : List Cont)
    (b : Behaviour (Value ⊕ Value)) : Prop where
  course : course f n control ks = b >>= further f n l
  turns : ∀ {t i c ps E d}, Runs f n t ⟨control, [], i, ks⟩ c ps E d → Turns f n l t b i c ps E d

namespace Turns

variable {t t' i j : Nat} {b : Behaviour (Value ⊕ Value)} {c c' d : Core} {ps ps' : List Pause} {E : Ending Value}
  {α : Type}

theorem mono (h : Turns f n l t b i c ps E d) (ht : t ≤ t') : Turns f n l t' b i c ps E d := by
  cases h with
  | parked h => exact .parked h
  | abrupt h => exact .abrupt h
  | last h => exact .last h
  | again h hlt hrun => exact .again h (by omega) hrun

/-- What comes before belongs to it. -/
theorem after {a : Behaviour α} {k : Except Abrupt α → Behaviour (Value ⊕ Value)} {o : Except Abrupt α}
    (ha : a i c ps (.back o j) c') (h : Turns f n l t (k o) j c' ps' E d) :
    Turns f n l t (a.handle k) i c (ps ++ ps') E d := by
  cases h with
  | parked h => exact .parked (.back ha h)
  | abrupt h => exact .abrupt (.back ha h)
  | last h => exact .last (.back ha h)
  | again h hlt hrun =>
    rw [← List.append_assoc]
    exact .again (.back ha h) hlt hrun

/-- Another round is all that is left. -/
theorem another {last : Value} (hrun : Runs f n t ⟨(l.withLast last).start, [], i,
      [(l.withLast last).pending]⟩ c ps E d) (hlt : t < t') :
    Turns f n l t' (pure (.inr last)) i c ps E d := by
  rw [← List.nil_append ps]
  exact .again ⟨rfl, rfl, rfl⟩ hlt hrun

end Turns

namespace Means

variable {control control' : Control} {ks push : List Cont} {k : Cont} {b : Behaviour (Value ⊕ Value)}

theorem congr {b' : Behaviour (Value ⊕ Value)} (h : Means f n l control ks b) (hb : b = b') :
    Means f n l control ks b' := hb ▸ h

theorem value (v : Value) : Means f n l (.value v) [] (pure (.inl v)) where
  course := (course_value v).trans (pure_bind (Sum.inl v) (further f n l)).symm
  turns h := by
    obtain ⟨-, rfl, rfl, rfl⟩ := (runs_back_iff (o := .ok v)).mp h
    exact .last ⟨rfl, rfl, rfl⟩

theorem abrupt (x : Abrupt) : Means f n l (.abrupt x) [] (result (.error x)) where
  course := (course_abrupt x).trans (error_bind _ _).symm
  turns h := by
    obtain ⟨-, rfl, rfl, rfl⟩ := (runs_back_iff (o := .error x)).mp h
    exact .abrupt ⟨rfl, rfl, rfl⟩

/-- A step that leaves no trace. -/
theorem step (hstep : ∀ i c, Steps f n ⟨control, [], i, ks⟩ c ⟨control', [], i, push⟩ c)
    (h : Means f n l control' push b) : Means f n l control ks b where
  course := (course_steps hstep).trans h.course
  turns hrun := by
    obtain ⟨t', rfl, hrest⟩ := (hstep _ _).runs_iff.mp hrun
    exact (h.turns hrest).mono (Nat.le_succ t')

/-- A step to another round. -/
theorem again {last : Value} (hstep : ∀ i c, Steps f n ⟨control, [], i, ks⟩ c
      ⟨(l.withLast last).start, [], i, [(l.withLast last).pending]⟩ c) :
    Means f n l control ks (pure (.inr last)) where
  course := (course_steps hstep).trans (pure_bind (Sum.inr last) (further f n l)).symm
  turns hrun := by
    obtain ⟨t', rfl, hrest⟩ := (hstep _ _).runs_iff.mp hrun
    exact .another hrest (Nat.lt_succ_self t')

/-- An evaluation comes first. -/
theorem first {K : Except Abrupt Value → Behaviour (Value ⊕ Value)}
    (h : ∀ o, Means f n l (controlOf o) [k] (K o)) :
    Means f n l control [k] ((Strand.course f n control []).handle K) where
  course := by
    refine (course_append control [] [k]).trans (Eq.trans ?_ (handle_assoc _ _ _).symm)
    exact congrArg _ (funext fun o => (h o).course)
  turns hrun := by
    have hdivided : Runs f n _ (Strand.push ⟨control, [], _, []⟩ [k]) _ _ _ _ := hrun
    rcases hdivided.divide with
      ⟨p, rfl, hfirst⟩ | ⟨t₁, t₂, ps₁, ps₂, o, j, c₁, rfl, rfl, hfirst, hrest⟩
    · exact .parked (.parked ⟨_, hfirst⟩)
    · exact (((h o).turns hrest).after ⟨_, hfirst⟩).mono (Nat.le_add_left t₂ t₁)

variable {last : Value}

/-- What comes after a body, whatever led to it. -/
theorem next (hl : l.Pretested) (hstep : ∀ i c, Steps f n ⟨control, [], i, [k]⟩ c
      ⟨(l.withLast last).next, [], i, [(l.withLast last).waits]⟩ c) :
    Means f n l control [k] (do
      advance f n l.update?
      return .inr last) := by
  have hround : ∀ s : Site, (l.withLast last).round s = _ := fun s => Loop.round_eq (l := l.withLast last) hl
  cases hupdate : l.update? with
  | none =>
    have hnext : (l.withLast last).next = (l.withLast last).start := by
      rw [Loop.next, show (l.withLast last).update? = none from hupdate]
    have hwaits : (l.withLast last).waits = (l.withLast last).pending := by
      rw [Loop.waits, show (l.withLast last).update? = none from hupdate]
    rw [hnext, hwaits] at hstep
    exact (again hstep).congr (pure_bind () fun _ => pure (Sum.inr last)).symm
  | some update =>
    have hnext : (l.withLast last).next = .eval update := by
      rw [Loop.next, show (l.withLast last).update? = some update from hupdate]
    have hwaits : (l.withLast last).waits = .loopUpdate (l.withLast last) := by
      rw [Loop.waits, show (l.withLast last).update? = some update from hupdate]
    rw [hnext, hwaits] at hstep
    refine step hstep ?_
    have hfirst : (do
        advance f n (some update)
        return .inr last : Behaviour (Value ⊕ Value)) =
        (evaluate f n update).handle (onValue fun _ => pure (Sum.inr last)) :=
      (bind_assoc _ _ _).trans (bind_congr fun _ => pure_bind _ _)
    rw [hfirst]
    refine first fun o => ?_
    cases o with
    | ok v => exact again (steps_receive_go fun i => hround _)
    | error x => exact step (steps_intercept_throw fun i => rfl) (abrupt x)

/-- What follows a body. -/
theorem afterBody (hl : l.Pretested) (o : Except Abrupt Value) :
    Means f n l (controlOf o) [.loopBody (l.withLast last)] (afterwards f n l last o) := by
  have hafter : ∀ v s, (l.withLast v).afterBody s = _ := fun v s => Loop.afterBody_eq (l := l.withLast v) hl
  cases o with
  | ok v => exact next hl (steps_receive_go fun i => hafter v _)
  | error x =>
    cases x with
    | next label =>
      unfold afterwards
      dsimp only
      by_cases ho : l.owns label = true
      · rw [if_pos ho]
        exact next hl (steps_intercept_go fun i => (if_pos ho).trans (hafter last _))
      · rw [if_neg ho]
        exact step (steps_intercept_throw fun i => if_neg ho) (abrupt _)
    | leave label =>
      unfold afterwards
      dsimp only
      by_cases ho : l.owns label = true
      · rw [if_pos ho]
        exact step (steps_intercept_go fun i => if_pos ho) (value last)
      · rw [if_neg ho]
        exact step (steps_intercept_throw fun i => if_neg ho) (abrupt _)
    | _ => exact step (steps_intercept_throw fun i => rfl) (abrupt _)

theorem body (hl : l.Pretested) : Means f n l (.exec l.body []) [.loopBody (l.withLast last)]
    ((execute f n l.body []).handle (Strand.afterwards f n l last)) :=
  first fun o => afterBody hl o

/-- A whole round. -/
theorem round (hl : l.Pretested) : Means f n l (l.withLast last).start [(l.withLast last).pending]
    (Strand.round f n l last) := by
  unfold Strand.round
  cases htest : l.test? with
  | none =>
    have hstart : (l.withLast last).start = .exec l.body [] := by
      rw [Loop.start, show (l.withLast last).test? = none from htest]
      rfl
    have hpending : (l.withLast last).pending = .loopBody (l.withLast last) := by
      rw [Loop.pending, show (l.withLast last).test? = none from htest]
    rw [hstart, hpending]
    exact (body hl).congr (pure_bind true (attempt f n l last)).symm
  | some test =>
    have hstart : (l.withLast last).start = .eval test := by
      rw [Loop.start, show (l.withLast last).test? = some test from htest]
    have hpending : (l.withLast last).pending = .loopTest (l.withLast last) := by
      rw [Loop.pending, show (l.withLast last).test? = some test from htest]
    rw [hstart, hpending]
    have hround : holds f n (some test) >>= attempt f n l last =
        (evaluate f n test).handle (onValue fun v => attempt f n l last v.truthy) :=
      (bind_assoc _ _ _).trans (bind_congr fun _ => pure_bind _ _)
    refine congr (first fun o => ?_) hround.symm
    cases o with
    | error x => exact step (steps_intercept_throw fun i => rfl) (abrupt x)
    | ok v =>
      change Means f n l (.value v) _ (attempt f n l last v.truthy)
      cases hv : v.truthy with
      | true => exact step (steps_receive_go fun i => Loop.afterTest_true (l := l.withLast last) hl hv) (body hl)
      | false => exact step (steps_receive_go fun i => Loop.afterTest_false hv) (value last)

end Means

/-- **A loop goes round and round.** -/
theorem course_rounds (hl : l.Pretested) (last : Value) :
    course f n (l.withLast last).start [(l.withLast last).pending] = iterate (round f n l) last := by
  refine ext fun i c ps E d => ⟨?_, fun h => ?_⟩
  · rintro ⟨t, h⟩
    -- by the number of steps, which is smaller when another round begins
    induction t using Nat.strong_induction_on generalizing last i c ps with
    | _ t ih =>
      cases (Means.round hl).turns h with
      | parked hround => exact .parked hround
      | abrupt hround => exact .abrupt hround
      | last hround => exact .last hround
      | again hround hlt hrest => exact .again hround (ih _ hlt _ _ _ _ hrest)
  · induction h with
    | parked h =>
      rw [(Means.round hl).course]
      exact .parked h
    | @abrupt a i c ps x j d h =>
      rw [(Means.round hl).course, ← List.append_nil ps]
      exact .back h ⟨rfl, rfl, rfl⟩
    | @last a i c ps v j d h =>
      rw [(Means.round hl).course, ← List.append_nil ps]
      exact .back h ⟨rfl, rfl, rfl⟩
    | again h _ ih =>
      rw [(Means.round hl).course]
      exact .back h ih

/-! ## Statements -/

theorem execute_expression (span : Span) (e : Expr) (labels : List String) :
    execute f n (.expression span e) labels = evaluate f n e :=
  course_exec_go fun _ => rfl

/-- Statements come one after the other, and the last one counts. -/
def executeAll (f : Frame) (n : Nat) (last : Value) : List Stmt → Behaviour Value
  | [] => pure last
  | t :: ts => do executeAll f n (← execute f n t []) ts

theorem execute_block (span : Span) (ts : List Stmt) (labels : List String) :
    execute f n (.block span ts) labels = executeAll f n .undefined ts := by
  have hstart : ∀ ts last, ∃ push next, (∀ s : Site, Act.startStatements last ts = pure (.go push next)) ∧
      course f n next push = executeAll f n last ts := by
    intro ts
    induction ts with
    | nil => exact fun last => ⟨[], .value last, fun _ => rfl, course_value last⟩
    | cons t ts ih =>
      refine fun last => ⟨[.body ts], .exec t [], fun _ => rfl, (course_cons (fun _ _ => rfl) _).trans ?_⟩
      refine bind_congr fun v => ?_
      obtain ⟨push, next, hgo, hcourse⟩ := ih v
      exact (course_receive_go (k := .body ts) (v := v) fun i => hgo (site f n i)).trans hcourse
  obtain ⟨push, next, hgo, hcourse⟩ := hstart ts .undefined
  exact (course_exec_go (t := .block span ts) fun i => hgo (site f n i)).trans hcourse

/-- A declaration with an initial value is an assignment. -/
def declare (f : Frame) (n : Nat) (d : VarDecl) : Behaviour Unit :=
  match d.init with
  | some e => do act (Act.setName f.scope d.name (← evaluate f n e))
  | none => pure ()

/-- Declarations come one after the other. -/
def declareAll (f : Frame) (n : Nat) : List VarDecl → Behaviour Unit
  | [] => pure ()
  | d :: ds => do
    declare f n d
    declareAll f n ds

theorem course_declareAll (after : DeclareEnd) {push : List Cont} {next : Control}
    (hafter : ∀ s, Act.afterDeclarations s after = pure (.go push next)) (ds : List VarDecl) :
    ∃ push' next', (∀ i, Act.startDeclarations (site f n i) after ds = pure (.go push' next')) ∧
      course f n next' push' = declareAll f n ds >>= fun _ => course f n next push := by
  induction ds with
  | nil => exact ⟨push, next, fun i => hafter _, (pure_bind () fun _ => course f n next push).symm⟩
  | cons d ds ih =>
    obtain ⟨push', next', hgo, hcourse⟩ := ih
    have hrest : declareAll f n (d :: ds) >>= (fun _ => course f n next push) =
        declare f n d >>= fun _ => course f n next' push' := by
      rw [hcourse]
      exact bind_assoc _ _ _
    obtain ⟨name, init, span⟩ := d
    cases init with
    | none => exact ⟨push', next', hgo, (hrest.trans (pure_bind () fun _ => course f n next' push')).symm⟩
    | some e =>
      refine ⟨[.declare name ds after], .eval e, fun _ => rfl, Eq.trans ?_ hrest.symm⟩
      refine (course_eval_one (fun _ _ => rfl) e).trans (Eq.trans (bind_congr fun v => ?_) (bind_assoc _ _ _).symm)
      exact course_receive (a := Act.setName f.scope name v) fun i =>
        congrArg (Act.setName f.scope name v >>= ·) (funext fun _ => hgo i)

/-- The first part of a loop. -/
def initialise (f : Frame) (n : Nat) : Option ForInit → Behaviour Unit
  | none => pure ()
  | some (.declare ds) => declareAll f n ds
  | some (.expression e) => do
    let _ ← evaluate f n e
    return

theorem course_round {l : Loop} (hl : l.Pretested) :
    course f n l.start [l.pending] = iterate (round f n l) l.last :=
  course_rounds hl l.last

theorem execute_while (span : Span) (test : Expr) (body : Stmt) (labels : List String) :
    execute f n (.whileLoop span test body) labels =
      iterate (round f n ⟨.whileLoop test, body, labels, .undefined⟩) .undefined :=
  (course_exec_go fun _ => rfl).trans (course_round (l := ⟨.whileLoop test, body, labels, .undefined⟩) trivial)

/-- **A loop in three parts**: the first part once, and then rounds. -/
theorem execute_for (span : Span) (init : Option ForInit) (test update : Option Expr) (body : Stmt)
    (labels : List String) :
    execute f n (.forLoop span init test update body) labels = (do
      initialise f n init
      iterate (round f n ⟨.forLoop test update, body, labels, .undefined⟩) .undefined) := by
  let l : Loop := ⟨.forLoop test update, body, labels, .undefined⟩
  have hround : ∀ s, l.round s = pure (.go [l.pending] l.start) := fun s => Loop.round_eq (l := l) trivial
  have hrounds : course f n l.start [l.pending] = iterate (round f n l) .undefined := course_round trivial
  rw [← hrounds]
  cases init with
  | none =>
    exact (course_exec_go (t := .forLoop span none test update body) fun i => hround (site f n i)).trans
      (pure_bind () fun _ => course f n l.start [l.pending]).symm
  | some first =>
    cases first with
    | declare ds =>
      obtain ⟨push, next, hgo, hcourse⟩ := course_declareAll (.loop l) hround ds
      exact (course_exec_go (t := .forLoop span (some (.declare ds)) test update body) hgo).trans hcourse
    | expression e =>
      refine (course_exec_go fun _ => rfl).trans ((course_eval_one (k := .loopInit l) (fun _ _ => rfl) e).trans ?_)
      refine Eq.trans (bind_congr fun v => ?_) (bind_assoc _ _ _).symm
      exact (course_receive_go (k := .loopInit l) (v := v) fun i => hround (site f n i)).trans
        (pure_bind () fun _ => course f n l.start [l.pending]).symm

/-- So are declarations alone. -/
theorem execute_declare (span : Span) (ds : List VarDecl) (labels : List String) :
    execute f n (.declare span ds) labels = (do
      declareAll f n ds
      return .undefined) := by
  obtain ⟨push, next, hgo, hcourse⟩ := course_declareAll (f := f) (n := n) .done (fun _ => rfl) ds
  refine (course_exec_go (t := .declare span ds) hgo).trans (hcourse.trans ?_)
  exact bind_congr fun _ => course_value _

end Strand

end Fermata
