import Fermata.Proofs.Machine.Running
import Fermata.Proofs.Session.Regime

/-!
# Balanced activations

Whatever an activation evaluates, it happens above it: activations are opened on top of it and
closed again, continuations are put in front of its own and taken away again. When the evaluation is
back, with a value or with a transfer of control, the activation stands where it stood, and so do its
callers. It may have passed children of its record, and its location is that of the last piece of code
that it evaluated.

* `Machine.Begins`: the evaluations of an activation.
* `Machine.Over`, `Machine.Back`: an evaluation on its way and at its end.
* `Machine.Over.step`: a step stays above the activation until the evaluation is back.
* `Machine.Evaluates.over`, `Machine.Over.restored`: so does the whole evaluation, and what is left at
  its end.
-/

namespace Fermata

open Act

/-- An activation later on, with further continuations. -/
def Activation.Onward (a b : Activation) : Prop :=
  ∃ f ks, b = ⟨f, a.boundary, ks ++ a.conts⟩ ∧ a.frame.Same f

namespace Activation.Onward

theorem refl (a : Activation) : a.Onward a := ⟨a.frame, [], rfl, .refl _⟩

theorem trans {a b c : Activation} (hb : a.Onward b) (hc : b.Onward c) : a.Onward c := by
  obtain ⟨f, ks, rfl, hf⟩ := hb
  obtain ⟨g, ls, rfl, hg⟩ := hc
  exact ⟨g, ls ++ ks, by rw [List.append_assoc], hf.trans hg⟩

theorem mark (a : Activation) (span : Span) : a.Onward (a.mark span) :=
  ⟨{ a.frame with location := span }, [], rfl, rfl, rfl, rfl, rfl, Nat.le_refl _, id⟩

theorem pushing (a : Activation) (ks : List Cont) : a.Onward (a.pushing ks) :=
  ⟨a.frame, ks, rfl, .refl _⟩

theorem linked {a : Activation} {f : Frame} (hf : a.frame.Same f) :
    a.Onward { a with frame := f } := ⟨f, [], rfl, hf⟩

end Activation.Onward

/-- A move leaves the frame that it is made in, literals that it links apart. -/
def Move.Keeps (f : Frame) : Move → Prop
  | .linked g _ => f.Same g
  | .go .. | .enter .. => True

namespace Machine

variable {a b : Activation} {callers bs : List Activation} {m m' : Machine} {c c' : Core}

/-- The machine evaluates something for an activation. -/
def Over (a : Activation) (callers : List Activation) (m : Machine) : Prop :=
  ∃ above b, m.stack = above ++ b :: callers ∧ a.Onward b

/-- The evaluation is back, with a value or a transfer of control: nothing is left above the
activation, and none of its continuations is in front of those that it had. -/
def Back (a : Activation) (callers : List Activation) (m : Machine) : Prop :=
  ((∃ v, m.control = .value v) ∨ ∃ x, m.control = .abrupt x) ∧
    m.stack.length = callers.length + 1 ∧ (m.stack.head?.map (·.conts.length)) = some a.conts.length

/-- Nothing is above the activation, and its own continuations are next. -/
def Restored (a : Activation) (callers : List Activation) (m : Machine) : Prop :=
  ∃ f, m.stack = { a with frame := f } :: callers ∧ a.frame.Same f

/-! ## One step -/

/-- An evaluation for an activation above is one for those below it. -/
theorem Over.below {above : List Activation} (h : Over b (above ++ a :: callers) m) :
    Over a callers m := by
  obtain ⟨inner, b', hstack, -⟩ := h
  exact ⟨inner ++ b' :: above, a, by rw [hstack]; simp, .refl a⟩

/-- An evaluation for an activation later on is one for the activation. -/
theorem Over.trans (hab : a.Onward b) (h : Over b callers m) : Over a callers m := by
  obtain ⟨above, b', hstack, hb⟩ := h
  exact ⟨above, b', hstack, hab.trans hb⟩

/-- A move stays above the activation that makes it. -/
theorem Over.apply {move : Move} (hmove : move.Keeps a.frame) :
    Over a callers (Machine.apply a callers move) := by
  cases move with
  | go push control => exact ⟨[], _, rfl, .pushing a push⟩
  | linked f v => exact ⟨[], _, rfl, .linked hmove⟩
  | enter push inner control => exact ⟨[inner], _, rfl, .pushing a push⟩

/-- The innermost activation of an evaluation for `a`: what stays above it stays above `a`. -/
theorem Over.top (h : Over a callers m) :
    ∃ b bs, m.stack = b :: bs ∧ ∀ m', Over b bs m' → Over a callers m' := by
  obtain ⟨above, b, hstack, hb⟩ := h
  cases above with
  | nil => exact ⟨b, callers, hstack, fun _ h => h.trans hb⟩
  | cons x above => exact ⟨x, above ++ b :: callers, hstack, fun _ h => h.below.trans hb⟩

/-- An evaluation that is not back has a continuation to go on with, or an activation to close. -/
theorem Over.next (h : Over a callers m) (hback : ¬ Back a callers m) (hstack : m.stack = b :: bs)
    (hend : (∃ v, m.control = .value v) ∨ ∃ x, m.control = .abrupt x) :
    (∀ k ks, b.conts = k :: ks → ∀ m', Over { b with conts := ks } bs m' → Over a callers m') ∧
      (b.conts = [] → ∀ control, Over a callers ⟨control, bs⟩) := by
  obtain ⟨above, d, habove, hd⟩ := h
  rw [hstack] at habove
  cases above with
  | cons x above =>
    obtain ⟨rfl, rfl⟩ := List.cons.inj habove
    exact ⟨fun _ _ _ _ h => h.below.trans hd, fun _ _ => ⟨above, d, rfl, hd⟩⟩
  | nil =>
    obtain ⟨rfl, rfl⟩ := List.cons.inj habove
    obtain ⟨f, ls, rfl, hf⟩ := hd
    cases ls with
    | nil =>
      refine absurd ⟨hend, ?_, ?_⟩ hback
      · rw [hstack]
        rfl
      · rw [hstack]
        rfl
    | cons l ls =>
      refine ⟨fun k ks hks m' h => ?_, nofun⟩
      obtain ⟨rfl, rfl⟩ := List.cons.inj hks
      exact h.trans ⟨f, ls, rfl, hf⟩

end Machine

/-! ## The acts of a step

An atlas that asks for nothing covers every state. -/

/-- The move keeps its frame. -/
theorem Atlas.Allows.keeps {A : Atlas} {P : Parts} {os : List Owner} {f : Frame} {m : Move}
    (hm : A.Allows P os f m) : m.Keeps f := by
  cases m with
  | linked g v => exact hm
  | _ => trivial

namespace Act

variable {s : Site}

/-- The act makes no move that changes the frame, linking apart, whatever the core. -/
abbrev Keeping (f : Frame) (p : Act Move) : Prop :=
  Ends (fun _ => True) p (Move.Keeps f) fun _ => True

theorem keeping_of_runs {p : Act Move} (hp : Atlas.any.Runs .any [] s Atlas.any.Covers p) :
    Keeping s.frame p :=
  fun c _ => (hp.weaken (fun _ hm => hm.keeps) fun _ _ => trivial) c (Atlas.covers_any c)

theorem keeping_of_calls {f : Frame} {p : Act Move}
    (hp : Ends Atlas.any.Covers p Atlas.any.Calls Abrupt.IsFailure) : Keeping f p := by
  have hkeeps : ∀ m, Atlas.any.Calls m → m.Keeps f := fun m hm =>
    have hallows : Atlas.any.Allows .any [] f m := hm.allows
    hallows.keeps
  exact fun c _ => (hp.weaken hkeeps fun _ _ => trivial) c (Atlas.covers_any c)

theorem startExpr_keeping (e : Expr) : Keeping s.frame (startExpr s e) :=
  keeping_of_runs (Atlas.Moves.runs (Atlas.startExpr (fun _ h => h) trivial))

theorem startStmt_keeping (t : Stmt) (labels : List String) :
    Keeping s.frame (startStmt s t labels) :=
  keeping_of_runs (Atlas.startStmt trivial)

theorem receive_keeping (k : Cont) (v : Value) : Keeping s.frame (receive s k v) :=
  keeping_of_runs (Atlas.receive (fun _ h => h) (Parts.in_any k) v)

theorem intercept_keeping (k : Cont) (x : Abrupt) : Keeping s.frame (intercept s k x) :=
  keeping_of_runs (Atlas.intercept (Parts.in_any k) trivial)

end Act

/-- A step leads to a machine that evaluates something for the activation; it is not done. -/
def Progress.Over (a : Activation) (callers : List Activation) : Progress → Prop
  | .running m | .parked m _ => m.Over a callers
  | .done _ => False

theorem Progress.Over.mono {a b : Activation} {callers bs : List Activation} {p : Progress}
    (hp : p.Over b bs) (h : ∀ m, Machine.Over b bs m → Machine.Over a callers m) :
    p.Over a callers := by
  cases p with
  | running m | parked m => exact h m hp
  | done => exact hp

namespace Machine

variable {a b : Activation} {callers bs : List Activation} {m m₀ : Machine} {c : Core}

/-- An act stays above the activation that performs it. -/
theorem Over.perform {p : Act Move} (hp : Keeping a.frame p) :
    (Machine.perform a callers p c).1.Over a callers := by
  have hpr := hp c trivial
  unfold Machine.perform
  generalize p c = r at hpr
  cases hpr with
  | ok hmove => exact Over.apply hmove
  | error _ => exact ⟨[], a, rfl, .refl a⟩

/-- **A step stays above the activation** until the evaluation is back. -/
theorem Over.step (h : Over a callers m) (hback : ¬ Back a callers m) :
    (m.step c).1.Over a callers := by
  obtain ⟨b, bs, hstack, htop⟩ := h.top
  obtain ⟨control, stack⟩ := m
  obtain rfl : stack = b :: bs := hstack
  cases control with
  | eval e =>
    exact (Over.perform (startExpr_keeping (s := ⟨(b.mark e.span).frame, bs⟩) e)).mono
      fun m' hm => htop m' (hm.trans (.mark b e.span))
  | exec t labels =>
    exact (Over.perform (startStmt_keeping (s := ⟨(b.mark t.span).frame, bs⟩) t labels)).mono
      fun m' hm => htop m' (hm.trans (.mark b t.span))
  | checkpoint v =>
    unfold Machine.step
    dsimp only
    have hsame : ∀ control, Over a callers ⟨control, b :: bs⟩ :=
      fun control => htop _ ⟨[], b, rfl, .refl b⟩
    split
    · exact hsame _
    · exact hsame _
    · exact hsame _
  | waiting p => exact h
  | value v =>
    obtain ⟨hpop, hclose⟩ := h.next hback rfl (.inl ⟨v, rfl⟩)
    unfold Machine.step
    dsimp only
    split
    next hnil => exact hclose hnil _
    next k ks hks =>
      have hact : Keeping ({ b with conts := ks } : Activation).frame
          (receive ⟨b.frame, bs⟩ k v) := receive_keeping k v
      exact (Over.perform hact).mono (hpop k ks hks)
  | abrupt x =>
    obtain ⟨hpop, hclose⟩ := h.next hback rfl (.inr ⟨x, rfl⟩)
    unfold Machine.step
    dsimp only
    split
    next hnil => exact hclose hnil _
    next k ks hks =>
      have hact : Keeping ({ b with conts := ks } : Activation).frame
          (intercept ⟨b.frame, bs⟩ k x) := intercept_keeping k x
      exact (Over.perform hact).mono (hpop k ks hks)

/-! ## Evaluations -/

/-- An activation begins to evaluate an expression, a statement, a call, code, or a unit. Calls may
be refused, so that the machine meets a transfer of control at once. -/
inductive Begins (a : Activation) (callers : List Activation) : Machine → Prop
  | expr (e : Expr) : Begins a callers ⟨.eval e, a :: callers⟩
  | stmt (t : Stmt) (labels : List String) : Begins a callers ⟨.exec t labels, a :: callers⟩
  | call (depth : Nat) (scope : ScopeId) (callee this : Value) (args : List Value) {c d : Core}
      {m : Machine} (h : perform a callers (callValue depth scope callee this args) c =
        (.running m, d)) : Begins a callers m
  | construct (depth : Nat) (callee : Value) (args : List Value) {c d : Core} {m : Machine}
      (h : perform a callers (Act.construct depth callee args) c = (.running m, d)) :
      Begins a callers m
  | code (depth : Nat) (scope : ScopeId) (code : Value) {c d : Core} {m : Machine}
      (h : perform a callers (evalCode depth scope code) c = (.running m, d)) : Begins a callers m
  | unit (depth : Nat) (unit : CodeUnit) (scope : ScopeId) {c d : Core} {m : Machine}
      (h : perform a callers (callUnit depth unit scope) c = (.running m, d)) : Begins a callers m

/-- The states of an evaluation until it is back. While it waits, and from one step to the next,
anything may happen to the core. -/
inductive Evaluates (a : Activation) (callers : List Activation) (m₀ : Machine) : Machine → Prop
  | start : Evaluates a callers m₀ m₀
  | step {m m' : Machine} {c d : Core} (h : Evaluates a callers m₀ m) (hback : ¬ Back a callers m)
      (hstep : m.step c = (.running m', d)) : Evaluates a callers m₀ m'
  | park {m m' : Machine} {p : PendingId} {c d : Core} (h : Evaluates a callers m₀ m)
      (hback : ¬ Back a callers m) (hstep : m.step c = (.parked m' p, d)) :
      Evaluates a callers m₀ m'
  | resume {m m' : Machine} {s : Settlement} (h : Evaluates a callers m₀ m)
      (hresume : m.resume s = .ok m') : Evaluates a callers m₀ m'

theorem Begins.over (h : Begins a callers m) : Over a callers m := by
  have hact : ∀ {p : Act Move} {c d : Core}, Keeping a.frame p →
      Machine.perform a callers p c = (.running m, d) → Over a callers m := by
    intro p c d hp heq
    have hover : (Machine.perform a callers p c).1.Over a callers := Over.perform hp
    rwa [heq] at hover
  cases h with
  | expr e => exact ⟨[], a, rfl, .refl a⟩
  | stmt t labels => exact ⟨[], a, rfl, .refl a⟩
  | call depth scope callee this args h =>
    exact hact (keeping_of_calls (Atlas.callValue (fun _ h => h) depth scope callee this args)) h
  | construct depth callee args h =>
    have hruns : Atlas.any.Runs .any [] ⟨a.frame, callers⟩ Atlas.any.Covers
        (Act.construct depth callee args) :=
      Atlas.Moves.runs (Atlas.construct (fun _ h => h) depth callee args)
    exact hact (keeping_of_runs hruns) h
  | code depth scope code h => exact hact (keeping_of_calls (Atlas.evalCode depth scope code)) h
  | unit depth unit scope h =>
    exact hact (keeping_of_calls (Atlas.callUnit fun _ _ => trivial)) h

/-- A settlement changes nothing but what happens next. -/
theorem Over.resume {s : Settlement} {m' : Machine} (h : Over a callers m)
    (hresume : m.resume s = .ok m') : Over a callers m' := by
  have hstack : m'.stack = m.stack := by
    unfold Machine.resume at hresume
    split at hresume
    · cases hresume
      rfl
    · cases hresume
      rfl
    · cases hresume
  obtain ⟨above, b, habove, hb⟩ := h
  exact ⟨above, b, hstack.trans habove, hb⟩

/-- **An evaluation stays above the activation** that began it, on every path. -/
theorem Evaluates.over (h : Evaluates a callers m₀ m) (h₀ : Over a callers m₀) :
    Over a callers m := by
  induction h with
  | start => exact h₀
  | @step m m' c d _ hback hstep ih =>
    have hover := ih.step (c := c) hback
    rwa [hstep] at hover
  | @park m m' p c d _ hback hstep ih =>
    have hover := ih.step (c := c) hback
    rwa [hstep] at hover
  | resume _ hresume ih => exact ih.resume hresume

/-- **An evaluation that is back left everything as it was**, the progress of its own frame apart. -/
theorem Over.restored (h : Over a callers m) (hback : Back a callers m) :
    Restored a callers m := by
  obtain ⟨above, b, hstack, f, ks, rfl, hf⟩ := h
  obtain ⟨-, hlength, hconts⟩ := hback
  rw [hstack] at hlength hconts
  have habove : above = [] := by
    refine List.length_eq_zero_iff.mp ?_
    simp only [List.length_append, List.length_cons] at hlength
    omega
  subst habove
  have hks : ks = [] := by
    refine List.length_eq_zero_iff.mp ?_
    simp only [List.nil_append, List.head?_cons, Option.map_some, List.length_append,
      Option.some.injEq] at hconts
    omega
  subst hks
  exact ⟨f, hstack, hf⟩

end Machine

/-!
## Engines at rest

The frames of an evaluation never pass more children than their records have. An evaluation is done
only when its last activation is closed, and what it leaves of the engine is a station at rest: the
engine is not busy, no activation is left, and the next evaluation begins on an empty stack. The same
holds when the host gives up an evaluation that is parked.

* `Regime.bounded`: the frames of all evaluations are bounded.
* `Session.Running.drive_done`: a drive is done on an empty stack.
* `Session.AtRest`, `Session.frames_balanced`: what is left of evaluations, in every session that a
  host can get to.
-/

open Act

/-! ### Children that were passed -/

/-- A new frame has passed no children. -/
theorem Frame.bounded_new {f : Frame} (h : f.nextChild = 0) : f.Bounded :=
  fun _ _ => h ▸ Nat.zero_le _

/-- All live frames are bounded. -/
def Invariant.bounded : Invariant where
  holds fs _ := ∀ f ∈ fs, f.Bounded
  quiet h _ := h
  binding h _ _ _ := h
  birth h _ := h
  link h _ hr hn := List.forall_mem_cons.mpr
    ⟨(Frame.Same.linked hr hn).bounded (h _ List.mem_cons_self), (List.forall_mem_cons.mp h).2⟩
  capture _ h _ _ _ _ := List.forall_mem_cons.mpr ⟨Frame.bounded_new rfl, h⟩
  share _ h _ _ _ := List.forall_mem_cons.mpr ⟨Frame.bounded_new rfl, h⟩
  code h _ := List.forall_mem_cons.mpr ⟨Frame.bounded_new rfl, h⟩
  mark h _ := List.forall_mem_cons.mpr
    ⟨(List.forall_mem_cons.mp h).1, (List.forall_mem_cons.mp h).2⟩
  close h := (List.forall_mem_cons.mp h).2

/-- The frames of all evaluations are bounded, whatever a host does. -/
def Regime.bounded (H : Host) : Regime H where
  invariant := .bounded
  atlas := .any
  lone := false
  covers _ c _ := Atlas.covers_any c
  place _ _ _ := trivial
  unit h _ := List.forall_mem_cons.mpr ⟨Frame.bounded_new rfl, h⟩
  code h _ := List.forall_mem_cons.mpr ⟨Frame.bounded_new rfl, h⟩
  ended h _ := h
  child h _ _ _ _ := h
  link _ h := h
  first _ _ _ _ _ := nofun
  further _ h _ _ _ _ _ := ⟨h, nofun⟩
  others _ h _ := h

/-! ### The end of an evaluation -/

/-- A machine is done only on an empty stack. -/
theorem Machine.stack_of_done {m : Machine} {c d : Core} {outcome : Outcome}
    (h : m.step c = (.done outcome, d)) : m.stack = [] := by
  obtain ⟨control, stack⟩ := m
  cases stack with
  | nil => rfl
  | cons a callers =>
    have hperform : ∀ b bs (p : Act Move), Machine.perform b bs p c ≠ (.done outcome, d) := by
      intro b bs p heq
      unfold Machine.perform at heq
      split at heq <;> cases heq
    unfold Machine.step at h
    cases control with
    | eval | exec => exact absurd h (hperform _ _ _)
    | checkpoint v =>
      dsimp only at h
      split at h <;> cases h
    | waiting p => cases h
    | value | abrupt =>
      dsimp only at h
      split at h
      · cases h
      · exact absurd h (hperform _ _ _)

namespace Session

variable {H : Host} {s t : Session} {i : Nat} {m : Machine} {c : Core}

/-- A drive that is done closed all activations. -/
theorem Running.drive_done (hm : Running H s i m c) {n : Nat} {outcome : Outcome} {d : Core}
    (hdrive : c.drive n m = (.done outcome, d)) :
    ∃ m' c', Running H s i m' c' ∧ m'.stack = [] ∧ m'.step c' = (.done outcome, d) := by
  refine Core.drive_induct (P := Running H s i)
    (Q := fun r => ∀ outcome d, r = (.done outcome, d) →
      ∃ m' c', Running H s i m' c' ∧ m'.stack = [] ∧ m'.step c' = (.done outcome, d))
    (fun _ _ _ heq => by cases heq) (fun hm hstep outcome d heq => ?_) (fun hm hstep => hm.step hstep)
    (fun _ _ _ _ heq => by cases heq) (fun hm hstep hτ hripe => ?_) n hm outcome d hdrive
  · cases heq
    exact ⟨_, _, hm, Machine.stack_of_done hstep, hstep⟩
  · exact hm.settle hstep hτ hripe (Machine.resume_waiting (Machine.control_of_step hstep) _)

/-- Engine `i` is at rest: it is not busy, its call stack is empty, and the next evaluation is not turned
down but begins on an empty stack. -/
structure AtRest (s : Session) (i : Nat) : Prop where
  idle : (s.station i).isBusy = false
  stack : (s.station i).stack = []
  depth : (s.station i).depth = 0
  begins : ∀ act loan,
    let r := Machine.start act (s.armed i)
    (s.armed i).engine.below = [] ∧ r.1.stack.length ≤ 1 ∧
      s.evaluate i act loan =
        s.settleStop i loan (r.2.drive s.fuel r.1).1 (r.2.drive s.fuel r.1).2

/-- The guards of an engine without a parked evaluation have put it to rest. -/
theorem atRest_of_guarded (h : (s.station i).Guarded) (hf : (s.station i).flight = none) :
    s.AtRest i := by
  have hidle : (s.station i).isBusy = false := h.busy.trans (by rw [hf]; rfl)
  have hstack : (s.station i).stack = [] := h.stack.trans (by rw [Station.frames, hf])
  refine ⟨hidle, hstack, congrArg List.length hstack, fun act loan => ⟨?_, ?_, ?_⟩⟩
  · exact congrArg (List.map Frame.position) h.base_eq_nil
  · unfold Machine.start
    split <;> simp
  · unfold evaluate
    rw [hidle, if_neg Bool.false_ne_true]

/-- Once an evaluation is done its engine is at rest. -/
theorem atRest_settleStop (hs : (s.station i).Guarded) (hi : i < s.stations.size) {loan : Loan}
    {stop : Core.Stop} {result : Except EngineError Value}
    (h : s.settleStop i loan stop c = (.finished result, t)) : t.AtRest i := by
  cases stop with
  | done outcome =>
    have hguarded := guarded_settleStop hs (j := i) loan (.done outcome) c
    rw [h] at hguarded
    refine atRest_of_guarded hguarded ?_
    rw [settleStop_done] at h
    cases h
    exact congrArg Station.flight (station_seat hi ..)
  | parked m p => cases h
  | outOfFuel m => cases h

/-- **Frames are balanced**, on every path. Whatever an activation evaluates, and whatever comes of
it, the activations below it stay as they are, and when the evaluation is back the activation is where
it was, further children of its record apart; no frame passes more children than there are. An
evaluation is done only when its stack is empty, and one that is done or given up leaves the engine
at rest. -/
theorem frames_balanced (hs : Live H s) (hi : i < s.stations.size) :
    (∀ a callers m₀ m, Machine.Begins a callers m₀ → Machine.Evaluates a callers m₀ m →
      m.Over a callers ∧ (m.Back a callers → m.Restored a callers)) ∧
    (∀ m c, Running H s i m c → ∀ a ∈ m.stack, a.frame.Bounded) ∧
    (∀ m c n outcome d, Running H s i m c → c.drive n m = (.done outcome, d) →
      ∃ m' c', Running H s i m' c' ∧ m'.stack = [] ∧ m'.step c' = (.done outcome, d)) ∧
    (∀ act loan result t, (s.station i).isBusy = false →
      s.evaluate i act loan = (.finished result, t) → t.AtRest i) ∧
    (∀ result t, s.poll i = (some (.finished result), t) → t.AtRest i) ∧
    (s.abandon i).2.AtRest i := by
  have hrules : (Regime.bounded H).Rules s := Regime.live hs nofun
  refine ⟨fun a callers m₀ m hbegin heval => ?_, fun m c hm a ha => ?_,
    fun m c n outcome d hm hdrive => hm.drive_done hdrive,
    fun act loan result t hidle heq => ?_, fun result t heq => ?_, ?_⟩
  · have hover := heval.over hbegin.over
    exact ⟨hover, hover.restored⟩
  · exact (Regime.running hrules hi hm).holds a.frame (List.mem_map_of_mem ha)
  · unfold evaluate at heq
    rw [hidle, if_neg Bool.false_ne_true] at heq
    exact atRest_settleStop (hs.guarded i) hi heq
  · have hgoes := hrules.goesOn hi
    have hi' : i < (s.arrive i).stations.size := by rwa [stations_arrive]
    have hguarded : ((s.arrive i).station i).Guarded := by
      rw [station_arrive]
      exact hs.guarded i
    generalize s.arrive i = u at hgoes hi' hguarded
    generalize s.poll i = r at hgoes heq
    cases hgoes with
    | idle => cases heq
    | waits => cases heq
    | resumes =>
      obtain ⟨hanswer, rfl⟩ := Prod.mk.inj heq
      exact atRest_settleStop hguarded hi' (Prod.ext (Option.some.inj hanswer) rfl)
  · refine atRest_of_guarded (guarded_edit (hs.guarded i) (.abandon (H := H) s i)) ?_
    rcases s.abandon_cases i with ⟨heq, hf⟩ | ⟨f, -, heq⟩ <;> rw [heq]
    · exact hf
    · exact congrArg Station.flight (station_modifyStation hi _)

end Session

/-! ### A throw, and an evaluation that is given up -/

namespace Machine

variable {a : Activation} {callers : List Activation} {m₀ m m' : Machine} {c c' : Core}

/-- A value, or a transfer of control, is on its way. -/
def ended (m : Machine) : Bool :=
  match m.control with
  | .value _ | .abrupt _ => true
  | _ => false

theorem ended_iff : m.ended = true ↔ (∃ v, m.control = .value v) ∨ ∃ x, m.control = .abrupt x := by
  unfold ended
  cases m.control <;> simp

instance : Decidable (Back a callers m) := decidable_of_iff _ (and_congr_left' ended_iff)

/-- The evaluation for an activation after as many steps, unless it is back before. -/
def evaluated? (a : Activation) (callers : List Activation) : Nat → Machine → Core → Option Machine
  | 0, m, _ => some m
  | n + 1, m, c =>
    if Back a callers m then none
    else
      match m.step c with
      | (.running m, c) => evaluated? a callers n m c
      | _ => none

theorem Evaluates.of_evaluated? {n : Nat} (h : Evaluates a callers m₀ m)
    (heq : evaluated? a callers n m c = some m') : Evaluates a callers m₀ m' := by
  induction n generalizing m c with
  | zero =>
    cases heq
    exact h
  | succ n ih =>
    unfold evaluated? at heq
    split at heq
    · cases heq
    next hback =>
      split at heq
      next hstep => exact ih (.step h hback hstep) heq
      next => cases heq

/-- An expression is next. After as many steps, it is back and has thrown this truth value. -/
def throwsAfter (n : Nat) (b : Bool) (m : Machine) (c : Core) : Bool :=
  match m with
  | ⟨.eval _, a :: callers⟩ => (evaluated? a callers n m c).any fun m' =>
      match m'.control with
      | .abrupt (.thrown (.bool b')) => b == b' && decide (Back a callers m')
      | _ => false
  | _ => false

theorem exists_of_throwsAfter {n : Nat} {b : Bool} (h : m.throwsAfter n b c = true) :
    ∃ e a callers m', Begins a callers ⟨.eval e, a :: callers⟩ ∧
      Evaluates a callers ⟨.eval e, a :: callers⟩ m' ∧ m'.control = .abrupt (.thrown (.bool b)) ∧
      Back a callers m' := by
  unfold throwsAfter at h
  split at h
  next e a callers =>
    obtain ⟨m', hm', h⟩ := (Option.any_eq_true ..).mp h
    split at h
    next b' hcontrol =>
      obtain ⟨hb, hback⟩ := Bool.and_eq_true_iff.mp h
      rw [eq_of_beq hb]
      exact ⟨e, a, callers, m', .expr e, .of_evaluated? .start hm', hcontrol, of_decide_eq_true hback⟩
    next => cases h
  next => cases h

end Machine

/-- The evaluation failed, as the guest did not catch what it threw. -/
def Answer.isUncaught : Answer → Bool
  | .finished (.error (.uncaught _)) => true
  | _ => false

theorem Answer.run_of_isUncaught {r : Answer × Session} {t : Session} (h : r.1.isUncaught = true)
    (ht : r.2 = t) : ∃ failure, r = (.finished (.error (.uncaught failure)), t) := by
  unfold isUncaught at h
  split at h
  next failure hfailure => exact ⟨failure, Prod.ext hfailure ht⟩
  next => cases h

theorem Answer.poll_of_tells {b : Bool} {r : Option Answer × Session} {t : Session}
    (h : r.1.any (tells b) = true) (ht : r.2 = t) : r = (some (.finished (.ok (.bool b))), t) := by
  obtain ⟨answer, hanswer, htells⟩ := (Option.any_eq_true ..).mp h
  rw [eq_of_tells htells] at hanswer
  exact Prod.ext hanswer ht

namespace Session

/-- A function calls a function that throws. -/
def throwing : CodeUnit := .ofSource "(function () { (function () { throw true; })(); })()"

/-- A function waits for the answer. -/
def asking : CodeUnit := .ofSource "(function () { return answer; })()"

/-- The throw has gone through all activations. -/
def thrown : Session := (awaitingAnswer.runUnit 0 throwing).2

/-- The evaluation waits in the function. -/
def parkedInside : Session := (thrown.runUnit 0 asking).2

/-- The evaluation is given up. -/
def abandoned : Session := (parkedInside.abandon 0).2

/-- The answer is there. -/
def answered : Session := (parkedInside.settle ⟨0, 0⟩ (.fulfilled (.bool true))).2

/-- The evaluation went on. -/
def resumed : Session := (answered.poll 0).2

/-- A throw goes through two functions, and leaves the code that called the outer one where it was. The
engine is at rest after it. The next evaluation waits in a function; the engine is at rest when it is given
up there, and when it goes on and is done. -/
theorem frames_balanced_thrown :
    CodeUnit.compile "(function () { (function () { throw true; })(); })()" [] = .ok throwing ∧
      CodeUnit.compile "(function () { return answer; })()" [] = .ok asking ∧
      (∃ e a callers m, Machine.Begins a callers ⟨.eval e, a :: callers⟩ ∧
        Machine.Evaluates a callers ⟨.eval e, a :: callers⟩ m ∧
        m.control = .abrupt (.thrown (.bool true)) ∧ m.Restored a callers) ∧
      (∃ m c, Running .any awaitingAnswer 0 m c ∧ m.stack.length = 3 ∧
        ∀ a ∈ m.stack, a.frame.Bounded) ∧
      (∃ failure,
        awaitingAnswer.runUnit 0 throwing = (.finished (.error (.uncaught failure)), thrown)) ∧
      thrown.AtRest 0 ∧
      (parkedInside.station 0).isBusy = true ∧ (parkedInside.station 0).depth = 2 ∧
      abandoned.AtRest 0 ∧
      answered.poll 0 = (some (.finished (.ok (.bool true))), resumed) ∧ resumed.AtRest 0 := by
  have hseen : (awaitingAnswer.runUnit 0 throwing).1.isUncaught = true ∧
      0 < awaitingAnswer.stations.size ∧ 0 < thrown.stations.size ∧ 0 < parkedInside.stations.size ∧
      0 < answered.stations.size ∧ (awaitingAnswer.station 0).isBusy = false ∧
      (thrown.runUnit 0 asking).1.isReply = true ∧ (parkedInside.station 0).isBusy = true ∧
      (parkedInside.station 0).depth = 2 ∧ (answered.poll 0).1.any (Answer.tells true) = true := by
    decide +kernel
  obtain ⟨huncaught, hsize, hsize', hparked', hanswered', hidle, hreply, hbusy, hdepth, htells⟩ := hseen
  have hreach : (awaitingAnswer.asked? 0 (Act.openUnit throwing (awaitingAnswer.engine 0).root) 1).any
      (fun r => r.1.throwsAfter 19 true r.2) ∧
      (awaitingAnswer.asked? 0 (Act.openUnit throwing (awaitingAnswer.engine 0).root) 12).any
        (fun r => r.1.stack.length = 3) := by decide +kernel
  obtain ⟨⟨⟨m, c⟩, -, hm⟩, ⟨⟨n, d⟩, hn, hthree⟩⟩ :=
    hreach.imp (Option.any_eq_true ..).mp (Option.any_eq_true ..).mp
  obtain ⟨e, a, callers, m', hbegins, hevaluates, hcontrol, hback⟩ := Machine.exists_of_throwsAfter hm
  have hthrows : ∃ failure,
      awaitingAnswer.runUnit 0 throwing = (.finished (.error (.uncaught failure)), thrown) :=
    Answer.run_of_isUncaught huncaught rfl
  have hpolls : answered.poll 0 = (some (.finished (.ok (.bool true))), resumed) :=
    Answer.poll_of_tells htells rfl
  obtain ⟨failure, hthrows⟩ := hthrows
  have hunit : ∀ (s : Session) u, Request .any s 0 (Act.openUnit u (s.engine 0).root) {} :=
    fun s u => .unit trivial
  have hanswers : (awaitingAnswer.runUnit 0 throwing).1.isReply = true := by
    rw [hthrows]
    rfl
  have hlive : Live .any thrown := live_awaitingAnswer.evaluate hsize (hunit _ _) hanswers
  have hparked : Live .any parkedInside := hlive.evaluate hsize' (hunit _ _) hreply
  have hanswered : Live .any answered := hparked.step (.edit (.settle _ _ _))
  obtain ⟨hframes, hbounded, -, hevaluate, -⟩ := frames_balanced (H := .any) live_awaitingAnswer hsize
  obtain ⟨-, -, -, -, -, habandon⟩ := frames_balanced hparked hparked'
  obtain ⟨-, -, -, -, hpoll, -⟩ := frames_balanced hanswered hanswered'
  have hgiven : abandoned.AtRest 0 := habandon
  exact ⟨CodeUnit.compile_ofSource (by decide +kernel), CodeUnit.compile_ofSource (by decide +kernel),
    ⟨e, a, callers, m', hbegins, hevaluates, hcontrol, (hframes _ _ _ _ hbegins hevaluates).2 hback⟩,
    ⟨n, d, .of_asked hidle (hunit _ _) hn, of_decide_eq_true hthree,
      hbounded _ _ (.of_asked hidle (hunit _ _) hn)⟩,
    ⟨failure, hthrows⟩, hevaluate _ _ _ _ hidle hthrows, hbusy, hdepth, hgiven, hpolls, hpoll _ _ hpolls⟩

end Session

end Fermata
