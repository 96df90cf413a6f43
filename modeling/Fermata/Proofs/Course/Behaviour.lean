import Fermata.Proofs.Course.Strand

/-!
# Behaviours

A run of a strand goes from step to step, and where it stands at a value, from the core that it left to
whatever has become of it meanwhile. A behaviour is what such runs do: from a core, with which pauses, to which
ending and which core. Behaviours come one after the other like computations of a monad, and what a strand does
with a list of continuations is what it does with each, one after the other.

* `Pause`, `Ending`, `Strand.Runs`: counted runs; `Strand.Runs.divide`, `Strand.Runs.push_back`: they divide
  where an evaluation is back.
* `Behaviour`: the monad, with `Behaviour.act` for acts and `Behaviour.handle` for what is told of every
  ending; `Behaviour.Agree`: two behaviours agree from some cores on.
* `Strand.course`, `Strand.course_append`: what an activation does, continuation by continuation.
* `Strand.course_act`, `Strand.course_eval`, `Strand.course_receive`: an act comes first.
-/

namespace Fermata

/-- An evaluation stood at a value until that was settled. Meanwhile anything may have happened, except
that scopes stay what they are. -/
structure Pause where
  pending : PendingId
  before : Core
  settlement : Settlement
  after : Core
  retains : before.heap.Retains after.heap

/-- What an evaluation came to: it is back, or it stands at a value. -/
inductive Ending (α : Type) where
  | back (result : Except Abrupt α) (nextChild : Nat)
  | parked (pending : PendingId)

/-- How an activation goes on after an evaluation. -/
def controlOf : Outcome → Control
  | .ok v => .value v
  | .error x => .abrupt x

namespace Strand

/-- From here to an ending in so many steps, with these pauses on the way. -/
inductive Runs (f : Frame) (n : Nat) :
    Nat → Strand → Core → List Pause → Ending Value → Core → Prop
  | back (o : Outcome) (i : Nat) (c : Core) :
      Runs f n 0 ⟨controlOf o, [], i, []⟩ c [] (.back o i) c
  | parked {w c w' p d} : Parks f n w c w' p d → Runs f n 0 w c [] (.parked p) d
  | step {t w c w' c' ps E d} : Steps f n w c w' c' → Runs f n t w' c' ps E d →
      Runs f n (t + 1) w c ps E d
  | resume {t w c w' ps E d} {q : Pause} : Parks f n w c w' q.pending q.before →
      Runs f n t { w' with control := q.settlement.control } q.after ps E d →
      Runs f n (t + 1) w c (q :: ps) E d

variable {f : Frame} {n : Nat} {w w' : Strand} {c c' c₁ d : Core} {ps ps₁ ps₂ : List Pause}
  {E : Ending Value} {t t₁ t₂ i : Nat} {o : Outcome} {p : PendingId} {ks : List Cont}

theorem back_controlOf (o : Outcome) (i : Nat) : Back ⟨controlOf o, [], i, []⟩ := by
  cases o with
  | ok v => exact ⟨rfl, rfl, .inl ⟨v, rfl⟩⟩
  | error x => exact ⟨rfl, rfl, .inr ⟨x, rfl⟩⟩

theorem Back.eq (h : w.Back) : ∃ o i, w = ⟨controlOf o, [], i, []⟩ := by
  obtain ⟨control, above, i, conts⟩ := w
  obtain ⟨rfl, rfl, ⟨v, rfl⟩ | ⟨x, rfl⟩⟩ := h
  · exact ⟨.ok v, i, rfl⟩
  · exact ⟨.error x, i, rfl⟩

/-- A run goes the way of the first step. -/
theorem Steps.runs_iff (h : Steps f n w c w' c') :
    Runs f n t w c ps E d ↔ ∃ t', t = t' + 1 ∧ Runs f n t' w' c' ps E d := by
  constructor
  · intro hrun
    cases hrun with
    | back o i => exact absurd h (back_controlOf o i).not_steps
    | parked hpark => exact absurd hpark h.not_parks
    | step hstep hrest =>
      obtain ⟨rfl, rfl⟩ := h.unique hstep
      exact ⟨_, rfl, hrest⟩
    | resume hpark => exact absurd hpark h.not_parks
  · rintro ⟨t', rfl, hrest⟩
    exact .step h hrest

/-- A run that stands goes on with a settlement, or not at all. -/
theorem Parks.runs (h : Parks f n w c w' p c') (hrun : Runs f n t w c ps E d) :
    E = .parked p ∨ ∃ t' q qs, t = t' + 1 ∧ ps = q :: qs ∧
      Runs f n t' { w' with control := q.settlement.control } q.after qs E d := by
  cases hrun with
  | back o i => exact absurd h (back_controlOf o i).not_parks
  | parked hpark =>
    obtain ⟨-, rfl, -⟩ := h.unique hpark
    exact .inl rfl
  | step hstep => exact absurd h hstep.not_parks
  | resume hpark hrest =>
    obtain ⟨rfl, -, -⟩ := h.unique hpark
    exact .inr ⟨_, _, _, rfl, rfl, hrest⟩

/-- A strand that is back is at its end. -/
theorem runs_back_iff : Runs f n t ⟨controlOf o, [], i, []⟩ c ps E d ↔
    t = 0 ∧ ps = [] ∧ E = .back o i ∧ d = c := by
  constructor
  · intro hrun
    generalize hw : (⟨controlOf o, [], i, []⟩ : Strand) = w at hrun
    have hback : w.Back := hw ▸ back_controlOf o i
    cases hrun with
    | back o' i' =>
      obtain ⟨hcontrol, -, rfl, -⟩ := Strand.mk.inj hw
      obtain rfl : o = o' := by
        cases o <;> cases o' <;> cases hcontrol <;> rfl
      exact ⟨rfl, rfl, rfl, rfl⟩
    | parked hpark => exact absurd hpark hback.not_parks
    | step hstep => exact absurd hstep hback.not_steps
    | resume hpark => exact absurd hpark hback.not_parks
  · rintro ⟨rfl, rfl, rfl, rfl⟩
    exact .back o i d

/-! ## One evaluation after the other -/

/-- What an evaluation does, it does before its continuations. -/
theorem Runs.push_back (h : Runs f n t₁ w c ps₁ (.back o i) c₁)
    (hrest : Runs f n t₂ ⟨controlOf o, [], i, ks⟩ c₁ ps₂ E d) :
    Runs f n (t₁ + t₂) (w.push ks) c (ps₁ ++ ps₂) E d := by
  generalize hE : Ending.back o i = E₁ at h
  induction h with
  | back o' i' c =>
    cases hE
    rw [Nat.zero_add]
    exact hrest
  | parked => cases hE
  | step hstep _ ih =>
    rw [Nat.succ_add]
    exact .step (hstep.push ks) (ih hrest hE)
  | resume hpark _ ih =>
    rw [Nat.succ_add]
    exact .resume (hpark.push ks) (ih hrest hE)

theorem Runs.push_parked (h : Runs f n t w c ps (.parked p) d) :
    Runs f n t (w.push ks) c ps (.parked p) d := by
  generalize hE : Ending.parked p = E at h
  induction h with
  | back => cases hE
  | parked hpark =>
    cases hE
    exact .parked (hpark.push ks)
  | step hstep _ ih => exact .step (hstep.push ks) (ih hE)
  | resume hpark _ ih => exact .resume (hpark.push ks) (ih hE)

/-- **A run divides where an evaluation is back**, unless that never comes back. -/
theorem Runs.divide (h : Runs f n t (w.push ks) c ps E d) :
    (∃ p, E = .parked p ∧ Runs f n t w c ps (.parked p) d) ∨
      ∃ t₁ t₂ ps₁ ps₂ o i c₁, t = t₁ + t₂ ∧ ps = ps₁ ++ ps₂ ∧
        Runs f n t₁ w c ps₁ (.back o i) c₁ ∧ Runs f n t₂ ⟨controlOf o, [], i, ks⟩ c₁ ps₂ E d := by
  generalize hw : w.push ks = w₀ at h
  induction h generalizing w with
  | back o i c =>
    obtain ⟨control, above, j, conts⟩ := w
    obtain ⟨rfl, rfl, rfl, hconts⟩ := Strand.mk.inj hw
    obtain ⟨rfl, rfl⟩ := List.append_eq_nil_iff.mp hconts
    exact .inr ⟨0, 0, [], [], o, j, c, rfl, rfl, .back o j c, .back o j c⟩
  | @parked w₀ c w' p d hpark =>
    subst hw
    by_cases hback : w.Back
    · obtain ⟨o, i, rfl⟩ := hback.eq
      exact .inr ⟨0, 0, [], [], o, i, c, rfl, rfl, .back o i c, .parked hpark⟩
    · rcases steps_or_parks hback c with ⟨w₁, c₁, hstep⟩ | ⟨q, w₁, c₁, -, hpark'⟩
      · exact absurd hpark (hstep.push ks).not_parks
      · obtain ⟨-, rfl, rfl⟩ := (hpark'.push ks).unique hpark
        exact .inl ⟨q, rfl, .parked hpark'⟩
  | @step t w₀ c w' c' ps E d hstep hrest ih =>
    subst hw
    by_cases hback : w.Back
    · obtain ⟨o, i, rfl⟩ := hback.eq
      exact .inr ⟨0, t + 1, [], ps, o, i, c, by omega, rfl, .back o i c, .step hstep hrest⟩
    · rcases steps_or_parks hback c with ⟨w₁, c₁, hstep'⟩ | ⟨q, w₁, c₁, -, hpark⟩
      · obtain ⟨rfl, rfl⟩ := (hstep'.push ks).unique hstep
        rcases ih rfl with ⟨p, rfl, hrun⟩ | ⟨t₁, t₂, ps₁, ps₂, o, i, c₂, rfl, rfl, hrun, hlast⟩
        · exact .inl ⟨p, rfl, .step hstep' hrun⟩
        · exact .inr ⟨t₁ + 1, t₂, ps₁, ps₂, o, i, c₂, by omega, rfl, .step hstep' hrun, hlast⟩
      · exact absurd (hpark.push ks) hstep.not_parks
  | @resume t w₀ c w' ps E d q hpark hrest ih =>
    subst hw
    by_cases hback : w.Back
    · obtain ⟨o, i, rfl⟩ := hback.eq
      exact .inr ⟨0, t + 1, [], q :: ps, o, i, c, by omega, rfl, .back o i c, .resume hpark hrest⟩
    · rcases steps_or_parks hback c with ⟨w₁, c₁, hstep⟩ | ⟨q', w₁, c₁, -, hpark'⟩
      · exact absurd hpark (hstep.push ks).not_parks
      · obtain ⟨rfl, rfl, rfl⟩ := (hpark'.push ks).unique hpark
        rcases ih (w := { w₁ with control := q.settlement.control }) rfl with
          ⟨p, rfl, hrun⟩ | ⟨t₁, t₂, ps₁, ps₂, o, i, c₂, rfl, rfl, hrun, hlast⟩
        · exact .inl ⟨p, rfl, .resume hpark' hrun⟩
        · exact .inr ⟨t₁ + 1, t₂, q :: ps₁, ps₂, o, i, c₂, by omega, rfl, .resume hpark' hrun, hlast⟩

end Strand

/-! ## Behaviours -/

/-- What an evaluation does, from a number of passed children and a core: the pauses, what it comes to, and
the core that it leaves. -/
def Behaviour (α : Type) : Type := Nat → Core → List Pause → Ending α → Core → Prop

namespace Behaviour

variable {α β γ : Type}

theorem ext {b b' : Behaviour α} (h : ∀ i c ps E d, b i c ps E d ↔ b' i c ps E d) : b = b' :=
  funext fun i => funext fun c => funext fun ps => funext fun E => funext fun d => propext (h i c ps E d)

/-- Being back at once. -/
def result (o : Except Abrupt α) : Behaviour α := fun i c ps E d => ps = [] ∧ E = .back o i ∧ d = c

/-- One behaviour after the other, which is told how the first one ended. -/
inductive Then (b : Behaviour α) (k : Except Abrupt α → Behaviour β) (i : Nat) (c : Core) :
    List Pause → Ending β → Core → Prop
  | parked {ps p d} : b i c ps (.parked p) d → Then b k i c ps (.parked p) d
  | back {ps ps' o j c' E d} : b i c ps (.back o j) c' → k o j c' ps' E d →
      Then b k i c (ps ++ ps') E d

/-- One behaviour after the other. -/
def handle (b : Behaviour α) (k : Except Abrupt α → Behaviour β) : Behaviour β := Then b k

theorem result_handle (o : Except Abrupt α) (k : Except Abrupt α → Behaviour β) :
    (result o).handle k = k o := by
  refine ext fun i c ps E d => ⟨fun h => ?_, fun h => ?_⟩
  · cases h with
    | parked hb => cases hb.2.1
    | back hb hk =>
      obtain ⟨rfl, heq, rfl⟩ := hb
      cases heq
      exact hk
  · rw [← List.nil_append ps]
    exact .back ⟨rfl, rfl, rfl⟩ h

theorem handle_result (b : Behaviour α) : b.handle result = b := by
  refine ext fun i c ps E d => ⟨fun h => ?_, fun h => ?_⟩
  · cases h with
    | parked hb => exact hb
    | back hb hk =>
      obtain ⟨rfl, rfl, rfl⟩ := hk
      rwa [List.append_nil]
  · cases E with
    | parked p => exact .parked h
    | back o j =>
      rw [← List.append_nil ps]
      exact .back h ⟨rfl, rfl, rfl⟩

theorem handle_assoc (b : Behaviour α) (k : Except Abrupt α → Behaviour β)
    (k' : Except Abrupt β → Behaviour γ) :
    (b.handle k).handle k' = b.handle fun o => (k o).handle k' := by
  refine ext fun i c ps E d => ⟨fun h => ?_, fun h => ?_⟩
  · cases h with
    | parked hb =>
      cases hb with
      | parked hb => exact .parked hb
      | back hb hk => exact .back hb (.parked hk)
    | back hb hk' =>
      cases hb with
      | back hb hk =>
        rw [List.append_assoc]
        exact .back hb (.back hk hk')
  · cases h with
    | parked hb => exact .parked (.parked hb)
    | back hb hk =>
      cases hk with
      | parked hk => exact .parked (.back hb hk)
      | back hk hk' =>
        rw [← List.append_assoc]
        exact .back (.back hb hk) hk'

/-- Go on after a value only. -/
def onValue (k : α → Behaviour β) : Except Abrupt α → Behaviour β
  | .ok v => k v
  | .error x => result (.error x)

instance : Monad Behaviour where
  pure v := result (.ok v)
  bind b k := b.handle (onValue k)

theorem bind_eq (b : Behaviour α) (k : α → Behaviour β) : b >>= k = b.handle (onValue k) := rfl

/-- A transfer of control skips what follows. -/
theorem error_bind (x : Abrupt) (k : α → Behaviour β) :
    (result (.error x) : Behaviour α) >>= k = result (.error x) :=
  result_handle _ _

instance : LawfulMonad Behaviour := by
  refine LawfulMonad.mk' _ (fun b => ?_) (fun v k => result_handle _ _) fun b k k' => ?_
  · change b.handle (onValue fun v => result (.ok (id v))) = b
    refine Eq.trans (congrArg b.handle (funext fun o => ?_)) (handle_result b)
    cases o <;> rfl
  · refine (handle_assoc b (onValue k) (onValue k')).trans (congrArg b.handle (funext fun o => ?_))
    cases o with
    | ok v => rfl
    | error x => exact result_handle _ _

/-! ### Acts -/

/-- How an act ended, and the core that it left. -/
def ran : EStateM.Result Abrupt Core α → Except Abrupt α × Core
  | .ok v d => (.ok v, d)
  | .error x d => (.error x, d)

/-- What an act does. -/
def act (a : Act α) : Behaviour α := fun i c ps E d =>
  ps = [] ∧ E = .back (ran (a c)).1 i ∧ d = (ran (a c)).2

theorem act_bind (a : Act α) (k : α → Act β) : act (a >>= k) = act a >>= fun v => act (k v) := by
  refine ext fun i c ps E d => ⟨fun h => ?_, fun h => ?_⟩
  · unfold act at h
    simp only [Bind.bind, EStateM.bind] at h
    rw [← List.nil_append ps]
    have hact : act a i c [] (.back (ran (a c)).1 i) (ran (a c)).2 := ⟨rfl, rfl, rfl⟩
    refine .back hact ?_
    cases ha : a c with
    | ok v c' =>
      rw [ha] at h
      exact h
    | error x c' =>
      rw [ha] at h
      exact h
  · cases h with
    | parked hb => cases hb.2.1
    | back hb hk =>
      obtain ⟨rfl, heq, rfl⟩ := hb
      cases heq
      unfold act
      simp only [Bind.bind, EStateM.bind, List.nil_append]
      cases ha : a c with
      | ok v c' =>
        rw [ha] at hk
        exact hk
      | error x c' =>
        rw [ha] at hk
        exact hk

/-! ### Agreement from some cores on -/

variable {P : Core → Prop} {b b' : Behaviour α} {k k' : α → Behaviour β}

/-- Two behaviours agree from these cores. -/
def Agree (P : Core → Prop) (b b' : Behaviour α) : Prop :=
  ∀ i c, P c → ∀ ps E d, b i c ps E d ↔ b' i c ps E d

theorem Agree.of_eq (h : b = b') : Agree P b b' := fun _ _ _ _ _ _ => h ▸ Iff.rfl

theorem Agree.symm (h : Agree P b b') : Agree P b' b := fun i c hc ps E d => (h i c hc ps E d).symm

theorem Agree.trans {b'' : Behaviour α} (h : Agree P b b') (h' : Agree P b' b'') : Agree P b b'' :=
  fun i c hc ps E d => (h i c hc ps E d).trans (h' i c hc ps E d)

/-- What comes after agrees as well, if it does from what is left. -/
theorem Agree.bind {Q : α → Core → Prop} (h : Agree P b b')
    (hleft : ∀ {i c ps v j d}, P c → b i c ps (.back (.ok v) j) d → Q v d)
    (hrest : ∀ v, Agree (Q v) (k v) (k' v)) : Agree P (b >>= k) (b' >>= k') := by
  intro i c hc ps E d
  constructor
  · intro hb
    cases hb with
    | parked hb => exact .parked ((h i c hc _ _ _).mp hb)
    | @back ps₁ ps₂ o j c' E d hb hk =>
      refine .back ((h i c hc _ _ _).mp hb) ?_
      cases o with
      | ok v => exact (hrest v j c' (hleft hc hb) _ _ _).mp hk
      | error x => exact hk
  · intro hb
    cases hb with
    | parked hb => exact .parked ((h i c hc _ _ _).mpr hb)
    | @back ps₁ ps₂ o j c' E d hb hk =>
      refine .back ((h i c hc _ _ _).mpr hb) ?_
      cases o with
      | ok v => exact (hrest v j c' (hleft hc ((h i c hc _ _ _).mpr hb)) _ _ _).mpr hk
      | error x => exact hk

/-- What comes after the same behaviour. -/
theorem Agree.first (h : Agree P b b') (k : α → Behaviour β) : Agree P (b >>= k) (b' >>= k) :=
  h.bind (Q := fun _ _ => True) (fun _ _ => trivial) fun _ => .of_eq rfl

end Behaviour

/-! ## Behaviours of strands -/

namespace Strand

open Behaviour

variable {f : Frame} {n i : Nat} {c c' : Core} {control : Control} {ks ks' : List Cont} {k : Cont}
  {α : Type}

/-- What an activation does from a control and continuations on. -/
def course (f : Frame) (n : Nat) (control : Control) (ks : List Cont) : Behaviour Value :=
  fun i c ps E d => ∃ t, Runs f n t ⟨control, [], i, ks⟩ c ps E d

theorem course_result (o : Outcome) : course f n (controlOf o) [] = result o :=
  ext fun _ _ _ _ _ => ⟨fun ⟨_, h⟩ => (runs_back_iff.mp h).2, fun h => ⟨0, runs_back_iff.mpr ⟨rfl, h⟩⟩⟩

theorem course_value (v : Value) : course f n (.value v) [] = pure v := course_result (.ok v)

theorem course_abrupt (x : Abrupt) : course f n (.abrupt x) [] = result (.error x) :=
  course_result (.error x)

/-- **Continuations come one after the other.** -/
theorem course_append (control : Control) (ks ks' : List Cont) :
    course f n control (ks ++ ks') =
      (course f n control ks).handle fun o => course f n (controlOf o) ks' := by
  refine ext fun i c ps E d => ⟨fun ⟨t, h⟩ => ?_, fun h => ?_⟩
  · have hwhole : Runs f n t (Strand.push ⟨control, [], i, ks⟩ ks') c ps E d := h
    rcases hwhole.divide with
      ⟨p, rfl, hrun⟩ | ⟨t₁, t₂, ps₁, ps₂, o, j, c₁, rfl, rfl, hrun, hrest⟩
    · exact .parked ⟨t, hrun⟩
    · exact .back ⟨t₁, hrun⟩ ⟨t₂, hrest⟩
  · cases h with
    | parked hb => exact hb.imp fun t hrun => hrun.push_parked
    | back hb hk =>
      obtain ⟨t₁, hrun⟩ := hb
      obtain ⟨t₂, hrest⟩ := hk
      exact ⟨t₁ + t₂, hrun.push_back hrest⟩

/-- **An act comes first.** From one core, the behaviour is that of what the act leads to there. -/
theorem course_act_at {i : Nat} {c : Core} {r : EStateM.Result Abrupt Core Move}
    (hstep : Steps f n ⟨control, [], i, ks⟩ c (performed i [] r).1 (performed i [] r).2) {a : Act α}
    {K : α → List Cont} {C : α → Control}
    (hr : r = (a >>= fun v => pure (.go (K v) (C v))) c) (ps : List Pause) (E : Ending Value)
    (d : Core) :
    course f n control ks i c ps E d ↔ (act a >>= fun v => course f n (C v) (K v)) i c ps E d := by
  have hact : act a i c [] (.back (ran (a c)).1 i) (ran (a c)).2 := ⟨rfl, rfl, rfl⟩
  subst hr
  simp only [Bind.bind, EStateM.bind] at hstep
  constructor
  · rintro ⟨t, h⟩
    obtain ⟨t', -, hrest⟩ := hstep.runs_iff.mp h
    rw [← List.nil_append ps]
    refine .back hact ?_
    cases ha : a c with
    | ok v c' =>
      rw [ha] at hrest
      refine ⟨t', ?_⟩
      change Runs f n t' ⟨C v, [], i, K v ++ []⟩ c' ps E d at hrest
      rwa [List.append_nil] at hrest
    | error x c' =>
      rw [ha] at hrest
      exact (runs_back_iff (o := .error x).mp hrest).2
  · intro h
    cases h with
    | parked hb => cases hb.2.1
    | back hb hk =>
      obtain ⟨rfl, heq, rfl⟩ := hb
      cases heq
      rw [List.nil_append]
      cases ha : a c with
      | ok v c' =>
        rw [ha] at hk hstep
        obtain ⟨t, hrest⟩ := hk
        refine ⟨t + 1, hstep.runs_iff.mpr ⟨t, rfl, ?_⟩⟩
        change Runs f n t ⟨C v, [], i, K v ++ []⟩ c' _ E d
        rwa [List.append_nil]
      | error x c' =>
        rw [ha] at hk hstep
        exact ⟨1, hstep.runs_iff.mpr ⟨0, rfl, (runs_back_iff (o := .error x)).mpr ⟨rfl, hk⟩⟩⟩

/-- The same from every core. -/
theorem course_act {p : Nat → Act Move}
    (hstep : ∀ i c, Steps f n ⟨control, [], i, ks⟩ c (performed i [] (p i c)).1
      (performed i [] (p i c)).2) {a : Act α} {K : α → List Cont} {C : α → Control}
    (hp : ∀ i, p i = a >>= fun v => pure (.go (K v) (C v))) :
    course f n control ks = act a >>= fun v => course f n (C v) (K v) :=
  ext fun i c ps E d => course_act_at (hstep i c) (congrFun (hp i) c) ps E d

theorem course_eval {e : Expr} {a : Act α} {K : α → List Cont} {C : α → Control}
    (h : ∀ i, Act.startExpr (site f n i) e = a >>= fun v => pure (.go (K v) (C v))) :
    course f n (.eval e) [] = act a >>= fun v => course f n (C v) (K v) :=
  course_act (fun _ _ => steps_eval e) h

theorem course_receive {v : Value} {a : Act α} {K : α → List Cont} {C : α → Control}
    (h : ∀ i, Act.receive (site f n i) k v = a >>= fun v => pure (.go (K v) (C v))) :
    course f n (.value v) [k] = act a >>= fun v => course f n (C v) (K v) :=
  course_act (fun _ _ => steps_receive k v) h

/-! ### Steps that leave no trace

Where nothing but a new control comes of an act. -/

section Trace

variable {e : Expr} {t : Stmt} {labels : List String} {v : Value} {x : Abrupt} {K : List Cont}
  {C : Control}

/-- **A step that leaves no trace does not matter.** -/
theorem course_steps (hstep : ∀ i c, Steps f n ⟨control, [], i, ks⟩ c ⟨C, [], i, K⟩ c) :
    course f n control ks = course f n C K := by
  refine ext fun i c ps E d => ⟨fun ⟨t, h⟩ => ?_, fun ⟨t, h⟩ => ⟨t + 1, .step (hstep i c) h⟩⟩
  obtain ⟨t', -, hrest⟩ := (hstep i c).runs_iff.mp h
  exact ⟨t', hrest⟩

theorem steps_of_go {p : Act Move} (hstep : Steps f n ⟨control, [], i, ks⟩ c (performed i [] (p c)).1
    (performed i [] (p c)).2) (hp : p = pure (.go K C)) :
    Steps f n ⟨control, [], i, ks⟩ c ⟨C, [], i, K⟩ c := by
  subst hp
  change Steps f n _ c ⟨C, [], i, K ++ []⟩ c at hstep
  rwa [List.append_nil] at hstep

theorem steps_receive_go (h : ∀ i, Act.receive (site f n i) k v = pure (.go K C)) (i : Nat) (c : Core) :
    Steps f n ⟨.value v, [], i, [k]⟩ c ⟨C, [], i, K⟩ c :=
  steps_of_go (steps_receive k v) (h i)

theorem steps_intercept_go (h : ∀ i, Act.intercept (site f n i) k x = pure (.go K C)) (i : Nat)
    (c : Core) : Steps f n ⟨.abrupt x, [], i, [k]⟩ c ⟨C, [], i, K⟩ c :=
  steps_of_go (steps_intercept k x) (h i)

/-- A transfer of control passes a continuation. -/
theorem steps_intercept_throw (h : ∀ i, Act.intercept (site f n i) k x = throw x) (i : Nat) (c : Core) :
    Steps f n ⟨.abrupt x, [], i, [k]⟩ c ⟨.abrupt x, [], i, []⟩ c := by
  have hstep : Steps f n ⟨.abrupt x, [], i, [k]⟩ c (performed i [] (Act.intercept (site f n i) k x c)).1
    (performed i [] (Act.intercept (site f n i) k x c)).2 := steps_intercept k x
  rwa [h i] at hstep

theorem course_eval_go (h : ∀ i, Act.startExpr (site f n i) e = pure (.go K C)) :
    course f n (.eval e) [] = course f n C K :=
  course_steps fun i _ => steps_of_go (steps_eval e) (h i)

theorem course_exec_go (h : ∀ i, Act.startStmt (site f n i) t labels = pure (.go K C)) :
    course f n (.exec t labels) [] = course f n C K :=
  course_steps fun i _ => steps_of_go (steps_exec t labels) (h i)

theorem course_receive_go (h : ∀ i, Act.receive (site f n i) k v = pure (.go K C)) :
    course f n (.value v) [k] = course f n C K :=
  course_steps (steps_receive_go h)

end Trace

/-- A continuation that lets transfers of control pass receives values only. -/
theorem course_cons (hk : ∀ s x, Act.intercept s k x = throw x) (control : Control) :
    course f n control [k] = course f n control [] >>= fun v => course f n (.value v) [k] := by
  refine (course_append control [] [k]).trans (congrArg (handle _) (funext fun o => ?_))
  cases o with
  | ok v => rfl
  | error x => exact (course_steps (steps_intercept_throw fun i => hk _ x)).trans (course_abrupt x)

end Strand

end Fermata
