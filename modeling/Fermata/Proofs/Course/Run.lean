import Fermata.Proofs.Course.Behaviour
import Fermata.Proofs.Suspension.Lockstep

/-!
# Whole runs

A run of a machine goes from step to step, and where the machine stands at a value, from the core that it
left to whatever the host has made of it. What the innermost activation does is a part of it, and what comes
after does not depend on how the activation got there. So expressions that behave alike can stand for each
other in every machine.

A drive is a run in which values settle by themselves. The only thing of a machine that it records besides
is the position of each suspension, which no act ever looks at. So machines that do alike are driven alike.

* `Machine.Runs`: a run, with its pauses.
* `Machine.Divided`: the part of a run that belongs to one activation.
* `Machine.runs_congr`: the behaviour of an activation decides the run.
* `Machine.Alike`, `Machine.Alike.stands`: machines that do alike, also after every pause.
* `Core.Alike`: cores that differ in positions only, and `Core.Alike.step` that a step does not see them.
* `Core.driven`: a drive is a run.
* `Core.drive_alike`: machines that do alike are driven alike.
-/

namespace Fermata

/-- Where a run of a machine ends. -/
inductive Halt where
  | done (outcome : Outcome)
  | parked (pending : PendingId)

namespace Strand

variable {f : Frame} {n : Nat} {k : Surroundings n} {w w' : Strand} {m : Machine} {c c' : Core}
  {p : PendingId}

theorem In.control (hm : w.In f k m) : m.control = w.control := by
  obtain ⟨l, rfl⟩ := hm
  rfl

theorem In.resume (hm : w.In f k m) (control : Control) :
    Strand.In f k { w with control } { m with control } := by
  obtain ⟨l, rfl⟩ := hm
  exact ⟨l, rfl⟩

/-- A strand that touched a value waits for it. -/
theorem Parks.waiting (h : Parks f n w c w' p c') : w'.control = .waiting p := by
  have hback : ¬w.Back := fun hback => hback.not_parks h
  rcases steps_or_parks hback c with ⟨w₁, c₁, hstep⟩ | ⟨q, w₁, c₁, hcontrol, hpark⟩
  · exact absurd h hstep.not_parks
  · obtain ⟨rfl, rfl, -⟩ := h.unique hpark
    exact hcontrol

end Strand

namespace Machine

/-- From here to the end, or to a value that is not settled, with these pauses on the way. -/
inductive Runs : Machine → Core → List Pause → Halt → Core → Prop
  | done {m c o d} : m.step c = (.done o, d) → Runs m c [] (.done o) d
  | parked {m c m' p d} : m.step c = (.parked m' p, d) → Runs m c [] (.parked p) d
  | step {m c m' c' ps h d} : m.step c = (.running m', c') → Runs m' c' ps h d → Runs m c ps h d
  | resume {m c m' m'' ps h d} {q : Pause} : m.step c = (.parked m' q.pending, q.before) →
      m'.resume q.settlement = .ok m'' → Runs m'' q.after ps h d → Runs m c (q :: ps) h d

variable {m m' : Machine} {c d : Core} {ps : List Pause} {h : Halt} {f : Frame} {n : Nat}
  {k : Surroundings n} {w : Strand}

theorem runs_step (hstep : m.step c = (.running m', d)) {e : Core} :
    m.Runs c ps h e ↔ m'.Runs d ps h e := by
  refine ⟨fun hrun => ?_, .step hstep⟩
  cases hrun with
  | done heq => cases hstep.symm.trans heq
  | parked heq => cases hstep.symm.trans heq
  | step heq hrest =>
    cases hstep.symm.trans heq
    exact hrest
  | resume heq => cases hstep.symm.trans heq

/-- An activation is left when it has nothing left to do. -/
theorem step_back {a : Activation} {callers : List Activation} {o : Outcome} (ha : a.conts = []) :
    step ⟨controlOf o, a :: callers⟩ c = (.running ⟨close a.boundary o, callers⟩, c) := by
  obtain ⟨frame, boundary, conts⟩ := a
  obtain rfl : conts = [] := ha
  cases o <;> rfl

/-- What a run of a machine is for a strand: it stops on the way, or it goes on when the activation is left. -/
inductive Divided (f : Frame) (k : Surroundings n) (w : Strand) (c : Core) :
    List Pause → Halt → Core → Prop
  | parked {t ps p d} : w.Runs f n t c ps (.parked p) d → Divided f k w c ps (.parked p) d
  | back {t ps ps' o i c' h d} : w.Runs f n t c ps (.back o i) c' →
      Runs ⟨close k.boundary o, k.callers⟩ c' ps' h d → Divided f k w c (ps ++ ps') h d

/-- Where a strand is back, its activation is left. -/
theorem Runs.of_back (hrun : m.Runs c ps h d) (hm : w.In f k m) (hrest : k.rest = [])
    (hback : w.Back) : Divided f k w c ps h d := by
  obtain ⟨o, i, rfl⟩ := hback.eq
  obtain ⟨l, rfl⟩ := hm
  have hleft : Machine.step ⟨controlOf o, Strand.base f k i l [] :: k.callers⟩ c =
      (.running ⟨close k.boundary o, k.callers⟩, c) := step_back hrest
  rw [← List.nil_append ps]
  exact .back (.back o i c) ((runs_step hleft).mp hrun)

theorem resume_eq {s : Settlement} {p : PendingId} (hm : m.control = .waiting p)
    (hresume : m.resume s = .ok m') : m' = { m with control := s.control } := by
  rw [resume_waiting hm] at hresume
  cases hresume
  rfl

theorem Runs.divide (hrun : m.Runs c ps h d) (hm : w.In f k m) (hrest : k.rest = []) :
    Divided f k w c ps h d := by
  induction hrun generalizing w with
  | @done m c o d heq =>
    by_cases hback : w.Back
    · exact (Runs.done heq).of_back hm hrest hback
    · rcases Strand.steps_or_parks hback c with ⟨w', c', hstep⟩ | ⟨p, w', c', -, hpark⟩
      · obtain ⟨m', heq', -⟩ := hstep k m hm
        cases heq.symm.trans heq'
      · obtain ⟨m', heq', -⟩ := hpark k m hm
        cases heq.symm.trans heq'
  | @parked m c m' p d heq =>
    by_cases hback : w.Back
    · exact (Runs.parked heq).of_back hm hrest hback
    · rcases Strand.steps_or_parks hback c with ⟨w', c', hstep⟩ | ⟨p, w', c', -, hpark⟩
      · obtain ⟨m', heq', -⟩ := hstep k m hm
        cases heq.symm.trans heq'
      · obtain ⟨m', heq', -⟩ := hpark k m hm
        cases heq.symm.trans heq'
        exact .parked (.parked hpark)
  | @step m c m' c' ps h d heq hrun ih =>
    by_cases hback : w.Back
    · exact (Runs.step heq hrun).of_back hm hrest hback
    · rcases Strand.steps_or_parks hback c with ⟨w', c', hstep⟩ | ⟨p, w', c', -, hpark⟩
      · obtain ⟨m', heq', hm'⟩ := hstep k m hm
        cases heq.symm.trans heq'
        cases ih hm' with
        | parked hw => exact .parked (.step hstep hw)
        | back hw hlast => exact .back (.step hstep hw) hlast
      · obtain ⟨m', heq', -⟩ := hpark k m hm
        cases heq.symm.trans heq'
  | @resume m c m' m'' ps h d q heq hresume hrun ih =>
    by_cases hback : w.Back
    · exact (Runs.resume heq hresume hrun).of_back hm hrest hback
    · rcases Strand.steps_or_parks hback c with ⟨w', c', hstep⟩ | ⟨p, w', c', hcontrol, hpark⟩
      · obtain ⟨m', heq', -⟩ := hstep k m hm
        cases heq.symm.trans heq'
      · obtain ⟨m₁, heq', hm'⟩ := hpark k m hm
        cases heq.symm.trans heq'
        obtain rfl := resume_eq (hm'.control.trans hcontrol) hresume
        cases ih (hm'.resume q.settlement.control) with
        | parked hw => exact .parked (.resume hpark hw)
        | back hw hlast => exact .back (.resume hpark hw) hlast

/-- The two parts make a run of the machine. -/
theorem Divided.runs (hdiv : Divided f k w c ps h d) (hm : w.In f k m) (hrest : k.rest = []) :
    m.Runs c ps h d := by
  cases hdiv with
  | @parked t ps p d hw =>
    generalize hE : Ending.parked p = E at hw
    induction hw generalizing m with
    | back => cases hE
    | parked hpark =>
      cases hE
      obtain ⟨m', heq, -⟩ := hpark k m hm
      exact .parked heq
    | step hstep _ ih =>
      obtain ⟨m', heq, hm'⟩ := hstep k m hm
      exact .step heq (ih hm' hE)
    | @resume t w c w' ps E d q hpark _ ih =>
      obtain ⟨m', heq, hm'⟩ := hpark k m hm
      exact .resume heq (resume_waiting (hm'.control.trans hpark.waiting) _) (ih (hm'.resume _) hE)
  | @back t ps ps' o i c' h d hw hlast =>
    generalize hE : Ending.back o i = E at hw
    induction hw generalizing m with
    | back o' i' c =>
      cases hE
      obtain ⟨l, rfl⟩ := hm
      have hleft : Machine.step ⟨controlOf o, Strand.base f k i l [] :: k.callers⟩ c =
          (.running ⟨close k.boundary o, k.callers⟩, c) := step_back hrest
      exact .step hleft hlast
    | parked => cases hE
    | step hstep _ ih =>
      obtain ⟨m', heq, hm'⟩ := hstep k m hm
      exact .step heq (ih hm' hlast hE)
    | @resume t w c w' ps E d q hpark _ ih =>
      obtain ⟨m', heq, hm'⟩ := hpark k m hm
      exact .resume heq (resume_waiting (hm'.control.trans hpark.waiting) _) (ih (hm'.resume _) hlast hE)

/-- **What an activation does decides what the machine does.** Two controls that behave alike before the
continuations of the activation are alike for the whole machine, whatever it has left to do. -/
theorem runs_congr {control control' : Control} {a : Activation} {callers : List Activation}
    (hsame : ∀ ps E d, Strand.course a.frame callers.length control [] a.frame.nextChild c ps E d ↔
      Strand.course a.frame callers.length control' [] a.frame.nextChild c ps E d) :
    Runs ⟨control, a :: callers⟩ c ps h d ↔ Runs ⟨control', a :: callers⟩ c ps h d := by
  -- one direction, with the roles of the controls open
  have hway : ∀ {control control' : Control},
      (∀ ps E d, Strand.course a.frame callers.length control [] a.frame.nextChild c ps E d →
        Strand.course a.frame callers.length control' [] a.frame.nextChild c ps E d) →
      Runs ⟨control, a :: callers⟩ c ps h d → Runs ⟨control', a :: callers⟩ c ps h d := by
    intro control control' himp hrun
    let k : Surroundings callers.length := ⟨a.boundary, [], callers, rfl⟩
    have hin : ∀ control, Strand.In a.frame k ⟨control, [], a.frame.nextChild, a.conts⟩
        ⟨control, a :: callers⟩ := fun control => ⟨a.frame.location, by
      simp only [Strand.base, List.append_nil, List.nil_append, k]⟩
    have hcourse : ∀ ps E d, Strand.course a.frame callers.length control a.conts a.frame.nextChild c ps E d →
        Strand.course a.frame callers.length control' a.conts a.frame.nextChild c ps E d := by
      intro ps E d hc
      rw [← List.nil_append a.conts, Strand.course_append] at hc ⊢
      cases hc with
      | parked hb => exact .parked (himp _ _ _ hb)
      | back hb hk => exact .back (himp _ _ _ hb) hk
    cases hrun.divide (hin control) rfl with
    | parked hw =>
      obtain ⟨t, hw'⟩ := hcourse _ _ _ ⟨_, hw⟩
      exact (Divided.parked hw').runs (hin control') rfl
    | back hw hlast =>
      obtain ⟨t, hw'⟩ := hcourse _ _ _ ⟨_, hw⟩
      exact (Divided.back hw' hlast).runs (hin control') rfl
  exact ⟨hway fun ps E d => (hsame ps E d).mp, hway fun ps E d => (hsame ps E d).mpr⟩

/-! ## Machines that do alike -/

/-- Two machines do alike from a core on, whatever happens while they stand. -/
def Alike (m m' : Machine) (c : Core) : Prop := ∀ ps h d, m.Runs c ps h d ↔ m'.Runs c ps h d

/-- With these pauses on the way, the machine gets to stand at a value. -/
inductive Stands : Machine → Core → List Pause → Machine → PendingId → Core → Prop
  | here {m c m₁ p d} : m.step c = (.parked m₁ p, d) → Stands m c [] m₁ p d
  | step {m c m₁ c₁ ps m₂ p d} : m.step c = (.running m₁, c₁) → Stands m₁ c₁ ps m₂ p d →
      Stands m c ps m₂ p d
  | resume {m c m₁ m₂ ps m₃ p d} {q : Pause} : m.step c = (.parked m₁ q.pending, q.before) →
      m₁.resume q.settlement = .ok m₂ → Stands m₂ q.after ps m₃ p d → Stands m c (q :: ps) m₃ p d

theorem Stands.runs {p : PendingId} (h : m.Stands c ps m' p d) : m.Runs c ps (.parked p) d := by
  induction h with
  | here heq => exact .parked heq
  | step heq _ ih => exact .step heq ih
  | resume heq hresume _ ih => exact .resume heq hresume ih

theorem Runs.stands {p : PendingId} (hrun : m.Runs c ps (.parked p) d) : ∃ m', m.Stands c ps m' p d := by
  generalize hh : Halt.parked p = h at hrun
  induction hrun with
  | done => cases hh
  | parked heq =>
    cases hh
    exact ⟨_, .here heq⟩
  | step heq _ ih => exact (ih hh).imp fun _ => .step heq
  | resume heq hresume _ ih => exact (ih hh).imp fun _ => .resume heq hresume

/-- A pause comes first where the machine stands. -/
theorem runs_resume {m₁ m₂ : Machine} {q : Pause} (heq : m.step c = (.parked m₁ q.pending, q.before))
    (hresume : m₁.resume q.settlement = .ok m₂) :
    m.Runs c (q :: ps) h d ↔ m₂.Runs q.after ps h d := by
  refine ⟨fun hrun => ?_, fun hrun => .resume heq hresume hrun⟩
  cases hrun with
  | step heq' => cases heq.symm.trans heq'
  | resume heq' hresume' hrest =>
    cases heq.symm.trans heq'
    cases hresume.symm.trans hresume'
    exact hrest

/-- From there it goes on with the settlement. -/
theorem Stands.resume_iff {q : Pause} {qs : List Pause} {e : Core}
    (hs : m.Stands c ps m' q.pending q.before) :
    m.Runs c (ps ++ q :: qs) h e ↔ Runs { m' with control := q.settlement.control } q.after qs h e := by
  generalize hp : q.pending = p at hs
  generalize hd : q.before = d at hs
  induction hs with
  | here heq =>
    subst hp hd
    exact runs_resume heq (resume_waiting (control_of_step heq) q.settlement)
  | step heq _ ih => exact (runs_step heq).trans (ih hp hd)
  | resume heq hresume _ ih => exact (runs_resume heq hresume).trans (ih hp hd)

/-- **Machines that do alike stand at the same values**, and do alike from there on. -/
theorem Alike.stands {p : PendingId} (halike : m.Alike m' c) {m₁ : Machine}
    (hs : m.Stands c ps m₁ p d) : ∃ m₂, m'.Stands c ps m₂ p d ∧
      ∀ (s : Settlement) (e : Core), d.heap.Retains e.heap →
        Alike { m₁ with control := s.control } { m₂ with control := s.control } e := by
  obtain ⟨m₂, hs'⟩ := ((halike _ _ _).mp hs.runs).stands
  refine ⟨m₂, hs', fun s e hretains qs h d' => ?_⟩
  let q : Pause := ⟨p, d, s, e, hretains⟩
  exact (Stands.resume_iff (q := q) hs).symm.trans ((halike _ _ _).trans (Stands.resume_iff (q := q) hs'))

end Machine

/-! ## Positions -/

namespace Core

/-- The core with another last suspension. -/
def recalling (c : Core) (l : Option Suspension) : Core :=
  { c with engine := { c.engine with lastSuspension := l } }

/-- Two cores differ at most in the positions of the last suspension. -/
def Alike (c d : Core) : Prop :=
  ∃ l, d = c.recalling l ∧ l.map Suspension.pending = c.engine.lastSuspension.map Suspension.pending

theorem Alike.heap {c d : Core} (h : c.Alike d) : d.heap = c.heap := by
  obtain ⟨l, rfl, -⟩ := h
  rfl

/-- Positions do not matter to acts. -/
def positionsLaw : Law where
  rel _ c d := c.Alike d
  apart := by
    rintro fs c d ⟨l, rfl, -⟩
    exact ⟨c.heap.pendings, c.engine.watch, c.engine.suspensionCount, l, rfl⟩
  next := by
    rintro fs c d ⟨l, rfl, -⟩ region
    rfl
  objects := by
    rintro fs c d ⟨l, rfl, hl⟩ S
    exact ⟨l, rfl, hl⟩
  console := by
    rintro fs c d ⟨l, rfl, hl⟩ lines
    exact ⟨l, rfl, hl⟩
  pending := by
    rintro fs c d ⟨l, rfl, hl⟩ s
    exact ⟨l, rfl, hl⟩
  binding := by
    rintro fs c d ⟨l, rfl, hl⟩ scope name v
    exact ⟨l, rfl, hl⟩
  birth := by
    rintro f fs c d node fn ⟨l, rfl, hl⟩ -
    exact ⟨l, rfl, hl⟩
  link := by
    rintro f fs c d node fn r next ⟨l, rfl, hl⟩ - - -
    exact ⟨l, rfl, hl⟩
  capture := by
    rintro fs c d r defining bindings this id ⟨l, rfl, hl⟩ - - - - -
    exact ⟨l, rfl, hl⟩
  share _ h _ _ _ _ := h
  code h _ _ := h
  mark h _ := h
  close h := h

variable {c d : Core}

/-- **A step does not look at positions.** -/
theorem Alike.step (h : c.Alike d) (m : Machine) :
    (m.step c).1 = (m.step d).1 ∧ (m.step c).2.Alike (m.step d).2 := by
  by_cases hv : ∃ id, m.control = .checkpoint (.pending id)
  · obtain ⟨id, hv⟩ := hv
    obtain ⟨control, stack⟩ := m
    obtain rfl : control = .checkpoint (.pending id) := hv
    obtain ⟨l, rfl, hl⟩ := h
    cases stack with
    | nil => exact ⟨rfl, l, rfl, hl⟩
    | cons a callers =>
      unfold Machine.step
      dsimp only
      rw [Act.pass_pending, Act.pass_pending, show (c.recalling l).heap = c.heap from rfl,
        show (c.recalling l).engine.watch = c.engine.watch from rfl]
      cases (c.heap.pendings.get id).settlement? with
      | some s => cases s <;> exact ⟨rfl, l, rfl, hl⟩
      | none => cases c.engine.watch <;> exact ⟨rfl, l, rfl, hl⟩
  · push Not at hv
    exact Law.step (L := positionsLaw) (m := m) h hv

end Core

/-- A value that is ready to settle by itself: a drive records where it stands, settles the value and goes
on. -/
def Pause.Driven (q : Pause) : Prop :=
  q.before.heap.pendings.get q.pending = .scheduled q.settlement ∧
    q.before.heap.process.ripe q.pending = true ∧ ∃ positions, q.after =
      ((q.before.record ⟨q.pending, positions⟩).settle q.pending q.settlement).watching .armed

namespace Core

/-- What a drive stops with. -/
inductive Driven (m : Machine) (c : Core) : Stop × Core → Prop
  | done {ps o d} : (∀ q ∈ ps, q.Driven) → m.Runs c ps (.done o) d → Driven m c (.done o, d)
  | parked {ps m₁ p d positions} : (∀ q ∈ ps, q.Driven) → m.Stands c ps m₁ p d →
      d.heap.Unready p → Driven m c (.parked m₁ p, d.record ⟨p, positions⟩)
  | outOfFuel {m₁ d} : Driven m c (.outOfFuel m₁, d)

variable {c d e : Core} {m m₁ m₂ : Machine} {n : Nat} {ps : List Pause} {o : Outcome} {p : PendingId}

theorem Driven.step {r : Stop × Core} (heq : m.step c = (.running m₁, d)) (h : Driven m₁ d r) :
    Driven m c r := by
  cases h with
  | done hps hrun => exact .done hps (.step heq hrun)
  | parked hps hs hp => exact .parked hps (.step heq hs) hp
  | outOfFuel => exact .outOfFuel

theorem Driven.resume {r : Stop × Core} {q : Pause} (hq : q.Driven)
    (heq : m.step c = (.parked m₁ q.pending, q.before)) (hresume : m₁.resume q.settlement = .ok m₂)
    (h : Driven m₂ q.after r) : Driven m c r := by
  have hall : ∀ {ps : List Pause}, (∀ q ∈ ps, q.Driven) → ∀ q' ∈ q :: ps, q'.Driven := by
    intro ps hps q' hq'
    rcases List.mem_cons.mp hq' with rfl | hq'
    · exact hq
    · exact hps q' hq'
  cases h with
  | done hps hrun => exact .done (hall hps) (.resume heq hresume hrun)
  | parked hps hs hp => exact .parked (hall hps) (.resume heq hresume hs) hp
  | outOfFuel => exact .outOfFuel

/-- **A drive is a run.** -/
theorem driven (n : Nat) (m : Machine) (c : Core) : Driven m c (c.drive n m) := by
  induction n generalizing m c with
  | zero => exact .outOfFuel
  | succ n ih =>
    unfold drive
    cases hstep : m.step c with
    | mk progress d =>
      cases progress with
      | running m₁ => exact (ih m₁ d).step hstep
      | done o =>
        have hnone : ∀ q ∈ ([] : List Pause), q.Driven := fun _ hq => absurd hq List.not_mem_nil
        exact .done hnone (.done hstep)
      | parked m₁ p =>
        dsimp only
        have hnone : ∀ q ∈ ([] : List Pause), q.Driven := fun _ hq => absurd hq List.not_mem_nil
        split
        next s hs =>
          split
          next hripe =>
            have hresume := Machine.resume_waiting (Machine.control_of_step hstep) s
            rw [hresume]
            let after := ((d.record (d.suspension m₁ p)).settle p s).watching .armed
            have hretains : d.heap.Retains after.heap := fun _ _ h => h
            let q : Pause := ⟨p, d, s, after, hretains⟩
            exact .resume (q := q) ⟨hs, hripe, _, rfl⟩ hstep hresume (ih _ _)
          next hripe =>
            exact .parked hnone (.here hstep) fun _ _ => Bool.eq_false_of_not_eq_true hripe
        next hs => exact .parked hnone (.here hstep) (Heap.unready_of_ne hs)

/-- One step of a run, for a core that is alike. -/
theorem Alike.running (h : c.Alike e) (heq : m.step c = (.running m₁, d)) :
    ∃ e', m.step e = (.running m₁, e') ∧ d.Alike e' := by
  obtain ⟨hprogress, hcore⟩ := h.step m
  rw [heq] at hprogress hcore
  exact ⟨(m.step e).2, Prod.ext hprogress.symm rfl, hcore⟩

theorem Alike.parked (h : c.Alike e) (heq : m.step c = (.parked m₁ p, d)) :
    ∃ e', m.step e = (.parked m₁ p, e') ∧ d.Alike e' := by
  obtain ⟨hprogress, hcore⟩ := h.step m
  rw [heq] at hprogress hcore
  exact ⟨(m.step e).2, Prod.ext hprogress.symm rfl, hcore⟩

theorem Alike.record (h : c.Alike d) (p : PendingId) (l l' : List StackPosition) :
    (c.record ⟨p, l⟩).Alike (d.record ⟨p, l'⟩) := by
  obtain ⟨k, rfl, -⟩ := h
  exact ⟨some ⟨p, l'⟩, rfl, rfl⟩

/-- A drive goes through a pause that settles by itself. -/
theorem Alike.drive_resume {q : Pause} (h : c.Alike e) (hq : q.Driven)
    (heq : m.step c = (.parked m₁ q.pending, q.before)) (hresume : m₁.resume q.settlement = .ok m₂) :
    ∃ e', q.after.Alike e' ∧ ∀ n, e.drive (n + 1) m = e'.drive n m₂ := by
  obtain ⟨b, heq', hb⟩ := h.parked heq
  obtain ⟨hs, hripe, positions, hafter⟩ := hq
  refine ⟨((b.record (b.suspension m₁ q.pending)).settle q.pending q.settlement).watching .armed, ?_,
    fun n => ?_⟩
  · rw [hafter]
    obtain ⟨k, rfl, -⟩ := hb
    exact ⟨some _, rfl, rfl⟩
  · rw [← hb.heap] at hs hripe
    exact drive_ready heq' hs hripe hresume n

/-- **A run whose pauses settle by themselves is a drive**, from every core that is alike. -/
theorem Alike.drive_done (hrun : m.Runs c ps (.done o) d) (hps : ∀ q ∈ ps, q.Driven) (h : c.Alike e) :
    ∃ n d', e.drive n m = (.done o, d') ∧ d.Alike d' := by
  generalize hh : Halt.done o = h' at hrun
  induction hrun generalizing e with
  | @done m c o' d heq =>
    cases hh
    obtain ⟨hprogress, hcore⟩ := h.step m
    rw [heq] at hprogress hcore
    have hlast : m.step e = (.done o, (m.step e).2) := Prod.ext hprogress.symm rfl
    exact ⟨1, _, Core.drive_done hlast 0, hcore⟩
  | parked => cases hh
  | step heq _ ih =>
    obtain ⟨e', heq', hcore⟩ := h.running heq
    obtain ⟨n, d', hdrive, hd⟩ := ih hps hcore hh
    exact ⟨n + 1, d', (drive_running heq' n).trans hdrive, hd⟩
  | resume heq hresume _ ih =>
    obtain ⟨e', hcore, hdrive⟩ := h.drive_resume (hps _ List.mem_cons_self) heq hresume
    obtain ⟨n, d', hrest, hd⟩ := ih (fun q hq => hps q (List.mem_cons_of_mem _ hq)) hcore hh
    exact ⟨n + 1, d', (hdrive n).trans hrest, hd⟩

theorem Alike.drive_parked (hs : m.Stands c ps m₁ p d) (hps : ∀ q ∈ ps, q.Driven)
    (hp : d.heap.Unready p) (h : c.Alike e) (l : List StackPosition) :
    ∃ n d', e.drive n m = (.parked m₁ p, d') ∧ (d.record ⟨p, l⟩).Alike d' := by
  induction hs generalizing e with
  | @here m c m₁ p d heq =>
    obtain ⟨b, heq', hb⟩ := h.parked heq
    have hunready : b.heap.Unready p := hb.heap ▸ hp
    exact ⟨1, _, Core.drive_parked heq' hunready 0, hb.record p l (b.suspension m₁ p).positions⟩
  | step heq _ ih =>
    obtain ⟨e', heq', hcore⟩ := h.running heq
    obtain ⟨n, d', hdrive, hd⟩ := ih hps hp hcore
    exact ⟨n + 1, d', (drive_running heq' n).trans hdrive, hd⟩
  | resume heq hresume _ ih =>
    obtain ⟨e', hcore, hdrive⟩ := h.drive_resume (hps _ List.mem_cons_self) heq hresume
    obtain ⟨n, d', hrest, hd⟩ := ih (fun q hq => hps q (List.mem_cons_of_mem _ hq)) hp hcore
    exact ⟨n + 1, d', (hdrive n).trans hrest, hd⟩

/-- **Machines that do alike are driven alike.** They end with the same outcome, or stand at the same value,
and leave the same but for positions; and where they stand, they do alike with every settlement. -/
theorem drive_alike (hm : m.Alike m₂ c) (hc : c.Alike e) {stop : Stop} (hdrive : c.drive n m = (stop, d)) :
    match stop with
    | .done o => ∃ n' d', e.drive n' m₂ = (.done o, d') ∧ d.Alike d'
    | .parked m₁ p => ∃ n' m' d', e.drive n' m₂ = (.parked m' p, d') ∧ d.Alike d' ∧
      ∀ (s : Settlement) (b : Core), d.heap.Retains b.heap →
        Machine.Alike { m₁ with control := s.control } { m' with control := s.control } b
    | .outOfFuel _ => True := by
  have hdriven := driven n m c
  rw [hdrive] at hdriven
  cases hdriven with
  | done hps hrun => exact Alike.drive_done ((hm _ _ _).mp hrun) hps hc
  | @parked ps m₁ p d l hps hs hp =>
    obtain ⟨m', hs', hthen⟩ := hm.stands hs
    obtain ⟨n', d', hdrive', hd⟩ := Alike.drive_parked hs' hps hp hc l
    exact ⟨n', m', d', hdrive', hd, hthen⟩
  | outOfFuel => trivial

end Core

end Fermata
