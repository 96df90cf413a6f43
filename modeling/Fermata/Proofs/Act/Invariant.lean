import Fermata.Proofs.Machine.Running

/-!
# Invariants

An invariant is a law that relates a core to itself. It looks neither at objects nor at the console
nor at what waiting changes (`Noise`), so a checkpoint keeps it as well, and every step of a machine does.

* `Invariant.toLaw`: the law of an invariant.
* `Invariant.step`: a step keeps it.
* `Invariant.drive_frames`: a drive keeps it.
* `Invariant.drive`: it leaves code in its place as well.
-/

namespace Fermata

open Act

/-- The part of a core that no invariant looks at. -/
structure Noise where
  objects : Store .object Object
  pendings : Store .pending Pending
  numbers : Store .pending Nat
  process : Process
  console : Array String
  watch : Watch
  below : List StackPosition
  suspensionCount : Nat
  lastSuspension : Option Suspension

/-- The part of this core. -/
def Core.noise (c : Core) : Noise where
  objects := c.heap.objects
  pendings := c.heap.pendings
  numbers := c.heap.numbers
  process := c.heap.process
  console := c.engine.console
  watch := c.engine.watch
  below := c.engine.below
  suspensionCount := c.engine.suspensionCount
  lastSuspension := c.engine.lastSuspension

/-- The core with another such part. -/
def Core.amid (c : Core) (n : Noise) : Core where
  heap := { c.heap with
    objects := n.objects
    pendings := n.pendings
    numbers := n.numbers
    process := n.process }
  engine := { c.engine with
    console := n.console
    watch := n.watch
    below := n.below
    suspensionCount := n.suspensionCount
    lastSuspension := n.lastSuspension }

/-- What holds of a core as long as these frames are live. -/
structure Invariant where
  holds : List Frame → Core → Prop
  quiet {fs c} : holds fs c → ∀ n, holds fs (c.amid n)
  binding {fs c} : holds fs c → ∀ scope name v, holds fs (c.storing scope name v)
  birth {f fs c node fn} : holds (f :: fs) c → f.unit.function? node = some fn →
    holds (f :: fs) (c.bearing fn f.unit)
  link {f fs c node fn r next} : holds (f :: fs) c → f.unit.function? node = some fn →
    f.unit.record? f.record = some r → nextChildAfter? r.children f.nextChild fn.id = some next →
    holds ({ f with nextChild := next } :: fs) (c.linking fn f.unit f.scope)
  capture {fs c r defining bindings this} (id : ClosureId) : holds fs c →
    c.engine.links.scope? (c.heap.closures.get id).serial = some defining →
    (c.heap.closures.get id).unit.record? (c.heap.closures.get id).node.id = some r →
    r.requiresCapture = true → bindings.map Binding.name = r.bindings →
    holds ((c.heap.closures.get id).frame r (c.heap.scopes.next defining.region) :: fs)
      (c.under defining r.name bindings this)
  share {fs c r defining} (id : ClosureId) : holds fs c →
    c.engine.links.scope? (c.heap.closures.get id).serial = some defining →
    (c.heap.closures.get id).unit.record? (c.heap.closures.get id).node.id = some r →
    r.requiresCapture = false → holds ((c.heap.closures.get id).frame r defining :: fs) c
  code {f fs c source unit} : holds (f :: fs) c →
    CodeUnit.compile source (c.heap.visibleNames f.scope) = .ok unit →
    holds (unitFrame unit f.scope :: f :: fs) c
  mark {f fs c} : holds (f :: fs) c → ∀ span, holds ({ f with location := span } :: fs) c
  close {f fs c} : holds (f :: fs) c → holds fs c

namespace Invariant

variable {I : Invariant} {fs : List Frame} {c : Core}

/-- What waiting changes does not matter. -/
theorem apart (h : I.holds fs c) (P : Store .pending Pending) (w : Watch) (n : Nat)
    (l : Option Suspension) : I.holds fs (c.apart P w n l) :=
  I.quiet h { c.noise with pendings := P, watch := w, suspensionCount := n, lastSuspension := l }

theorem watching (h : I.holds fs c) (w : Watch) : I.holds fs (c.watching w) :=
  I.quiet h { c.noise with watch := w }

theorem starting (h : I.holds fs c) (below : List StackPosition) : I.holds fs (c.starting below) :=
  I.quiet h { c.noise with watch := .armed, below }

theorem taken (h : I.holds fs c) (p : PendingId) : I.holds fs (c.taken p) :=
  I.quiet h (c.taken p).noise

/-- The law of an invariant. -/
def toLaw (I : Invariant) : Law where
  rel fs c d := d = c ∧ I.holds fs c
  apart := by
    rintro fs c d ⟨rfl, -⟩
    exact ⟨d.heap.pendings, d.engine.watch, d.engine.suspensionCount, d.engine.lastSuspension, rfl⟩
  next := by
    rintro fs c d ⟨rfl, -⟩ region
    rfl
  objects := by
    rintro fs c d ⟨rfl, h⟩ S
    exact ⟨rfl, I.quiet h { d.noise with objects := S }⟩
  console := by
    rintro fs c d ⟨rfl, h⟩ lines
    exact ⟨rfl, I.quiet h { d.noise with console := lines }⟩
  pending := by
    rintro fs c d ⟨rfl, h⟩ s
    exact ⟨rfl, I.quiet h (d.expecting (.scheduled s)).noise⟩
  binding := by
    rintro fs c d ⟨rfl, h⟩ scope name v
    exact ⟨rfl, I.binding h scope name v⟩
  birth := by
    rintro f fs c d node fn ⟨rfl, h⟩ hfn
    exact ⟨rfl, I.birth h hfn⟩
  link := by
    rintro f fs c d node fn r next ⟨rfl, h⟩ hfn hr hn
    exact ⟨rfl, I.link h hfn hr hn⟩
  capture := by
    rintro fs c d r defining bindings this id ⟨rfl, h⟩ - hscope hr hc hnames
    exact ⟨rfl, I.capture id h hscope hr hc hnames⟩
  share := by
    rintro fs c d r defining id ⟨rfl, h⟩ - hscope hr hc
    exact ⟨rfl, I.share id h hscope hr hc⟩
  code := by
    rintro f fs c d source unit ⟨rfl, h⟩ - hunit
    exact ⟨rfl, I.code h hunit⟩
  mark := by
    rintro f fs c d ⟨rfl, h⟩ span
    exact ⟨rfl, I.mark h span⟩
  close := by
    rintro f fs c d ⟨rfl, h⟩
    exact ⟨rfl, I.close h⟩

/-- With no frame left, nothing but the core matters. -/
theorem nil (h : I.holds fs c) : I.holds [] c := by
  induction fs with
  | nil => exact h
  | cons f fs ih => exact ih (I.close h)

end Invariant

/-- The frames that are live where a drive stopped. -/
def Core.Stop.frames : Core.Stop → List Frame
  | .done _ => []
  | .parked m _ | .outOfFuel m => m.frames

theorem Machine.frames_resume {m n : Machine} {s : Settlement} (h : m.resume s = .ok n) :
    n.frames = m.frames := by
  unfold Machine.resume at h
  split at h <;> cases h <;> rfl

/-- A checkpoint changes nothing but the watch. -/
theorem Act.pass_watching (v : Value) (c : Core) :
    ∃ w, (∃ control, pass v c = .ok control (c.watching w)) ∨
      ∃ x, pass v c = .error x (c.watching w) := by
  cases v with
  | pending id =>
    unfold Act.pass
    dsimp only
    rw [reads_bind]
    cases (c.heap.pendings.get id).settlement? with
    | some s =>
      cases s with
      | fulfilled w => exact ⟨c.engine.watch, .inl ⟨_, rfl⟩⟩
      | rejected reason => exact ⟨c.engine.watch, .inr ⟨_, rfl⟩⟩
    | none =>
      dsimp only
      rw [touch_bind]
      cases c.engine.watch with
      | armed => exact ⟨_, .inl ⟨_, rfl⟩⟩
      | disarmed => exact ⟨_, .inl ⟨_, rfl⟩⟩
      | triggered => exact ⟨_, .inr ⟨_, rfl⟩⟩
  | _ => exact ⟨c.engine.watch, .inl ⟨_, rfl⟩⟩

namespace Invariant

variable {I : Invariant} {A : Atlas} {m : Machine} {c : Core}

/-- **A step keeps every invariant.** -/
theorem step (h : I.holds m.frames c) : I.holds (m.step c).1.frames (m.step c).2 := by
  by_cases hv : ∃ id, m.control = .checkpoint (.pending id)
  · obtain ⟨id, hv⟩ := hv
    obtain ⟨control, stack⟩ := m
    obtain rfl : control = .checkpoint (.pending id) := hv
    cases stack with
    | nil => exact h
    | cons a callers =>
      unfold Machine.step
      dsimp only
      obtain ⟨w, ⟨control, hpass⟩ | ⟨x, hpass⟩⟩ := pass_watching (.pending id) c
      · rw [hpass]
        cases control <;> exact I.watching h w
      · rw [hpass]
        exact I.watching h w
  · have hrel : I.toLaw.rel m.frames c c := ⟨rfl, h⟩
    obtain ⟨-, -, hnext⟩ := Law.step hrel fun id hid => hv ⟨id, hid⟩
    exact hnext

/-- A start keeps every invariant. -/
theorem start {p : Act Move}
    (hp : I.toLaw.Agree Abrupt.IsFailure (Move.frames []) [] (p c) (p c)) :
    I.holds (Machine.start p c).1.frames (Machine.start p c).2 :=
  (Law.start hp).2.2

/-- A drive keeps every invariant. -/
theorem drive_frames (I : Invariant) (n : Nat) {m : Machine} {c : Core} (h : I.holds m.frames c) :
    I.holds (c.drive n m).1.frames (c.drive n m).2 := by
  have hnext : ∀ {m c progress d}, I.holds m.frames c → Machine.step m c = (progress, d) →
      I.holds progress.frames d := fun h heq => by
    have hstep := I.step h
    rwa [heq] at hstep
  exact Core.drive_induct (P := fun m c => I.holds m.frames c) (Q := fun r => I.holds r.1.frames r.2)
    id hnext hnext (fun h heq => I.apart (hnext h heq) _ _ _ _)
    (fun h heq _ _ => I.apart (hnext h heq) _ _ _ _) n h

/-- The machine keeps the invariant, and its code is in its place. -/
structure Runs (I : Invariant) (A : Atlas) (m : Machine) (c : Core) : Prop where
  holds : I.holds m.frames c
  placed : m.Placed A

/-- A drive stopped with the invariant kept and all code in its place. -/
inductive Stops (I : Invariant) (A : Atlas) : Core.Stop × Core → Prop
  | done {outcome c'} : I.holds [] c' → (∀ x, outcome = .error x → A.Passes x) →
      Stops I A (.done outcome, c')
  | parked {m' p c'} : I.holds m'.frames c' → m'.Parked A p → Stops I A (.parked m' p, c')
  | outOfFuel {m' c'} : Runs I A m' c' → Stops I A (.outOfFuel m', c')

variable (hcover : ∀ fs c, I.holds fs c → A.Covers c)

include hcover

theorem Runs.step {m' : Machine} {c' : Core} (h : Runs I A m c)
    (hstep : m.step c = (.running m', c')) : Runs I A m' c' := by
  have hholds := I.step h.holds
  have hplaced := A.step (hcover _ _ h.holds) h.placed
  rw [hstep] at hholds hplaced
  exact ⟨hholds, hplaced⟩

theorem Runs.parked {m' : Machine} {c' : Core} {p : PendingId} (h : Runs I A m c)
    (hstep : m.step c = (.parked m' p, c')) : I.holds m'.frames c' ∧ m'.Parked A p := by
  have hholds := I.step h.holds
  have hplaced := A.step (hcover _ _ h.holds) h.placed
  rw [hstep] at hholds hplaced
  exact ⟨hholds, hplaced⟩

theorem Runs.done {outcome : Outcome} {c' : Core} (h : Runs I A m c)
    (hstep : m.step c = (.done outcome, c')) :
    I.holds [] c' ∧ ∀ x, outcome = .error x → A.Passes x := by
  have hholds := I.step h.holds
  have hplaced := A.step (hcover _ _ h.holds) h.placed
  rw [hstep] at hholds hplaced
  refine ⟨hholds, fun x hx => ?_⟩
  subst hx
  exact hplaced

omit hcover in
/-- The settlement of the value that a parked machine waits for. -/
theorem runs_resume {p : PendingId} (h : I.holds m.frames c) (hm : m.Parked A p) (s : Settlement) :
    Runs I A { m with control := s.control } c :=
  ⟨h, hm.resume s⟩

/-- **A drive keeps every invariant** and leaves code in its place. -/
theorem drive (n : Nat) (h : Runs I A m c) : Stops I A (c.drive n m) := by
  refine Core.drive_induct .outOfFuel (fun h hs => ?_) (fun h hs => h.step hcover hs) (fun h hs => ?_)
    (fun h hs _ _ => ?_) n h
  · obtain ⟨hholds, hpass⟩ := h.done hcover hs
    exact .done hholds hpass
  · obtain ⟨hholds, hparked⟩ := h.parked hcover hs
    exact .parked (I.apart hholds _ _ _ _) hparked
  · obtain ⟨hholds, hparked⟩ := h.parked hcover hs
    exact runs_resume (I.apart hholds _ _ _ _) hparked _

end Invariant

end Fermata
