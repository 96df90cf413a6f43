import Fermata.Proofs.Custody.Step
import Fermata.Proofs.Session.Life
import Fermata.Proofs.Session.Regime

/-!
# Evaluations keep custody, and the faults that an invariant rules out

From step to step, from a suspension to the settlement that ends it, and up to the answer: what an
evaluation has is in custody as long as it lasts, and the faults that it tells of are those that may
occur. An atlas says where function literals stand (`Custody.Charted`). Where it does not matter which
cells an evaluation holds, a custody is an invariant with a say on faults, and guards every evaluation of
every session that a host can get to.

* `Custody.Guards`: a running machine that somebody watches, its code in its place.
* `Custody.drive`, `Custody.running`, `Custody.settleStop`: all states of an evaluation, and its answer.
* `Tolerance`: which faults may occur while an invariant holds.
* `Tolerance.running`, `Tolerance.evaluate`, `Tolerance.poll`: no other faults occur in a regime.
-/

namespace Fermata

open Act

/-- The answer tells of no fault but those of `F`. -/
def Answer.Tolerates (F : Fault → Prop) : Answer → Prop
  | .finished (.error (.fault f)) => F f
  | _ => True

namespace Custody

variable {K : Custody} {A : Atlas} {m m' : Machine} {c c' d : Core} {p : PendingId}

/-- The atlas covers the closures of every core in order, and its literals are in their places. -/
structure Charted (K : Custody) (A : Atlas) : Prop where
  covers {fs c} : K.good fs c → A.Covers c
  unit {u span fn} : (A.ofUnit u).expr (.function span fn) → K.literal u 0 fn.id
  function {u r span fn} : (A.ofFunction u r).expr (.function span fn) → K.literal u r fn.id

/-- The machine has only what is in custody, its code is in its place, and somebody watches. -/
structure Guards (K : Custody) (A : Atlas) (m : Machine) (c : Core) : Prop where
  safe : K.Safe m c
  placed : m.Placed A
  armed : c.engine.watch = .armed

/-! ## Steps -/

theorem literal_of_placed (hA : K.Charted A) (h : K.Guards A m c) {a : Activation}
    {callers : List Activation} {span : Span} {fn : FunctionNode}
    (hm : m = ⟨.eval (.function span fn), a :: callers⟩) :
    K.literal a.frame.unit a.frame.record fn.id := by
  subst hm
  have hexpr : (A.parts a).expr (.function span fn) := h.placed.2
  obtain ⟨-, hrecord⟩ := h.safe.stack a List.mem_cons_self
  obtain ⟨frame, boundary, conts⟩ := a
  cases boundary with
  | unit =>
    rw [show frame.record = 0 from hrecord rfl]
    exact hA.unit hexpr
  | function name => exact hA.function hexpr

theorem waits_of_placed (h : m.Placed A) (p : PendingId) : m.control ≠ .waiting p := by
  obtain ⟨control, stack⟩ := m
  rintro rfl
  cases stack with
  | nil =>
    rcases h.2 with ⟨v, hv⟩ | ⟨x, hx, -⟩
    · cases hv
    · cases hx
  | cons a callers => exact h.2

theorem Guards.steps (hA : K.Charted A) (h : K.Guards A m c) : K.Steps m c (m.step c) :=
  step h.safe h.armed (waits_of_placed h.placed) fun _ _ _ _ hm => literal_of_placed hA h hm

theorem Guards.running (hA : K.Charted A) (h : K.Guards A m c)
    (hstep : m.step c = (.running m', c')) : K.Guards A m' c' ∧ K.Later c c' := by
  have hsteps := h.steps hA
  have hplaced := A.step (hA.covers h.safe.good) h.placed
  rw [hstep] at hsteps hplaced
  cases hsteps with
  | running hsafe hl => exact ⟨⟨hsafe, hplaced, hl.watch.trans h.armed⟩, hl⟩

/-- A machine that stands touched an unsettled pending value, and the watch went off. -/
theorem Guards.parked (hA : K.Charted A) (h : K.Guards A m c)
    (hstep : m.step c = (.parked m' p, c')) :
    (m.control = .checkpoint (.pending p) ∧ (c.heap.pendings.get p).settlement? = none ∧
      m' = ⟨.waiting p, m.stack⟩ ∧ c' = c.watching .triggered) ∧ K.Safe m' c' ∧ m'.Parked A p := by
  have hsteps := h.steps hA
  have hplaced := A.step (hA.covers h.safe.good) h.placed
  rw [hstep] at hsteps hplaced
  cases hsteps with
  | parked hcontrol hset hsafe => exact ⟨⟨hcontrol, hset, rfl, rfl⟩, hsafe, hplaced⟩

theorem Guards.done {outcome : Outcome} (hA : K.Charted A) (h : K.Guards A m c)
    (hstep : m.step c = (.done outcome, c')) :
    K.good [] c' ∧ (∀ v, outcome = .ok v → K.Has c' v) ∧
      (∀ x, outcome = .error x → K.Bears c' x) ∧ c' = c := by
  have hsteps := h.steps hA
  rw [hstep] at hsteps
  cases hsteps with
  | done hgood hv hx => exact ⟨hgood, hv, hx, rfl⟩

/-! ## Waiting -/

theorem Safe.grow (h : K.Safe m c) (hgood : K.good m.frames d) (hgrow : Grows K.held c d) :
    K.Safe m d := by
  refine ⟨hgood, fun a ha => ?_, ?_⟩
  · obtain ⟨hconts, hrecord⟩ := h.stack a ha
    exact ⟨fun v hv => (hconts v hv).mono hgrow, hrecord⟩
  · have hcontrol := h.control
    cases hm : m.control with
    | abrupt x =>
      rw [hm] at hcontrol
      cases x with
      | thrown v | ret v => exact Value.Within.mono hgrow hcontrol
      | _ => exact hcontrol
    | _ =>
      rw [hm] at hcontrol
      exact fun v hv => (hcontrol v hv).mono hgrow

/-- Whether somebody watches, and how often somebody waited, does not matter. -/
theorem Safe.apart (h : K.Safe m c) (w : Watch) (n : Nat) (l : Option Suspension) :
    K.Safe m (c.apart c.heap.pendings w n l) := by
  obtain ⟨hgood, hgrow⟩ := K.apart h.good w n l
  exact h.grow hgood hgrow

theorem Safe.watching (h : K.Safe m c) (w : Watch) : K.Safe m (c.watching w) :=
  h.apart w c.engine.suspensionCount c.engine.lastSuspension

/-- The value or reason of a pending value in custody is in custody. -/
theorem has_settlement {fs : List Frame} {s : Settlement} (h : K.good fs c)
    (hp : K.held c (.pending p)) (hs : s.value ∈ (c.heap.pendings.get p).held) :
    K.Has c s.value :=
  Cell.forall_ofValues.mp (K.content h hp) _ hs

/-- What the activations below are does not matter either. -/
theorem Safe.starting (h : K.Safe m c) (below : List StackPosition) :
    K.Safe m (c.starting below) := by
  obtain ⟨hgood, hgrow⟩ := K.starting h.good below
  exact h.grow hgood hgrow

/-- A machine in custody that waits goes on with a settlement in custody. -/
theorem Safe.resuming {s : Settlement} (h : K.Safe m c) (hs : K.Has c s.value) :
    K.Safe { m with control := s.control } c := by
  refine ⟨h.good, h.stack, ?_⟩
  cases s with
  | fulfilled v => exact fun _ hw => List.mem_singleton.mp hw ▸ hs
  | rejected reason => exact hs

theorem guards_resume {s : Settlement} (h : K.Safe m c) (hm : m.Parked A p)
    (hs : K.Has c s.value) : K.Guards A { m with control := s.control } (c.watching .armed) :=
  ⟨(h.resuming hs).watching .armed, hm.resume s, rfl⟩

theorem guards_goOn {s : Settlement} (h : K.Safe m c) (hm : m.Parked A p) (hs : K.Has c s.value)
    (below : List StackPosition) :
    K.Guards A { m with control := s.control } (c.starting below) :=
  ⟨(h.resuming hs).starting below, hm.resume s, rfl⟩

/-- A value that settles by itself is settled, and the machine goes on. -/
theorem Guards.settle {s : Settlement} (hA : K.Charted A) (h : K.Guards A m c)
    (hstep : m.step c = (.parked m' p, c')) (hs : c'.heap.pendings.get p = .scheduled s)
    (σ : Suspension) :
    K.Guards A { m' with control := s.control } (((c'.record σ).settle p s).watching .armed) ∧
      Grows K.held c' (((c'.record σ).settle p s).watching .armed) := by
  obtain ⟨⟨hcontrol, -, rfl, -⟩, hsafe, hparked⟩ := h.parked hA hstep
  have hp : K.held c' (.pending p) :=
    (Value.within_pending p).mp (hsafe.control (.pending p) List.mem_cons_self)
  have hvalue : K.Has c' s.value :=
    has_settlement hsafe.good hp (by rw [hs]; exact List.mem_cons_self)
  obtain ⟨hrecorded, hgrow⟩ := K.apart hsafe.good c'.engine.watch (c'.engine.suspensionCount + 1)
    (some σ)
  obtain ⟨hsettled, hgrow'⟩ := K.settle hrecorded hs
  have hnext : Grows K.held c' ((c'.record σ).settle p s) := fun x hx =>
    hgrow' x (hgrow x hx)
  obtain ⟨-, hwatch⟩ := K.apart hsettled .armed
    ((c'.record σ).settle p s).engine.suspensionCount
    ((c'.record σ).settle p s).engine.lastSuspension
  exact ⟨guards_resume (hsafe.grow hsettled hnext) hparked (hvalue.mono hnext),
    fun x hx => hwatch x (hnext x hx)⟩

/-! ## Drives -/

/-- A drive stopped with everything in custody. -/
inductive Stops (K : Custody) (A : Atlas) : Core.Stop × Core → Prop
  | done {outcome d} : K.good [] d → (∀ v, outcome = .ok v → K.Has d v) →
      (∀ x, outcome = .error x → K.Bears d x) → Stops K A (.done outcome, d)
  | parked {n q d} : K.Safe n d → n.Parked A q → Stops K A (.parked n q, d)
  | outOfFuel {n d} : K.Guards A n d → Stops K A (.outOfFuel n, d)

/-- **A drive keeps custody**, and lets go of no cell. -/
theorem drive (hA : K.Charted A) (n : Nat) (h : K.Guards A m c) :
    K.Stops A (c.drive n m) ∧ Grows K.held c (c.drive n m).2 := by
  have hwatch : ∀ {fs d}, K.good fs d → Grows K.held d (d.watching .triggered) := fun {_ d} hgood =>
    (K.apart hgood .triggered d.engine.suspensionCount d.engine.lastSuspension).2
  refine Core.drive_induct (P := fun m d => K.Guards A m d ∧ Grows K.held c d)
    (Q := fun r => K.Stops A r ∧ Grows K.held c r.2) (fun h => ⟨.outOfFuel h.1, h.2⟩)
    (fun ⟨h, hgrown⟩ hs => ?_) (fun ⟨h, hgrown⟩ hs => ?_) (fun {m d m' p d'} ⟨h, hgrown⟩ hs => ?_)
    (fun ⟨h, hgrown⟩ hs hsched _ => ?_) n ⟨h, fun _ hx => hx⟩
  · obtain ⟨hgood, hv, hx, rfl⟩ := h.done hA hs
    exact ⟨.done hgood hv hx, hgrown⟩
  · obtain ⟨hnext, hl⟩ := h.running hA hs
    exact ⟨hnext, fun x hx => hl.held x (hgrown x hx)⟩
  · obtain ⟨⟨-, -, -, rfl⟩, hsafe, hparked⟩ := h.parked hA hs
    obtain ⟨-, hrecord⟩ := K.apart hsafe.good Watch.triggered (d.engine.suspensionCount + 1)
      (some ((d.watching .triggered).suspension m' p))
    exact ⟨.parked (hsafe.apart _ _ _) hparked,
      fun x hx => hrecord x (hwatch h.safe.good x (hgrown x hx))⟩
  · obtain ⟨⟨-, -, -, rfl⟩, -⟩ := h.parked hA hs
    obtain ⟨hnext, hgrow⟩ := h.settle hA hs hsched _
    exact ⟨hnext, fun x hx => hgrow x (hwatch h.safe.good x (hgrown x hx))⟩

/-! ## Sessions -/

variable {H : Host} {s : Session} {i : Nat}

/-- **Every machine on the way is guarded**, if those are that an evaluation begins or goes on with. -/
theorem running (hA : K.Charted A)
    (hstart : ∀ act loan, (s.station i).isBusy = false → Session.Request H s i act loan →
      K.Guards A (Machine.start act (s.armed i)).1
        (Machine.start act (s.armed i)).2)
    (hresume : ∀ f, (s.station i).flight = some f → K.Safe f.machine ((s.arrive i).core i) ∧
      f.machine.Parked A f.pending)
    (h : Session.Running H s i m c) : K.Guards A m c := by
  induction h with
  | start hidle hact => exact hstart _ _ hidle hact
  | @resume f settlement m hf hset hres =>
    obtain ⟨hsafe, hparked⟩ := hresume f hf
    rw [Machine.resume_waiting hparked.2.2] at hres
    cases hres
    have hcontrol := hsafe.control
    rw [hparked.2.2] at hcontrol
    have hp : K.held ((s.arrive i).core i) (.pending f.pending) :=
      (Value.within_pending _).mp (hcontrol (.pending f.pending) List.mem_cons_self)
    exact guards_goOn hsafe hparked (has_settlement hsafe.good hp (Pending.value_mem_held hset)) _
  | step _ hstep ih => exact (ih.running hA hstep).1
  | settle _ hstep hsched _ hres ih =>
    obtain ⟨-, -, hparked⟩ := ih.parked hA hstep
    rw [Machine.resume_waiting hparked.2.2] at hres
    cases hres
    exact (ih.settle hA hstep hsched _).1

/-- The answer to a drive tells of no other faults. -/
theorem settleStop {stop : Core.Stop} (loan : Loan) (h : K.Stops A (stop, c)) :
    (s.settleStop i loan stop c).1.Tolerates K.fault := by
  cases h with
  | @done outcome _ _ _ hx =>
    rw [Session.settleStop_done, Core.finish_eq]
    cases outcome with
    | ok v => trivial
    | error x =>
      have hx := hx x rfl
      cases x with
      | thrown v => trivial
      | fault f => exact hx
      | ret | leave | next => exact K.transferred
  | parked => trivial
  | outOfFuel => trivial

end Custody

open Act

/-- The activations of units in this machine follow the records of their units. -/
def Machine.Rooted (m : Machine) : Prop := ∀ a ∈ m.stack, a.boundary = .unit → a.frame.record = 0

namespace Session

variable {H : Host} {s t : Session} {i j : Nat} {f : Flight}

/-- A change of one station that lets no evaluation begin. -/
theorem flight_modifyStation {g : Station → Station}
    (hg : ∀ st, (g st).flight = st.flight ∨ (g st).flight = none)
    (hf : ((s.modifyStation i g).station j).flight = some f) : (s.station j).flight = some f := by
  rcases s.station_modifyStation_cases i j g with heq | heq
  · exact heq ▸ hf
  · rw [heq] at hf
    rcases hg (s.station j) with h | h
    · exact h ▸ hf
    · rw [h] at hf
      cases hf

/-- A host lets no evaluation begin by itself. -/
theorem flight_edit (h : Edit H s t) (hf : (t.station j).flight = some f) :
    (s.station j).flight = some f := by
  cases h with
  | engine name settings host defines =>
    by_cases hj : j = s.stations.size
    · subst hj
      simp [addEngine, station] at hf
    · simpa [addEngine, station, Array.getElem?_push, hj] using hf
  | abandon k =>
    rcases s.abandon_cases k with ⟨heq, -⟩ | ⟨g, -, heq⟩ <;> rw [heq] at hf
    · exact hf
    · exact flight_modifyStation (by exact fun _ => .inr rfl) hf
  | console k =>
    unfold takeConsole at hf
    exact flight_modifyStation (by exact fun _ => .inl rfl) hf
  | link _ =>
    unfold link at hf
    dsimp only at hf
    exact flight_modifyStation (by exact fun _ => .inl rfl) hf
  | compile hu =>
    rcases compile_cases hu with rfl | ⟨u, units, rfl⟩
    · exact hf
    · have hf := flight_modifyStation (by exact fun _ => .inl rfl) hf
      exact hf
  | compileIn hu =>
    obtain ⟨u, rfl⟩ := compileIn_cases hu
    exact hf
  | _ => exact hf

/-- What is parked after a drive was parked before, or the drive stopped there and took along what it
could. -/
theorem flight_settleStop {loan : Loan} {stop : Core.Stop} {c : Core}
    (hf : ((s.settleStop i loan stop c).2.station j).flight = some f) :
    (s.station j).flight = some f ∨
      stop = .parked f.machine f.pending ∧ f.taken = (c.heap.take f.pending).1 := by
  cases stop with
  | done outcome =>
    left
    have hf := flight_modifyStation (by exact fun _ => .inr rfl) hf
    exact hf
  | parked m p =>
    rw [settleStop_parked] at hf
    rcases station_modifyStation_cases { s with heap := (c.taken p).heap } i j fun st =>
      { st.parking m p (c.heap.take p).1 loan with engine := (c.taken p).engine } with heq | heq
    · exact .inl (heq ▸ hf)
    · have hf : some _ = some f := (congrArg Station.flight heq).symm.trans hf
      cases hf
      exact .inr ⟨rfl, rfl⟩
  | outOfFuel m =>
    left
    have hf := flight_modifyStation (by exact fun _ => .inl rfl) hf
    exact hf

end Session

/-- The faults that may occur while an invariant holds. -/
structure Tolerance (I : Invariant) where
  fault : Fault → Prop
  /-- Activations of this record of a unit may evaluate the literal with this number. -/
  literal : CodeUnit → Nat → Nat → Prop
  linked {f fs c node} : I.holds (f :: fs) c → literal f.unit f.record node →
    (∀ name id cause, fault (.link name id cause)) ∨
      ∃ fn r next, f.unit.function? node = some fn ∧ f.unit.record? f.record = some r ∧
        nextChildAfter? r.children f.nextChild fn.id = some next
  hoisted {f fs c r} : I.holds (f :: fs) c → f.unit.record? f.record = some r →
    ∀ node ∈ r.hoisted, literal f.unit f.record node
  neverLinked (name : String) : fault (.stack (.neverLinked name))
  recorded {fs c id s} : I.holds fs c →
    c.engine.links.scope? (c.heap.closures.get id).serial = some s →
    (∀ name node cause, fault (.link name node cause)) ∨
      ∃ r, (c.heap.closures.get id).unit.record? (c.heap.closures.get id).node.id = some r
  unsupported (line : Nat) : fault (.unsupportedTry line)
  escaped (name : String) : fault (.stack (.loopEscaped name))
  transferred : fault (.stack .transferEscaped)
  stranded : fault (.stack .noFrame)

namespace Tolerance

variable {I : Invariant}

/-- Everything is in custody. -/
def custody (T : Tolerance I) : Custody where
  held _ _ := True
  good := I.holds
  fault := T.fault
  literal := T.literal
  content _ _ _ _ := trivial
  methods _ := trivial
  scope _ := trivial
  defining _ _ _ := trivial
  object {_ c o} h _ := ⟨I.quiet h (c.adding o).noise, fun _ _ => trivial, trivial⟩
  edit {_ c f} h _ id := ⟨I.quiet h (c.editing id f).noise, fun _ _ => trivial⟩
  console {_ c} h lines := ⟨I.quiet h (c.withConsole lines).noise, fun _ _ => trivial⟩
  pending {_ c s} h _ :=
    ⟨I.quiet h (c.expecting (.scheduled s)).noise, fun _ _ => trivial, trivial⟩
  binding h _ scope name := ⟨I.binding h scope name _, fun _ _ => trivial⟩
  birth h hfn := ⟨I.birth h hfn, fun _ _ => trivial⟩
  link h hfn hr hn := ⟨I.link h hfn hr hn, fun _ _ => trivial, trivial⟩
  capture {_ _ id} _ _ _ _ h _ hscope hr hc hnames _ _ :=
    ⟨I.capture id h hscope hr hc hnames, fun _ _ => trivial⟩
  share {_ _ id} _ _ h _ hscope hr hc := I.share id h hscope hr hc
  code h hunit := I.code h hunit
  mark h := I.mark h
  close h := I.close h
  apart {_ c} h w n l := ⟨I.apart h c.heap.pendings w n l, fun _ _ => trivial⟩
  starting h below := ⟨I.starting h below, fun _ _ => trivial⟩
  settle {_ c p s} h _ := ⟨I.quiet h (c.settle p s).noise, fun _ _ => trivial⟩
  take h p := ⟨I.taken h p, fun _ _ => trivial⟩
  linked h hnode := T.linked h hnode
  hoisted h hr := T.hoisted h hr
  called _ _ := .inl T.neverLinked
  recorded h _ hscope := T.recorded h hscope
  unsupported := T.unsupported
  escaped := T.escaped
  transferred := T.transferred
  stranded := T.stranded

variable {T : Tolerance I} {c : Core}

theorem has (v : Value) : T.custody.Has c v := fun _ _ => trivial

theorem hasAll (ks : List Cont) : T.custody.HasAll c ks := fun v _ => has v

variable {H : Host} {R : Regime H} {T : Tolerance R.invariant} {s : Session} {i : Nat}

/-- What a host asks for begins well. -/
theorem guards_request (h : R.invariant.holds [] (s.core i)) {act : Act Move} {loan : Loan}
    (hact : Session.Request H s i act loan) :
    T.custody.Guards R.atlas (Machine.start act (s.armed i)).1
      (Machine.start act (s.armed i)).2 := by
  have hwatch : R.invariant.holds [] (s.armed i) := R.invariant.starting h _
  have hmoves : T.custody.Moves [] act (s.armed i) := by
    cases hact with
    | unit hu => exact Custody.openFrame (R.unit hwatch hu) (fun _ => rfl) _
    | code _ hu => exact Custody.callUnit hwatch (R.code hwatch hu)
    | call fn this args kept =>
      exact Custody.callValue hwatch (has fn) (has this) (fun v _ => has v)
        fun source unit hunit => R.code hwatch hunit
  obtain ⟨hsafe, hl⟩ := Custody.start hmoves
  exact ⟨hsafe, (Regime.runs_request h hact).placed, hl.watch⟩

/-- A parked evaluation waits with everything in custody. -/
theorem safe_flight {f : Flight} (hs : R.Rules s) (hi : i < s.stations.size)
    (hf : (s.station i).flight = some f) (hrooted : f.machine.Rooted) :
    T.custody.Safe f.machine (s.core i) ∧ f.machine.Parked R.atlas f.pending := by
  have hparked := hs.parked i hi f hf
  have hcore := hs.core i hi
  rw [Station.frames, hf] at hcore
  refine ⟨⟨hcore, fun a ha => ⟨hasAll _, hrooted a ha⟩, ?_⟩, hparked⟩
  rw [hparked.2.2]
  exact fun v _ => has v

/-- The regime holds, and units follow their own records. -/
structure Keeps (R : Regime H) (s : Session) : Prop where
  rules : R.Rules s
  rooted : ∀ j f, (s.station j).flight = some f → f.machine.Rooted

theorem guards_flight {f : Flight} (hs : Keeps R s) (hi : i < s.stations.size)
    (hf : (s.station i).flight = some f) (settlement : Settlement) :
    T.custody.Guards R.atlas { f.machine with control := settlement.control }
      (s.armed i) := by
  obtain ⟨hsafe, hparked⟩ := safe_flight (T := T) hs.rules hi hf (hs.rooted i f hf)
  exact Custody.guards_goOn hsafe hparked (has _) _

variable (hA : T.custody.Charted R.atlas)

include hA

/-- Where an evaluation that begins stops. -/
theorem stops_request (hs : R.Rules s) (hi : i < s.stations.size) {act : Act Move}
    {loan : Loan} (hact : Session.Request H s i act loan) :
    T.custody.Stops R.atlas
      ((Machine.start act (s.armed i)).2.drive s.fuel
        (Machine.start act (s.armed i)).1) := by
  have hcore := R.invariant.nil (hs.core i hi)
  exact (Custody.drive hA s.fuel (guards_request hcore hact)).1

omit hA in
theorem rooted_settleStop {j : Nat} {loan : Loan} {stop : Core.Stop} {c : Core} {f : Flight}
    (hs : Keeps R s) (hstop : T.custody.Stops R.atlas (stop, c))
    (hf : ((s.settleStop i loan stop c).2.station j).flight = some f) : f.machine.Rooted := by
  rcases Session.flight_settleStop hf with hold | ⟨rfl, -⟩
  · exact hs.rooted j f hold
  · cases hstop with
    | parked hsafe _ => exact fun a ha => (hsafe.stack a ha).2

theorem rooted_evaluate {j : Nat} {act : Act Move} {loan : Loan} {f : Flight}
    (hs : Keeps R s) (hi : i < s.stations.size) (hact : Session.Request H s i act loan)
    (hf : ((s.evaluate i act loan).2.station j).flight = some f) : f.machine.Rooted := by
  unfold Session.evaluate at hf
  cases hb : (s.station i).isBusy with
  | true =>
    rw [hb, if_pos rfl] at hf
    exact hs.rooted j f hf
  | false =>
    rw [hb, if_neg Bool.false_ne_true] at hf
    exact rooted_settleStop hs (stops_request hA hs.rules hi hact) hf

omit hA in
theorem Keeps.arrive (hs : Keeps R s) (i : Nat) : Keeps R (s.arrive i) :=
  ⟨hs.rules.arrive i, fun j f hf => hs.rooted j f (by rwa [Session.station_arrive] at hf)⟩

theorem rooted_poll {j : Nat} {f : Flight} (hs : Keeps R s) (hi : i < s.stations.size)
    (hf : ((s.poll i).2.station j).flight = some f) : f.machine.Rooted := by
  have hgoes := hs.rules.goesOn hi
  have hs' := hs.arrive i
  have hi' : i < (s.arrive i).stations.size := by rwa [Session.stations_arrive]
  generalize s.arrive i = t at hgoes hs' hi'
  generalize s.poll i = r at hgoes hf
  cases hgoes with
  | idle => exact hs'.rooted j f hf
  | waits => exact hs'.rooted j f hf
  | @resumes g τ r hg hset hr =>
    subst hr
    exact rooted_settleStop hs' (Custody.drive hA t.fuel (guards_flight hs' hi' hg τ)).1 hf

/-- The regime and the records of units last through the life of a session. -/
theorem live (hs : Session.Live H s) (hsize : R.Concerns s) : Keeps R s := by
  refine ⟨Regime.live hs hsize, ?_⟩
  induction hs with
  | empty fuel =>
    intro j f hf
    simp [Session.station] at hf
  | @step s t hs hstep ih =>
    have hbefore := Regime.Concerns.of_step hstep hsize
    have hold : Keeps R s := ⟨Regime.live hs hbefore, ih hbefore⟩
    intro j f hf
    cases hstep with
    | edit hedit => exact hold.rooted j f (Session.flight_edit hedit hf)
    | evaluate hi hact heq hanswer =>
      have ht := congrArg Prod.snd heq
      dsimp only at ht
      rw [← ht] at hf
      exact rooted_evaluate hA hold hi hact hf
    | poll hi heq hanswer =>
      have ht := congrArg Prod.snd heq
      dsimp only at ht
      rw [← ht] at hf
      exact rooted_poll hA hold hi hf

/-- **Every machine on the way is guarded.** -/
theorem running (hs : Keeps R s) (hi : i < s.stations.size) {m : Machine} {c : Core}
    (h : Session.Running H s i m c) : T.custody.Guards R.atlas m c := by
  refine Custody.running hA (fun act loan _ hact => ?_) (fun f hf => ?_) h
  · exact guards_request (R.invariant.nil (hs.rules.core i hi)) hact
  · exact safe_flight (hs.rules.arrive i) (by rwa [Session.stations_arrive])
      (by rwa [Session.station_arrive]) (hs.rooted i f hf)

/-- **No other faults are told of** when an evaluation begins. -/
theorem evaluate (hs : Keeps R s) (hi : i < s.stations.size) {act : Act Move} {loan : Loan}
    (hact : Session.Request H s i act loan) :
    (s.evaluate i act loan).1.Tolerates T.fault := by
  unfold Session.evaluate
  cases hb : (s.station i).isBusy with
  | true => trivial
  | false =>
    rw [if_neg Bool.false_ne_true]
    exact Custody.settleStop loan (stops_request hA hs.rules hi hact)

/-- **No other faults are told of** when an evaluation goes on. -/
theorem poll (hs : Keeps R s) (hi : i < s.stations.size) {answer : Answer}
    (hanswer : (s.poll i).1 = some answer) : answer.Tolerates T.fault := by
  have hgoes := hs.rules.goesOn hi
  have hs' := hs.arrive i
  have hi' : i < (s.arrive i).stations.size := by rwa [Session.stations_arrive]
  generalize s.arrive i = t at hgoes hs' hi'
  generalize s.poll i = r at hgoes hanswer
  cases hgoes with
  | idle => cases hanswer
  | waits =>
    cases hanswer
    trivial
  | @resumes f τ r hf hset hr =>
    cases hanswer
    subst hr
    exact Custody.settleStop f.loan (Custody.drive hA t.fuel (guards_flight hs' hi' hf τ)).1

end Tolerance

end Fermata
