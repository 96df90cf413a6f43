import Fermata.Proofs.Act.Invariant
import Fermata.Proofs.Lexical.Chain
import Fermata.Proofs.Session.Life

/-!
# Regimes

A regime is an invariant of cores, with an atlas, that holds from the first engine of a session on.
What it has to say about acts is said in the invariant; here it says the rest: how engines begin, what
the host may do to a heap from outside, and what engines do to each other.

* `Regime.live`: a regime holds in every session that a host can get to.
* `Regime.running`: it holds of every machine on the way.
-/

namespace Fermata

open Act

/-- What a host asks for keeps an invariant, if the frames that it begins with do. Code runs in the root, or
in a scope that the host holds. -/
theorem Invariant.start_request (I : Invariant) {H : Host} {s : Session} {i : Nat} {act : Act Move}
    {loan : Loan} (h : I.holds [] (s.core i))
    (hunit : ∀ {c u}, I.holds [] c → H.units u → I.holds [unitFrame u c.engine.root] c)
    (hcode : ∀ {c scope source u}, scope = (s.engine i).root ∨ .scope scope ∈ loan.lent → I.holds [] c →
      CodeUnit.compile source (c.heap.visibleNames scope) = .ok u → I.holds [unitFrame u scope] c)
    (hact : Session.Request H s i act loan) :
    I.holds (Machine.start act (s.armed i)).1.frames
      (Machine.start act (s.armed i)).2 := by
  have hwatch : I.holds [] (s.armed i) := I.starting h _
  have hrel : I.toLaw.rel [] (s.armed i) (s.armed i) :=
    ⟨rfl, hwatch⟩
  refine I.start ?_
  cases hact with
  | unit hu => exact Law.openFrame _ _ _ _ _ ⟨rfl, hunit hwatch hu⟩
  | @code scope _ u _ hu =>
    exact Law.callUnit u scope hrel fun _ => ⟨rfl, hcode (.inr List.mem_cons_self) hwatch hu⟩
  | call fn this args kept =>
    have hadmits : I.toLaw.Admits [] (s.engine i).root := by
      rintro c d source u ⟨rfl, hc⟩ - hu
      exact ⟨rfl, hcode (.inl rfl) hc hu⟩
    exact Law.callValue (s.engine i).root fn this args hadmits _ _ hrel

/-- A heap before its first engine: there are no closures yet, and chains end at roots. -/
structure Heap.Fresh (h : Heap) : Prop where
  closures : ∀ id, h.closures.get? id = none
  roots : h.EndsAtRoots

/-- An invariant of all engines of a session. -/
structure Regime (H : Host) where
  invariant : Invariant
  atlas : Atlas
  /-- The regime is about sessions with one engine only. -/
  lone : Bool
  covers : ∀ fs c, invariant.holds fs c → atlas.Covers c
  place {u} : H.units u → ∀ t ∈ u.program.body, (atlas.ofUnit u).stmt ⟨[], [], t⟩
  unit {c u} : invariant.holds [] c → H.units u → invariant.holds [unitFrame u c.engine.root] c
  code {c scope source u} : invariant.holds [] c →
    CodeUnit.compile source (c.heap.visibleNames scope) = .ok u →
    invariant.holds [unitFrame u scope] c
  ended {c} : invariant.holds [] c → ∀ held, invariant.holds [] (c.ended held)
  child {fs c} : invariant.holds fs c → ∀ parent owner bindings this,
    invariant.holds fs (c.under parent owner bindings this)
  link {s scope id i fs} : H.links s scope id → invariant.holds fs (s.core i) →
    invariant.holds fs ((s.link scope id).2.core i)
  /-- The first engine begins on a fresh heap. -/
  first {h : Heap} : h.Fresh → ∀ name settings host defines,
    let made := Engine.create h (engineRegion 0) name settings host defines
    invariant.holds [] ⟨made.2, made.1⟩
  /-- A further engine begins, and nothing changes for the others. -/
  further {fs c} : lone = false → invariant.holds fs c → ∀ region name settings host defines,
    let made := Engine.create c.heap region name settings host defines
    invariant.holds fs { c with heap := made.2 } ∧ invariant.holds [] ⟨made.2, made.1⟩
  /-- What one engine makes of the heap does not matter to another one. -/
  others {fs gs c d} : lone = false → invariant.holds fs c → invariant.holds gs d →
    invariant.holds fs { c with heap := d.heap }

namespace Regime

variable {H : Host} (R : Regime H)

/-- The session is one that the regime is about. -/
def Concerns (s : Session) : Prop := R.lone = true → s.stations.size ≤ 1

/-- The invariant holds for all engines, and the first one finds a fresh heap. -/
structure Rules (s : Session) : Prop where
  core : ∀ i < s.stations.size, R.invariant.holds (s.station i).frames (s.core i)
  parked : ∀ i < s.stations.size, ∀ f, (s.station i).flight = some f →
    f.machine.Parked R.atlas f.pending
  unused : s.stations.size = 0 → s.heap.Fresh

variable {R} {s t : Session} {i : Nat}

/-! ## Starting and going on -/

/-- What a host asks for begins well. -/
theorem runs_request {act : Act Move} {loan : Loan} (h : R.invariant.holds [] (s.core i))
    (hact : Session.Request H s i act loan) :
    R.invariant.Runs R.atlas (Machine.start act (s.armed i)).1
      (Machine.start act (s.armed i)).2 := by
  refine ⟨R.invariant.start_request h R.unit (fun _ => R.code) hact, ?_⟩
  cases hact with
  | unit hu => exact Atlas.start (Atlas.openFrame (R.place hu))
  | code _ hu => exact Atlas.start (Atlas.callUnit (R.atlas.code hu))
  | call fn this args kept =>
    refine Atlas.start (Atlas.callValue (fun c hc => ?_) _ _ _ _ _)
    exact hc ▸ R.covers _ _ (R.invariant.starting h _)

/-- One engine takes over the heap. -/
theorem Rules.takeOver (hs : R.Rules s) (hsize : R.Concerns s) (hi : i < s.stations.size) {c : Core}
    {g : Station → Station} (hc : R.invariant.holds (g (s.station i)).frames c)
    (hflight : ∀ f, (g (s.station i)).flight = some f → f.machine.Parked R.atlas f.pending) :
    R.Rules (s.seat i c g) := by
  refine ⟨fun j hj => ?_, fun j hj f hf => ?_, fun hnone => ?_⟩
  · have hj : j < s.stations.size := (Session.size_modifyStation ..) ▸ hj
    simp only [Session.core, Session.engine]
    by_cases hij : j = i
    · subst hij
      rw [Session.station_seat hi]
      exact hc
    · rw [Session.station_seat_ne hij]
      have hlone : R.lone = false := by
        cases hl : R.lone with
        | false => rfl
        | true =>
          have hle := hsize hl
          omega
      exact R.others hlone (hs.core j hj) hc
  · have hj : j < s.stations.size := (Session.size_modifyStation ..) ▸ hj
    by_cases hij : j = i
    · subst hij
      rw [Session.station_seat hi] at hf
      exact hflight f hf
    · rw [Session.station_seat_ne hij] at hf
      exact hs.parked j hj f hf
  · have hnone : s.stations.size = 0 := (Session.size_modifyStation ..) ▸ hnone
    omega

/-- An evaluation that answered leaves a session in which the regime holds. -/
theorem Rules.stop (hs : R.Rules s) (hsize : R.Concerns s) (hi : i < s.stations.size)
    {loan : Loan} {stop : Core.Stop} {c : Core}
    (hstop : R.invariant.Stops R.atlas (stop, c))
    (hanswer : (s.settleStop i loan stop c).1 ≠ .outOfFuel) :
    R.Rules (s.settleStop i loan stop c).2 := by
  cases hstop with
  | done hc hpass =>
    rw [Session.settleStop_done, Core.finish_eq]
    exact hs.takeOver hsize hi (R.ended hc _) fun f hf => by cases hf
  | parked hc hparked =>
    rw [Session.settleStop_parked]
    refine hs.takeOver hsize hi (R.invariant.taken hc _) fun f hf => ?_
    cases hf
    exact hparked
  | outOfFuel hruns => exact absurd rfl hanswer

/-- What a parked evaluation goes on with. -/
theorem runs_resume {f : Flight} (hs : R.Rules s) (hi : i < s.stations.size)
    (hf : (s.station i).flight = some f) (settlement : Settlement) :
    R.invariant.Runs R.atlas { f.machine with control := settlement.control }
      (s.armed i) := by
  have hcore := hs.core i hi
  rw [Station.frames, hf] at hcore
  exact Invariant.runs_resume (R.invariant.starting hcore _) (hs.parked i hi f hf) settlement

theorem Rules.evaluate (hs : R.Rules s) (hsize : R.Concerns s) (hi : i < s.stations.size)
    {act : Act Move} {loan : Loan} (hact : Session.Request H s i act loan)
    (hanswer : (s.evaluate i act loan).1 ≠ .outOfFuel) : R.Rules (s.evaluate i act loan).2 := by
  unfold Session.evaluate at hanswer ⊢
  cases hb : (s.station i).isBusy with
  | true =>
    rw [if_pos rfl]
    exact hs
  | false =>
    rw [hb, if_neg Bool.false_ne_true] at hanswer
    rw [if_neg Bool.false_ne_true]
    have hcore := R.invariant.nil (hs.core i hi)
    exact hs.stop hsize hi (Invariant.drive R.covers s.fuel (runs_request hcore hact)) hanswer

/-! ## Edits -/

/-- A change that every engine bears, and that lets no evaluation begin. -/
theorem Rules.map (hs : R.Rules s) (hsize : t.stations.size = s.stations.size)
    (hflight : ∀ j, (t.station j).flight = (s.station j).flight ∨ (t.station j).flight = none)
    (hcore : ∀ j fs, R.invariant.holds fs (s.core j) → R.invariant.holds fs (t.core j))
    (hfresh : s.heap.Fresh → t.heap.Fresh) : R.Rules t := by
  refine ⟨fun j hj => ?_, fun j hj f hf => ?_, fun hnone => ?_⟩
  · rw [hsize] at hj
    have hold := hcore j _ (hs.core j hj)
    rcases hflight j with heq | hnone
    · rw [Station.frames, heq]
      exact hold
    · rw [Station.frames, hnone]
      exact R.invariant.nil hold
  · rw [hsize] at hj
    rcases hflight j with heq | hnone
    · exact hs.parked j hj f (heq ▸ hf)
    · rw [hnone] at hf
      cases hf
  · exact hfresh (hs.unused (hsize ▸ hnone))

/-- A change of one station that its engine bears. -/
theorem Rules.station (hs : R.Rules s) (i : Nat) (g : Station → Station)
    (hflight : ∀ st, (g st).flight = st.flight ∨ (g st).flight = none)
    (hengine : ∀ h st fs, R.invariant.holds fs ⟨h, st.engine⟩ →
      R.invariant.holds fs ⟨h, (g st).engine⟩) : R.Rules (s.modifyStation i g) := by
  refine hs.map (Session.size_modifyStation ..) (fun j => ?_) (fun j fs h => ?_) id
  · rcases s.station_modifyStation_cases i j g with heq | heq <;> rw [heq]
    · exact .inl rfl
    · exact hflight _
  · simp only [Session.core, Session.engine]
    rcases s.station_modifyStation_cases i j g with heq | heq <;> rw [heq]
    · exact h
    · exact hengine _ _ _ h

/-- A new engine. -/
theorem Rules.addEngine (hs : R.Rules s) (name : Option String) (settings : Settings)
    (host : Option ObjectId) (defines : List (String × Value))
    (hsize : R.Concerns (s.addEngine name settings host defines)) :
    R.Rules (s.addEngine name settings host defines) := by
  generalize hmade : Engine.create s.heap (engineRegion s.stations.size)
    ((name.or settings.name).getD ("engine-" ++ toString (engineRegion s.stations.size))) settings
    host defines = made
  obtain ⟨engine, heap⟩ := made
  have hadd : s.addEngine name settings host defines =
      { s with heap, stations := s.stations.push { engine } } := by
    simp only [Session.addEngine, hmade]
  rw [hadd] at hsize ⊢
  have hnew : ({ s with heap, stations := s.stations.push { engine } } : Session).station
      s.stations.size = { engine } := by
    simp [Session.station]
  have hold : ∀ j < s.stations.size,
      ({ s with heap, stations := s.stations.push { engine } } : Session).station j =
        s.station j := by
    intro j hj
    simp [Session.station, Array.getElem?_push, Nat.ne_of_lt hj]
  have hsizes : ∀ j < (s.stations.push ({ engine } : Station)).size,
      j < s.stations.size ∨ j = s.stations.size := by
    intro j hj
    rw [Array.size_push] at hj
    omega
  -- the first engine finds no closures; a further one finds the heap of another
  have hboth : (∀ j < s.stations.size, R.invariant.holds (s.station j).frames
      { s.core j with heap }) ∧ R.invariant.holds [] ⟨heap, engine⟩ := by
    cases hz : s.stations.size with
    | zero =>
      refine ⟨fun j hj => absurd hj (Nat.not_lt_zero j), ?_⟩
      have hfirst := R.first (hs.unused hz)
        ((name.or settings.name).getD ("engine-" ++ toString (engineRegion 0))) settings host
        defines
      rw [hz] at hmade
      rw [hmade] at hfirst
      exact hfirst
    | succ n =>
      have hlone : R.lone = false := by
        cases hl : R.lone with
        | false => rfl
        | true =>
          have hle := hsize hl
          rw [Array.size_push] at hle
          omega
      have hfurther : ∀ j < s.stations.size, R.invariant.holds (s.station j).frames
          { s.core j with heap } ∧ R.invariant.holds [] ⟨heap, engine⟩ := fun j hj => by
        have h := R.further hlone (hs.core j hj) (engineRegion s.stations.size)
          ((name.or settings.name).getD ("engine-" ++ toString (engineRegion s.stations.size)))
          settings host defines
        rw [show (s.core j).heap = s.heap from rfl, hmade] at h
        exact h
      rw [← hz]
      exact ⟨fun j hj => (hfurther j hj).1, (hfurther 0 (by omega)).2⟩
  refine ⟨fun j hj => ?_, fun j hj f hf => ?_, fun hnone => ?_⟩
  · simp only [Session.core, Session.engine]
    rcases hsizes j hj with hj | rfl
    · rw [hold j hj]
      exact hboth.1 j hj
    · rw [hnew]
      exact hboth.2
  · rcases hsizes j hj with hj | rfl
    · rw [hold j hj] at hf
      exact hs.parked j hj f hf
    · rw [hnew] at hf
      cases hf
  · rw [Array.size_push] at hnone
    cases hnone

/-- Settling a value changes nothing that a regime is about. -/
theorem Rules.settle (hs : R.Rules s) (p : PendingId) (settlement : Settlement) :
    R.Rules (s.settle p settlement).2 :=
  hs.map rfl (fun _ => .inl rfl) (fun _ _ h => R.invariant.apart h _ _ _ _)
    fun h => ⟨h.closures, h.roots⟩

theorem Rules.arrive (hs : R.Rules s) (i : Nat) : R.Rules (s.arrive i) := by
  rcases s.arrive_cases i with heq | ⟨f, settlement, -, -, -, heq⟩ <;> rw [heq]
  · exact hs
  · exact hs.settle _ _

theorem Rules.edit (hs : R.Rules s) (hsize : R.Concerns t) (h : Session.Edit H s t) :
    R.Rules t := by
  cases h with
  | pending name kind =>
    exact hs.map rfl (fun _ => .inl rfl)
      (fun j _ h => R.invariant.quiet h
        { (s.core j).noise with
          pendings := (s.heap.newPending hostRegion kind.state).2.pendings
          numbers := (s.heap.newPending hostRegion kind.state).2.numbers
          process := (s.heap.newPending hostRegion kind.state).2.process })
      fun h => ⟨h.closures, h.roots⟩
  | engine name settings host defines => exact hs.addEngine name settings host defines hsize
  | settle p settlement => exact hs.settle p settlement
  | abandon i =>
    rcases s.abandon_cases i with ⟨heq, -⟩ | ⟨f, -, heq⟩ <;> rw [heq]
    · exact hs
    · exact hs.station i _ (fun _ => .inr rfl) fun _ _ _ h => h
  | keep name v => exact hs.map rfl (fun _ => .inl rfl) (fun _ _ h => h) id
  | forget name => exact hs.map rfl (fun _ => .inl rfl) (fun _ _ h => h) id
  | hold scope => exact hs.map rfl (fun _ => .inl rfl) (fun _ _ h => h) id
  | release scope => exact hs.map rfl (fun _ => .inl rfl) (fun _ _ h => h) id
  | elsewhere process =>
    exact hs.map rfl (fun _ => .inl rfl)
      (fun j _ h => R.invariant.quiet h { (s.core j).noise with process })
      fun h => ⟨h.closures, h.roots⟩
  | console i =>
    exact hs.station i _ (fun _ => .inl rfl) fun h st _ hold =>
      R.invariant.quiet hold { (Core.mk h st.engine).noise with console := #[] }
  | compile hu =>
    rcases Session.compile_cases hu with rfl | ⟨u, units, rfl⟩
    · exact hs
    · have hadded : R.Rules (s.addUnit u).2 := hs.map rfl (fun _ => .inl rfl) (fun _ _ h => h) id
      exact hadded.station _ _ (fun _ => .inl rfl) fun _ _ _ h => h
  | compileIn hu =>
    obtain ⟨u, rfl⟩ := Session.compileIn_cases hu
    exact hs.map rfl (fun _ => .inl rfl) (fun _ _ h => h) id
  | objects S =>
    exact hs.map rfl (fun _ => .inl rfl)
      (fun j _ hold => R.invariant.quiet hold { (s.core j).noise with objects := S })
      fun h => ⟨h.closures, h.roots⟩
  | binding scope name v =>
    exact hs.map rfl (fun _ => .inl rfl) (fun _ _ h => R.invariant.binding h scope name v)
      fun h => ⟨h.closures, h.roots.of_eq (Heap.outline_setLocal ..)⟩
  | child parent owner bindings this =>
    exact hs.map rfl (fun _ => .inl rfl) (fun _ _ h => R.child h parent owner bindings this)
      fun h => ⟨h.closures, h.roots.of_push rfl nofun⟩
  | @link scope id hlink =>
    refine hs.map (Session.size_modifyStation ..) (fun j => .inl ?_) (fun _ _ h => R.link hlink h)
      fun h => h
    unfold Session.link
    dsimp only
    rcases s.station_modifyStation_cases (scope.region - 1) j _ with heq | heq <;> rw [heq]

/-! ## Polls -/

/-- A poll goes on once what was taken along has arrived. -/
theorem Rules.goesOn (hs : R.Rules s) (hi : i < s.stations.size) :
    (s.arrive i).GoesOn i (s.poll i) :=
  Session.goesOn fun f hf => ⟨f.pending, (hs.parked i hi f (s.station_arrive i i ▸ hf)).2.2⟩

theorem Rules.poll (hs : R.Rules s) (hsize : R.Concerns s) (hi : i < s.stations.size)
    (hanswer : (s.poll i).1 ≠ some .outOfFuel) : R.Rules (s.poll i).2 := by
  have hgoes := hs.goesOn hi
  have hs' := hs.arrive i
  have hi' : i < (s.arrive i).stations.size := by rwa [Session.stations_arrive]
  have hsize' : R.Concerns (s.arrive i) := fun hl => by
    rw [Session.stations_arrive]
    exact hsize hl
  generalize s.arrive i = t at hgoes hs' hi' hsize'
  generalize s.poll i = r at hgoes hanswer ⊢
  cases hgoes with
  | idle => exact hs'
  | waits => exact hs'
  | resumes hf hset hr =>
    refine hs'.stop hsize' hi' ?_ fun h => hanswer (congrArg some h)
    exact hr ▸ Invariant.drive R.covers t.fuel (runs_resume hs' hi' hf _)

/-! ## Lives -/

theorem Concerns.of_step (h : Session.Step H s t) (ht : R.Concerns t) : R.Concerns s :=
  fun hl => Nat.le_trans (Session.size_step h) (ht hl)

/-- **A regime holds in every session** that a host can get to. -/
theorem live (hs : Session.Live H s) (hsize : R.Concerns s) : R.Rules s := by
  induction hs with
  | empty fuel =>
    refine ⟨fun j hj => absurd hj (Nat.not_lt_zero j), fun j hj => absurd hj (Nat.not_lt_zero j),
      fun _ => ⟨fun _ => rfl, fun _ _ _ ho => ?_⟩⟩
    cases ho
  | step _ hstep ih =>
    have hs := ih (Concerns.of_step hstep hsize)
    have hbefore : R.Concerns _ := Concerns.of_step hstep hsize
    cases hstep with
    | edit hedit => exact hs.edit hsize hedit
    | evaluate hi hact heq hanswer =>
      have h := hs.evaluate hbefore hi hact
      rw [heq] at h
      exact h hanswer
    | poll hi heq hanswer =>
      have h := hs.poll hbefore hi
      rw [heq] at h
      exact h hanswer

/-- **A regime holds of every machine** on the way. -/
theorem running (hs : R.Rules s) (hi : i < s.stations.size) {m : Machine} {c : Core}
    (h : Session.Running H s i m c) : R.invariant.Runs R.atlas m c := by
  induction h with
  | start hidle hact =>
    exact runs_request (R.invariant.nil (hs.core i hi)) hact
  | @resume f settlement m hf hset hresume =>
    rw [Machine.resume_waiting (hs.parked i hi f hf).2.2] at hresume
    cases hresume
    exact runs_resume (hs.arrive i) (by rwa [Session.stations_arrive])
      (by rwa [Session.station_arrive]) settlement
  | step _ hstep ih => exact ih.step R.covers hstep
  | settle _ hstep _ _ hresume ih =>
    obtain ⟨hholds, hparked⟩ := ih.parked R.covers hstep
    rw [Machine.resume_waiting hparked.2.2] at hresume
    cases hresume
    exact Invariant.runs_resume (R.invariant.apart hholds _ _ _ _) hparked _

end Regime

end Fermata
