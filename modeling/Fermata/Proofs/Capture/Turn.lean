import Fermata.Proofs.Capture.Step
import Fermata.Proofs.Lexical.Coherence

/-!
# Whether a function has a scope of its own

Two hosts take the same turns, with units that differ in which functions ask for a scope although they have
nothing to bind. Nobody can tell: replies, suspensions with their positions, lines and objects are the same.
The second session has scopes that the first one lacks, so a plan relates the scopes of the two, and every
drive, every end of an evaluation and every turn leaves a larger plan.

What guests ask for by `eval` is compiled against the names in sight, and its functions bind them in new
units. So the turns are such that no step calls the function that evaluates code.

* `Core.suspensions`, `Session.suspensions`: the suspensions of a drive and of some turns, in order.
* `Session.During.drives`: drives go in step.
* `Session.Twins`, `Session.Twins.perform`: a turn does the same to two sessions that a plan relates.
* `Session.Captures`, `Session.Captures.twins`: where two plays may begin.
* `Session.capture_unobservable`: they go alike to the end.
-/

namespace Fermata

/-! ## Drives -/

namespace Core.Twins

variable {P : Plan} {c d : Core}

/-- Changes that have nothing to do with scopes. -/
theorem watching (h : c.Twins P d) (w : Watch) : (c.watching w).Twins P (d.watching w) := by
  refine ⟨?_, h.veil⟩
  conv_lhs => rw [h.rest]
  rfl

theorem starting (h : c.Twins P d) (below : List StackPosition) :
    (c.starting below).Twins P (d.starting below) := by
  refine ⟨?_, h.veil⟩
  conv_lhs => rw [h.rest]
  rfl

theorem taken (h : c.Twins P d) (p : PendingId) : (c.taken p).Twins P (d.taken p) := by
  refine ⟨?_, h.veil⟩
  conv_lhs => rw [h.rest]
  rfl

theorem elsewhere (h : c.Twins P d) (process : Process) :
    Core.Twins P ⟨{ c.heap with process }, c.engine⟩ ⟨{ d.heap with process }, d.engine⟩ := by
  refine ⟨?_, h.veil⟩
  conv_lhs => rw [h.rest]
  rfl

theorem record (h : c.Twins P d) (s : Suspension) : (c.record s).Twins P (d.record s) := by
  refine ⟨?_, h.veil⟩
  conv_lhs => rw [h.rest]
  rfl

theorem settle (h : c.Twins P d) (p : PendingId) (s : Settlement) :
    (c.settle p s).Twins P (d.settle p s) := by
  refine ⟨?_, h.veil⟩
  conv_lhs => rw [h.rest]
  rfl

/-- The host takes the lines that a guest wrote. -/
theorem silent (h : c.Twins P d) : Core.Twins P ⟨c.heap, { c.engine with console := #[] }⟩
    ⟨d.heap, { d.engine with console := #[] }⟩ := by
  refine ⟨?_, h.veil⟩
  conv_lhs => rw [h.rest]
  rfl

/-- The host is told the same. -/
theorem report_eq (h : c.Twins P d) (o : Outcome) : Core.report d.heap o = Core.report c.heap o := by
  have hthrown : ∀ v, Failure.ofThrown d.heap v = Failure.ofThrown c.heap v := fun v => by
    rw [h.rest]
    exact Heap.ofThrown_veiled (h.veil.mirrors rfl) v
  cases o with
  | ok v => rfl
  | error x =>
    cases x with
    | thrown v => exact congrArg (Except.error ∘ EngineError.uncaught) (hthrown v)
    | _ => rfl

end Core.Twins

/-- The suspensions in the course of a drive, in order. -/
def Core.suspensions : Nat → Machine → Core → List Suspension
  | 0, _, _ => []
  | fuel + 1, m, c =>
    match m.step c with
    | (.running m, c) => suspensions fuel m c
    | (.done _, _) => []
    | (.parked m p, c) =>
      let suspension := c.suspension m p
      let c := c.record suspension
      suspension :: match c.heap.pendings.get p with
        | .scheduled s =>
          if c.heap.process.ripe p then
            match m.resume s with
            | .ok m => suspensions fuel m ((c.settle p s).watching .armed)
            | .error _ => []
          else []
        | _ => []

/-- The drives stopped alike. -/
inductive Core.Stop.Twins (P : Plan) : Core.Stop → Core.Stop → Prop
  | done (o) : Twins P (.done o) (.done o)
  | parked {m n} (p) : m.Twins P n → Twins P (.parked m p) (.parked n p)
  | outOfFuel {m n} : m.Twins P n → Twins P (.outOfFuel m) (.outOfFuel n)

/-- Both machines go on with a settlement, or neither does. -/
theorem Machine.Twins.resume {P : Plan} {m n : Machine} (h : m.Twins P n) (s : Settlement) :
    (∃ m' n', m.resume s = .ok m' ∧ n.resume s = .ok n' ∧ m'.Twins P n') ∨
      ∃ f, m.resume s = .error f ∧ n.resume s = .error f := by
  unfold Machine.resume
  rw [h.control]
  cases m.control with
  | waiting p => cases s <;> exact .inl ⟨_, _, rfl, rfl, rfl, h.stack⟩
  | _ => exact .inr ⟨_, rfl, rfl⟩

/-- The drives came to the same, by the same suspensions. -/
structure Plan.Drives (P : Plan) (fuel : Nat) (m n : Machine) (c d : Core) : Prop where
  outcome : ∃ Q, P.Le Q ∧ (c.drive fuel m).1.Twins Q (d.drive fuel n).1 ∧
    (c.drive fuel m).2.Twins Q (d.drive fuel n).2
  suspensions : d.suspensions fuel n = c.suspensions fuel m

theorem Plan.Drives.mono {P Q : Plan} {fuel : Nat} {m n : Machine} {c d : Core}
    (h : Q.Drives fuel m n c d) (hPQ : P.Le Q) : P.Drives fuel m n c d := by
  obtain ⟨⟨R, hQR, hrest⟩, hsuspensions⟩ := h
  exact ⟨⟨R, hPQ.trans hQR, hrest⟩, hsuspensions⟩

/-- The machine is about to make a step that is the same in any scope. -/
structure Machine.Scopeless (m : Machine) (c : Core) : Prop where
  placed : m.Placed .thisless
  eval : ¬m.CallsEval c

/-- **Drives go in step.** -/
theorem Session.During.drives {s : Session} {turn : Turn} {P : Plan} {m n : Machine} {c d : Core}
    (hturn : ∀ m c, s.During turn m c → m.Scopeless c) (fuel : Nat) (hd : s.During turn m c)
    (hm : m.Twins P n) (h : c.Twins P d) : P.Drives fuel m n c d := by
  induction fuel generalizing P m n c d with
  | zero => exact ⟨⟨P, .refl P, .outOfFuel hm, h⟩, rfl⟩
  | succ fuel ih =>
    obtain ⟨Q, hPQ, hprogress, hcores⟩ := hm.step h (hturn m c hd).placed (hturn m c hd).eval
    refine Plan.Drives.mono (Q := Q) ?_ hPQ
    obtain ⟨x, c', hx⟩ : ∃ x c', m.step c = (x, c') := ⟨_, _, rfl⟩
    obtain ⟨y, d', hy⟩ : ∃ y d', n.step d = (y, d') := ⟨_, _, rfl⟩
    rw [hx, hy] at hprogress hcores
    cases hprogress with
    | running hm' =>
      obtain ⟨houtcome, hsuspensions⟩ := ih (.step hd hx) hm' hcores
      refine ⟨?_, ?_⟩
      · simp only [Core.drive, hx, hy]
        exact houtcome
      · simp only [Core.suspensions, hx, hy]
        exact hsuspensions
    | done o =>
      refine ⟨⟨Q, .refl Q, ?_⟩, ?_⟩
      · simp only [Core.drive, hx, hy]
        exact ⟨.done o, hcores⟩
      · simp only [Core.suspensions, hx, hy]
    | @parked m' n' p hm' =>
      have hlimit : d'.engine.settings = c'.engine.settings := by rw [hcores.engine_eq]
      have hbelow : d'.engine.below = c'.engine.below := by rw [hcores.engine_eq]
      have hpendings : d'.heap.pendings = c'.heap.pendings := by rw [hcores.heap_eq]
      have hprocess : d'.heap.process = c'.heap.process := by rw [hcores.heap_eq]
      have hsuspension : d'.suspension n' p = c'.suspension m' p := by
        simp only [Core.suspension, hlimit, hbelow, hm'.positions]
      have hrecorded := hcores.record (c'.suspension m' p)
      have hget : ∀ (e : Core) (s : Suspension), (e.record s).heap = e.heap := fun _ _ => rfl
      have hparks : (∀ σ, c'.heap.pendings.get p = .scheduled σ → c'.heap.process.ripe p = false) →
          Q.Drives (fuel + 1) m n c d := by
        intro hwaits
        cases hp : c'.heap.pendings.get p with
        | scheduled σ =>
          have hripe := hwaits σ hp
          refine ⟨⟨Q, .refl Q, ?_⟩, ?_⟩
          · simp only [Core.drive, hx, hy, hget, hpendings, hprocess, hp, hripe, hsuspension]
            exact ⟨.parked p hm', hrecorded⟩
          · simp only [Core.suspensions, hx, hy, hget, hpendings, hprocess, hp, hripe, hsuspension,
              Bool.false_eq_true, if_false]
        | unsettled | settled =>
          refine ⟨⟨Q, .refl Q, ?_⟩, ?_⟩
          · simp only [Core.drive, hx, hy, hget, hpendings, hp, hsuspension]
            exact ⟨.parked p hm', hrecorded⟩
          · simp only [Core.suspensions, hx, hy, hget, hpendings, hp, hsuspension]
      by_cases hready : ∃ σ, c'.heap.pendings.get p = .scheduled σ ∧ c'.heap.process.ripe p = true
      · obtain ⟨σ, hp, hripe⟩ := hready
        rcases hm'.resume σ with ⟨m'', n'', hm'', hn'', hnext⟩ | ⟨f, hmf, hnf⟩
        · obtain ⟨houtcome, hsuspensions⟩ :=
            ih (.settle hd hx hp hripe hm'') hnext ((hrecorded.settle p σ).watching .armed)
          refine ⟨?_, ?_⟩
          · simp only [Core.drive, hx, hy, hget, hpendings, hprocess, hp, hripe, hsuspension, hm'', hn'',
              if_true]
            exact houtcome
          · simp only [Core.suspensions, hx, hy, hget, hpendings, hprocess, hp, hripe, hsuspension, hm'',
              hn'', if_true, hsuspensions]
        · refine ⟨⟨Q, .refl Q, ?_⟩, ?_⟩
          · simp only [Core.drive, hx, hy, hget, hpendings, hprocess, hp, hripe, hsuspension, hmf, hnf,
              if_true]
            exact ⟨.done _, (hrecorded.settle p σ).watching .armed⟩
          · simp only [Core.suspensions, hx, hy, hget, hpendings, hprocess, hp, hripe, hsuspension, hmf,
              hnf, if_true]
      · exact hparks fun σ hp => Bool.eq_false_iff.mpr fun hripe => hready ⟨σ, hp, hripe⟩

/-! ## Sessions -/

/-- The same is parked. -/
structure Flight.Twins (P : Plan) (f g : Flight) : Prop where
  machine : f.machine.Twins P g.machine
  pending : g.pending = f.pending
  taken : g.taken = f.taken
  loan : g.loan = f.loan
  same : ∀ a, .scope a ∈ f.loan.held → P.same a a

theorem Flight.Twins.mono {P Q : Plan} {f g : Flight} (h : f.Twins P g) (hPQ : P.Le Q) : f.Twins Q g :=
  ⟨h.machine.mono hPQ, h.pending, h.taken, h.loan, fun a ha => hPQ.same (h.same a ha)⟩

namespace Session

/-- What an engine that prunes finds held by engines. -/
def standing (s : Session) (i : Nat) : List Cell :=
  s.stations.toList.flatMap Station.own ++ s.foreignRoots i

theorem roots_eq (s : Session) (i : Nat) :
    s.roots i = Cell.ofValues (s.slots.map (·.2)) ++ s.pendings.map (Cell.pending ·.2) ++
      s.scopes.map Cell.scope ++ s.standing i := by
  unfold roots standing
  simp only [List.append_assoc]

variable {s t : Session} {i : Nat}

theorem standing_seat {c : Core} (hown : c.engine.own = (s.engine i).own) (g : Station → Station) :
    (s.seat i c g).standing i = s.standing i := by
  have hroots : (s.seat i c g).roots i = s.roots i := roots_seat hown
  rw [roots_eq, roots_eq] at hroots
  exact List.append_cancel_left hroots

theorem getElem?_stations {j : Nat} (hj : j < s.stations.size) : s.stations[j]? = some (s.station j) := by
  rw [station, Array.getElem?_eq_getElem hj, Option.getD_some]

/-- Scopes that engines hold are their roots, or held by other engines. -/
theorem scope_mem_standing {a : ScopeId} : .scope a ∈ s.standing i ↔
    (∃ j < s.stations.size, a = (s.engine j).root) ∨ ∃ j < s.stations.size, j ≠ i ∧
      ((∃ (n : Nat) (x : Association), (s.engine j).links[n]? = some x ∧ a = x.scope) ∨
        .scope a ∈ (s.station j).inFlight) := by
  unfold standing foreignRoots
  constructor
  · intro ha
    rcases List.mem_append.mp ha with ha | ha
    · obtain ⟨u, hu, ha⟩ := List.mem_flatMap.mp ha
      obtain ⟨j, hj, rfl⟩ := Array.getElem_of_mem (Array.mem_toList_iff.mp hu)
      refine .inl ⟨j, hj, ?_⟩
      rw [engine, station, Array.getElem?_eq_getElem hj, Option.getD_some]
      simpa [Station.own] using ha
    · obtain ⟨⟨u, j⟩, hu, ha⟩ := List.mem_flatMap.mp ha
      have hu : s.stations[j]? = some u := by simpa using List.mem_zipIdx_iff_getElem?.mp hu
      have hj : j < s.stations.size := (Array.getElem?_eq_some_iff.mp hu).1
      obtain rfl : s.station j = u := Option.some.inj ((getElem?_stations hj).symm.trans hu)
      dsimp only at ha
      split at ha
      · cases ha
      · refine .inr ⟨j, hj, ‹_›, (List.mem_append.mp ha).imp_left fun ha => ?_⟩
        obtain ⟨n, x, hx, heq⟩ := Heap.mem_tableScopes.mp ha
        exact ⟨n, x, hx, Cell.scope.inj heq⟩
  · rintro (⟨j, hj, rfl⟩ | ⟨j, hj, hji, ha⟩)
    · have hmem : s.station j ∈ s.stations.toList :=
        Array.mem_toList_iff.mpr (Array.mem_of_getElem? (getElem?_stations hj))
      refine List.mem_append_left _ (List.mem_flatMap.mpr ⟨_, hmem, ?_⟩)
      exact List.mem_cons_of_mem _ List.mem_cons_self
    · have hmem : (s.station j, j) ∈ s.stations.toList.zipIdx :=
        List.mem_zipIdx_iff_getElem?.mpr (by simpa using getElem?_stations hj)
      refine List.mem_append_right _ (List.mem_flatMap.mpr ⟨_, hmem, ?_⟩)
      dsimp only
      rw [if_neg hji]
      refine List.mem_append.mpr (ha.imp_left ?_)
      rintro ⟨n, x, hx, rfl⟩
      exact Heap.mem_tableScopes.mpr ⟨n, x, hx, rfl⟩

/-- A plan relates what engine `i` has in the two sessions, and nothing else matters. -/
structure Twins (P : Plan) (i : Nat) (s t : Session) : Prop where
  size : t.stations.size = s.stations.size
  fuel : t.fuel = s.fuel
  slots : t.slots = s.slots
  pendings : t.pendings = s.pendings
  scopes : t.scopes = s.scopes
  held : ∀ a ∈ s.scopes, P.same a a
  standing : t.standing i = s.standing i
  same : ∀ a, .scope a ∈ s.standing i → P.same a a
  core : (s.core i).Twins P (t.core i)
  flight : Option.Rel (Flight.Twins P) (s.station i).flight (t.station i).flight
  busy : (t.station i).busy = (s.station i).busy
  below : (t.station i).base.map Frame.position = (s.station i).base.map Frame.position

namespace Twins

variable {P Q : Plan}

theorem rel_flight_mono {f g : Option Flight} (h : Option.Rel (Flight.Twins P) f g) (hPQ : P.Le Q) :
    Option.Rel (Flight.Twins Q) f g := by
  cases h with
  | none => exact .none
  | some hfg => exact .some (hfg.mono hPQ)

/-- The same is held from outside. -/
theorem roots (h : Session.Twins P i s t) : t.roots i = s.roots i := by
  rw [roots_eq, roots_eq, h.slots, h.pendings, h.scopes, h.standing]

theorem same_of_roots (h : Session.Twins P i s t) (a : ScopeId) (ha : .scope a ∈ s.roots i) :
    P.same a a := by
  rw [roots_eq] at ha
  rcases List.mem_append.mp ha with ha | ha
  · rcases List.mem_append.mp ha with ha | ha
    · rcases List.mem_append.mp ha with ha | ha
      · exact absurd ha Cell.scope_notMem_ofValues
      · obtain ⟨e, -, he⟩ := List.mem_map.mp ha
        cases he
    · exact h.held a ((List.mem_map_of_injective fun _ _ => Cell.scope.inj).mp ha)
  · exact h.same a ha

theorem own_eq {c d : Core} (h : c.Twins P d) : d.engine.own = c.engine.own := by
  have heval := h.veil.evalFunction
  unfold Engine.own
  rw [show d.engine.evalFunction = c.engine.evalFunction from heval.2.trans heval.1.symm, h.engine_eq]

/-- Engine `i` came to the same in both sessions. -/
theorem seat (h : Session.Twins P i s t) (hi : i < s.stations.size) (hPQ : P.Le Q) {c d : Core}
    (hown : c.engine.own = (s.engine i).own) (hcd : c.Twins Q d) {f g : Station → Station}
    (hflight : Option.Rel (Flight.Twins Q) (f (s.station i)).flight (g (t.station i)).flight)
    (hbusy : (g (t.station i)).busy = (f (s.station i)).busy) (hf : ∀ u, (f u).base = u.base)
    (hg : ∀ u, (g u).base = u.base) : Session.Twins Q i (s.seat i c f) (t.seat i d g) := by
  have hit : i < t.stations.size := h.size.symm ▸ hi
  have hown' : d.engine.own = (t.engine i).own := by
    rw [own_eq hcd, hown]
    exact (own_eq h.core).symm
  refine ⟨?_, h.fuel, h.slots, h.pendings, h.scopes, fun a ha => hPQ.same (h.held a ha), ?_, ?_, ?_, ?_,
    ?_, ?_⟩
  · exact (size_modifyStation ..).trans (h.size.trans (size_modifyStation ..).symm)
  · rw [standing_seat hown, standing_seat hown']
    exact h.standing
  · rw [standing_seat hown]
    exact fun a ha => hPQ.same (h.same a ha)
  · rw [core_seat hi, core_seat hit]
    exact hcd
  · rw [station_seat hi, station_seat hit]
    exact hflight
  · rw [station_seat hi, station_seat hit]
    exact hbusy
  · rw [station_seat hi, station_seat hit]
    change (g (t.station i)).base.map Frame.position = (f (s.station i)).base.map Frame.position
    rw [hf, hg, h.below]

/-- Both engines begin, or go on, on the same. -/
theorem armed (h : Session.Twins P i s t) : (s.armed i).Twins P (t.armed i) := by
  unfold Session.armed
  rw [h.below]
  exact h.core.starting _

end Twins

namespace Twins

variable {P Q : Plan} {loan : Loan}

/-- **The end of a drive is answered alike.** -/
theorem settleStop (h : Session.Twins P i s t) (hi : i < s.stations.size) (hPQ : P.Le Q)
    (hheld : ∀ a, .scope a ∈ loan.held → P.same a a) {c d : Core}
    (hown : c.engine.own = (s.engine i).own) (hcd : c.Twins Q d) {x y : Core.Stop} (hxy : x.Twins Q y) :
    (t.settleStop i loan y d).1 = (s.settleStop i loan x c).1 ∧
      Session.Twins Q i (s.settleStop i loan x c).2 (t.settleStop i loan y d).2 := by
  cases hxy with
  | done o =>
    rw [settleStop_done, settleStop_done, Core.finish_eq, Core.finish_eq, h.roots]
    obtain ⟨cells, hcells⟩ : ∃ cells, cells =
        Cell.ofValues (Core.heldByOutcome o) ++ (loan.lent ++ s.roots i) := ⟨_, rfl⟩
    have hended : (c.ended cells).Twins Q (d.ended cells) := by
      refine hcd.ended fun a ha => ?_
      rw [hcells] at ha
      rcases List.mem_append.mp ha with ha | ha
      · exact absurd ha Cell.scope_notMem_ofValues
      · exact hPQ.same ((List.mem_append.mp ha).elim (fun ha => hheld a (List.mem_append_right _ ha))
          (h.same_of_roots a))
    rw [← hcells]
    have hown' : (c.ended cells).engine.own = (s.engine i).own := hown
    exact ⟨congrArg Answer.finished (hended.report_eq o),
      h.seat hi hPQ hown' hended .none rfl (fun _ => rfl) fun _ => rfl⟩
  | @parked m n p hm =>
    rw [settleStop_parked, settleStop_parked]
    have htake : (d.heap.take p).1 = (c.heap.take p).1 := by
      unfold Heap.take
      rw [hcd.heap_eq]
    refine ⟨by rw [hcd.engine_eq], ?_⟩
    unfold parkedAt
    rw [htake]
    exact h.seat hi hPQ (c := c.taken p) (d := d.taken p) hown (hcd.taken p) (.some ⟨hm, rfl, rfl, rfl, fun a ha => hPQ.same (hheld a ha)⟩)
      rfl (fun u => u.base_parking ..) fun u => u.base_parking ..
  | outOfFuel hm =>
    rw [settleStop_outOfFuel, settleStop_outOfFuel]
    exact ⟨rfl, h.seat hi hPQ hown hcd (rel_flight_mono h.flight hPQ) h.busy (fun _ => rfl) fun _ => rfl⟩

theorem isBusy (h : Session.Twins P i s t) : (t.station i).isBusy = (s.station i).isBusy := h.busy

/-- A value is settled in both sessions. -/
theorem settle (h : Session.Twins P i s t) (p : PendingId) (σ : Settlement) :
    Session.Twins P i (s.settle p σ).2 (t.settle p σ).2 :=
  { h with core := h.core.settle p σ }

/-- The host lets go of a scope in both sessions. -/
theorem release (h : Session.Twins P i s t) (scope : ScopeId) :
    Session.Twins P i (s.release scope).2 (t.release scope).2 :=
  { h with
    scopes := congrArg (List.erase · scope) h.scopes
    held := fun a ha => h.held a (List.mem_of_mem_erase ha) }

end Twins

end Session

/-! ## Turns -/

/-- The second turn is the first one, with some records of the unit that it runs asking for a scope. -/
inductive Turn.Captures : Turn → Turn → Prop
  | runUnit (i) {u v} : u.Captures v → Captures (.runUnit i u) (.runUnit i v)
  | refl (turn) : Captures turn turn

namespace Session

/-- The suspensions in the course of a turn, in order. -/
def suspended (s : Session) (turn : Turn) : List Suspension :=
  match s.ask? turn with
  | some a =>
    if (a.session.station a.engine).isBusy then []
    else
      let (m, c) := Machine.start a.act (a.session.armed a.engine)
      c.suspensions a.session.fuel m
  | none =>
    match turn with
    | .poll i =>
      match (s.station i).flight with
      | none => []
      | some f =>
        match ((s.arrive i).heap.pendings.get f.pending).settlement? with
        | none => []
        | some settlement =>
          match f.machine.resume settlement with
          | .ok m => ((s.arrive i).armed i).suspensions s.fuel m
          | .error _ => []
    | _ => []

/-- The suspensions in the course of all of these turns, in order. -/
def suspensions (s : Session) : List Turn → List Suspension
  | [] => []
  | turn :: turns => s.suspended turn ++ (s.perform turn).2.suspensions turns

/-- The turn is a run of a compiled unit by engine `i`, a call of a function other than the one that
evaluates code, a poll, or something that has nothing to do with scopes. -/
def Suits (s : Session) (i : Nat) : Turn → Prop
  | .runUnit j u => j = i ∧ u.Compiled
  | .call j fn _ _ => j = i ∧ fn ≠ .native (s.engine i).evalFunction
  | .poll j | .abandon j | .console j => j = i
  | .settle .. | .keep .. | .forget .. | .release .. | .elsewhere .. => True
  | .run .. | .evalIn .. | .setName .. | .setEnvironment .. | .hold .. => False

/-- The turns are the same for a host. -/
structure Echoes (P : Plan) (i : Nat) (s t : Session) (turn turn' : Turn) : Prop where
  reply : (t.perform turn').1 = (s.perform turn).1
  suspended : t.suspended turn' = s.suspended turn
  after : ∃ Q, P.Le Q ∧ Session.Twins Q i (s.perform turn).2 (t.perform turn').2

variable {s t : Session} {i : Nat} {turn turn' : Turn}

theorem evaluate_idle (hidle : (s.station i).isBusy = false) {act : Act Move} (loan : Loan)
    {m : Machine} {c : Core} (hstart : Machine.start act (s.armed i) = (m, c)) :
    s.evaluate i act loan = s.settleStop i loan (c.drive s.fuel m).1 (c.drive s.fuel m).2 := by
  unfold evaluate
  rw [hidle, if_neg Bool.false_ne_true, hstart]

namespace Twins

variable {P : Plan}

/-- **Evaluations that a host asks for** are answered alike. -/
theorem ask (h : Session.Twins P i s t) (hi : i < s.stations.size) {p q : Act Move} {loan : Loan}
    (hs : s.ask? turn = some ⟨s, i, p, loan⟩) (ht : t.ask? turn' = some ⟨t, i, q, loan⟩)
    (hpq : Act.Pairs P Move.Twins p q) (hheld : ∀ a, .scope a ∈ loan.held → P.same a a)
    (hturn : ∀ m c, s.During turn m c → m.Scopeless c) : Echoes P i s t turn turn' := by
  have hasks := asks hs
  have hasks' := asks ht
  have hperform : s.perform turn = (.answer (s.evaluate i p loan).1, (s.evaluate i p loan).2) :=
    hasks.perform
  have hperform' : t.perform turn' = (.answer (t.evaluate i q loan).1, (t.evaluate i q loan).2) :=
    hasks'.perform
  cases hbusy : (s.station i).isBusy with
  | true =>
    have hbusy' := h.isBusy.trans hbusy
    have hleft : s.evaluate i p loan = (.finished (.error .busy), s) := if_pos hbusy
    have hright : t.evaluate i q loan = (.finished (.error .busy), t) := if_pos hbusy'
    rw [hleft] at hperform
    rw [hright] at hperform'
    refine ⟨by rw [hperform, hperform'], ?_, ⟨P, .refl P, by rw [hperform, hperform']; exact h⟩⟩
    simp only [Session.suspended, hs, ht, hbusy, hbusy', if_true]
  | false =>
    have hbusy' := h.isBusy.trans hbusy
    obtain ⟨Q, hPQ, hm, hcd⟩ := Machine.Twins.start hpq h.armed
    have hduring := During.start hs hbusy
    have hown := (Invariant.lasting_owning (s.engine i).own).request rfl hasks.request
    dsimp only at hduring hown
    obtain ⟨m, c, hstart⟩ : ∃ m c, Machine.start p (s.armed i) = (m, c) := ⟨_, _, rfl⟩
    obtain ⟨n, d, hstart'⟩ : ∃ n d, Machine.start q (t.armed i) = (n, d) := ⟨_, _, rfl⟩
    rw [hstart, hstart'] at hm hcd
    rw [hstart] at hduring hown
    obtain ⟨⟨R, hQR, hstop, hcores⟩, hsuspensions⟩ := During.drives hturn s.fuel hduring hm hcd
    obtain ⟨hanswer, hafter⟩ := h.settleStop hi (hPQ.trans hQR) hheld
      ((Invariant.lasting_owning (s.engine i).own).drive s.fuel hown m) hcores hstop
    rw [evaluate_idle hbusy loan hstart] at hperform
    rw [evaluate_idle hbusy' loan hstart', h.fuel] at hperform'
    refine ⟨by rw [hperform, hperform', hanswer], ?_, R, hPQ.trans hQR, ?_⟩
    · simp only [Session.suspended, hs, ht, hbusy, hbusy', hstart, hstart', h.fuel, hsuspensions]
    · rw [hperform, hperform']
      exact hafter

theorem pendings_eq (h : Session.Twins P i s t) : t.heap.pendings = s.heap.pendings := by
  rw [show t.heap = _ from h.core.heap_eq]
  rfl

/-- Nothing is parked in either session, or the same in both. -/
theorem flight_cases (h : Session.Twins P i s t) :
    (s.station i).flight = none ∧ (t.station i).flight = none ∨
      ∃ f g, (s.station i).flight = some f ∧ (t.station i).flight = some g ∧ f.Twins P g := by
  have hflight := h.flight
  generalize (s.station i).flight = f at hflight ⊢
  generalize (t.station i).flight = g at hflight ⊢
  cases hflight with
  | none => exact .inl ⟨rfl, rfl⟩
  | some hfg => exact .inr ⟨_, _, rfl, rfl, hfg⟩

/-- What was taken along arrives in both sessions. -/
theorem arrive (h : Session.Twins P i s t) : Session.Twins P i (s.arrive i) (t.arrive i) := by
  have hprocess : t.heap.process = s.heap.process := by
    rw [show t.heap = _ from h.core.heap_eq]
    rfl
  unfold Session.arrive
  rcases h.flight_cases with ⟨hf, hg⟩ | ⟨f, g, hf, hg, hfg⟩ <;> rw [hf, hg]
  · exact h
  · dsimp only
    rw [hfg.taken, hfg.pending, hprocess]
    cases f.taken with
    | none => exact h
    | some σ =>
      dsimp only
      split
      · exact h.settle f.pending σ
      · exact h

/-- **A poll** goes on alike. -/
theorem poll (h : Session.Twins P i s t) (hi : i < s.stations.size)
    (hturn : ∀ m c, s.During (.poll i) m c → m.Scopeless c) :
    Echoes P i s t (.poll i) (.poll i) := by
  have harrived := h.arrive
  have hi' : i < (s.arrive i).stations.size := by rwa [stations_arrive]
  have hpendings := harrived.pendings_eq
  have hfuel : (t.arrive i).fuel = s.fuel := by rw [fuel_arrive, h.fuel]
  rcases h.flight_cases with ⟨hf, hg⟩ | ⟨f, g, hf, hg, hfg⟩
  · refine ⟨?_, ?_, P, .refl P, ?_⟩
    · simp only [perform, Session.poll, goOn, station_arrive, hf, hg]
    · simp only [Session.suspended, ask?, hf, hg]
    · simpa only [perform, Session.poll, goOn, station_arrive, hf, hg] using harrived
  cases hset : ((s.arrive i).heap.pendings.get f.pending).settlement? with
  | none =>
    have hengine : (t.arrive i).engine i = _ := harrived.core.engine_eq
    refine ⟨?_, ?_, P, .refl P, ?_⟩
    · simp only [perform, Session.poll, goOn, station_arrive, hf, hg, hfg.pending, hpendings, hset, hengine]
      rfl
    · simp only [Session.suspended, ask?, hf, hg, hfg.pending, hpendings, hset]
    · simpa only [perform, Session.poll, goOn, station_arrive, hf, hg, hfg.pending, hpendings, hset]
        using harrived
  | some σ =>
    have hown : ((s.arrive i).armed i).engine.own = ((s.arrive i).engine i).own := rfl
    rcases hfg.machine.resume σ with ⟨m, n, hm, hn, hmn⟩ | ⟨x, hm, hn⟩
    · obtain ⟨⟨Q, hPQ, hstop, hcores⟩, hsuspensions⟩ :=
        During.drives hturn s.fuel (.resume rfl hf hset hm) hmn harrived.armed
      obtain ⟨hanswer, hafter⟩ := harrived.settleStop hi' hPQ hfg.same
        ((Invariant.lasting_owning ((s.arrive i).engine i).own).drive s.fuel hown m) hcores hstop
      refine ⟨?_, ?_, Q, hPQ, ?_⟩
      · simp only [perform, Session.poll, goOn, station_arrive, hf, hg, hfg.pending, hpendings, hset, hm, hn,
          hfg.loan, fuel_arrive, h.fuel, hanswer]
      · simp only [Session.suspended, ask?, hf, hg, hfg.pending, hpendings, hset, hm, hn, h.fuel,
          hsuspensions]
      · simpa only [perform, Session.poll, goOn, station_arrive, hf, hg, hfg.pending, hpendings, hset, hm, hn,
          hfg.loan, fuel_arrive, h.fuel] using hafter
    · obtain ⟨hanswer, hafter⟩ := harrived.settleStop hi' (.refl P) hfg.same hown harrived.armed
        (.done (.error (.fault x)))
      refine ⟨?_, ?_, P, .refl P, ?_⟩
      · simp only [perform, Session.poll, goOn, station_arrive, hf, hg, hfg.pending, hpendings, hset, hm, hn,
          hfg.loan, hanswer]
      · simp only [Session.suspended, ask?, hf, hg, hfg.pending, hpendings, hset, hm, hn]
      · simpa only [perform, Session.poll, goOn, station_arrive, hf, hg, hfg.pending, hpendings, hset, hm, hn,
          hfg.loan] using hafter

/-- **A run of a unit**, and of the same one with some records asking for a scope. -/
theorem runUnit {u v : CodeUnit} (h : Session.Twins P i s t) (hi : i < s.stations.size) (hu : u.Compiled)
    (hturn : ∀ m c, s.During (.runUnit i u) m c → m.Scopeless c) (huv : u.Captures v) :
    Echoes P i s t (.runUnit i u) (.runUnit i v) := by
  have hroot : (t.engine i).root = (s.engine i).root := by
    rw [show t.engine i = _ from h.core.engine_eq]
    rfl
  refine h.ask hi rfl rfl ?_ nofun hturn
  rw [hroot]
  exact Act.Pairs.openUnit huv hu (h.same _ (scope_mem_standing.mpr (.inl ⟨_, hi, rfl⟩)))

/-- **A call of a function** other than the one that evaluates code. -/
theorem call (h : Session.Twins P i s t) (hi : i < s.stations.size) {fn this : Value} {args : List Value}
    (hfn : fn ≠ .native (s.engine i).evalFunction)
    (hturn : ∀ m c, s.During (.call i fn this args) m c → m.Scopeless c) :
    Echoes P i s t (.call i fn this args) (.call i fn this args) := by
  have heval : P.evalFunction = (s.engine i).evalFunction := h.core.veil.evalFunction.1.symm
  cases hcallable : fn.isCallable with
  | true =>
    refine h.ask hi (if_pos hcallable) (if_pos hcallable) ?_ (fun a ha => ?_) hturn
    · exact Act.Pairs.callValue (heval ▸ hfn) this args
    · exact ((List.mem_append.mp ha).elim Cell.scope_notMem_ofValues Cell.scope_notMem_ofValues).elim
  | false =>
    refine ⟨?_, ?_, P, .refl P, ?_⟩
    · simp only [Session.perform, Session.call, hcallable, Bool.not_false, if_true]
    · simp only [Session.suspended, ask?, hcallable, Bool.false_eq_true, if_false]
    · simpa only [Session.perform, Session.call, hcallable, Bool.not_false, if_true] using h

theorem abandon (h : Session.Twins P i s t) (hi : i < s.stations.size) :
    Echoes P i s t (.abandon i) (.abandon i) := by
  rcases h.flight_cases with ⟨hf, hg⟩ | ⟨f, g, hf, hg, -⟩
  · refine ⟨?_, rfl, P, .refl P, ?_⟩
    · simp only [perform, Session.abandon, hf, hg]
    · simpa only [perform, Session.abandon, hf, hg] using h
  · have hseat : ∀ u : Session, u.modifyStation i Station.left = u.seat i (u.core i) Station.left :=
      fun u => modifyStation_congr rfl
    refine ⟨?_, rfl, P, .refl P, ?_⟩
    · simp only [perform, Session.abandon, hf, hg]
    · simp only [perform, Session.abandon, hf, hg, hseat]
      exact h.seat hi (.refl P) rfl h.core .none rfl (fun _ => rfl) fun _ => rfl

theorem console (h : Session.Twins P i s t) (hi : i < s.stations.size) :
    Echoes P i s t (.console i) (.console i) := by
  have hseat : ∀ u : Session, (u.takeConsole i).2 =
      u.seat i ⟨u.heap, { u.engine i with console := #[] }⟩ id :=
    fun u => modifyStation_congr rfl
  have hengine : t.engine i = _ := h.core.engine_eq
  refine ⟨?_, rfl, P, .refl P, ?_⟩
  · simp only [perform, takeConsole, hengine]
    rfl
  · change Session.Twins P i (s.takeConsole i).2 (t.takeConsole i).2
    rw [hseat, hseat]
    have hown : ({ s.engine i with console := #[] } : Engine).own = (s.engine i).own := rfl
    exact h.seat hi (.refl P) (c := ⟨s.heap, _⟩) hown h.core.silent h.flight h.busy
      (fun _ => rfl) fun _ => rfl

/-- **A turn** is the same for a host, if no step in its course calls the function that evaluates code. -/
theorem perform (h : Session.Twins P i s t) (hi : i < s.stations.size) (hsuits : s.Suits i turn)
    (hturn : ∀ m c, s.During turn m c → m.Scopeless c) (hcaptures : turn.Captures turn') :
    Echoes P i s t turn turn' := by
  cases turn with
  | runUnit j u =>
    obtain ⟨rfl, hu⟩ := hsuits
    cases hcaptures with
    | runUnit _ huv => exact h.runUnit hi hu hturn huv
    | refl => exact h.runUnit hi hu hturn (.refl u)
  | call j fn this args =>
    obtain ⟨rfl, hfn⟩ := hsuits
    cases hcaptures
    exact h.call hi hfn hturn
  | poll j =>
    obtain rfl : j = i := hsuits
    cases hcaptures
    exact h.poll hi hturn
  | abandon j =>
    obtain rfl : j = i := hsuits
    cases hcaptures
    exact h.abandon hi
  | console j =>
    obtain rfl : j = i := hsuits
    cases hcaptures
    exact h.console hi
  | settle p σ =>
    cases hcaptures
    refine ⟨?_, rfl, P, .refl P, ?_⟩
    · simp only [Session.perform, Session.settle, Heap.settle, h.pendings_eq]
    · exact h.settle p σ
  | keep slot v =>
    cases hcaptures
    refine ⟨rfl, rfl, P, .refl P, { h with slots := ?_ }⟩
    simp only [Session.perform, Session.keep, h.slots]
  | forget slot =>
    cases hcaptures
    refine ⟨?_, rfl, P, .refl P, { h with slots := ?_ }⟩
    · simp only [Session.perform, Session.forget, h.slots]
    · simp only [Session.perform, Session.forget, h.slots]
  | release scope =>
    cases hcaptures
    refine ⟨?_, rfl, P, .refl P, h.release scope⟩
    simp only [Session.perform, Session.release, h.scopes]
  | elsewhere process =>
    cases hcaptures
    exact ⟨rfl, rfl, P, .refl P, { h with core := h.core.elsewhere process }⟩
  | run | evalIn | setName | setEnvironment | hold => exact hsuits.elim

end Twins

/-! ## Plays -/

theorem During.running {m : Machine} {c : Core} (hsuits : s.Suits i turn) (hd : s.During turn m c) :
    Running .compiling s i m c := by
  induction hd with
  | @start a hask hidle =>
    cases turn with
    | runUnit j u =>
      cases hask
      obtain ⟨rfl, hu⟩ := hsuits
      exact .start hidle (.unit hu)
    | call j fn this args =>
      obtain ⟨rfl, -⟩ := hsuits
      simp only [ask?] at hask
      split at hask
      · cases hask
        exact .start hidle (.call fn this args [])
      · cases hask
    | run | evalIn => exact hsuits.elim
    | _ => cases hask
  | resume heq hf hset hm =>
    subst heq
    obtain rfl : _ = i := hsuits
    exact .resume hf hset hm
  | step _ hstep ih => exact .step ih hstep
  | settle _ hstep hget hripe hm ih => exact .settle ih hstep hget hripe hm

/-- What runs in the course of such a turn has no `this` where no scope is asked for. -/
theorem During.scopeless {m : Machine} {c : Core} (hs : Live .compiling s) (hi : i < s.stations.size)
    (hsuits : s.Suits i turn) (hd : s.During turn m c) (heval : ¬m.CallsEval c) : m.Scopeless c :=
  ⟨(Regime.running (Regime.live (R := .thisless) hs nofun) hi (hd.running hsuits)).placed, heval⟩

/-- Such a turn is something that a host can do, or changes nothing. -/
theorem Suits.step (hi : i < s.stations.size) (hsuits : s.Suits i turn)
    (hanswered : (s.perform turn).1 ≠ .answer (some .outOfFuel)) :
    (s.perform turn).2 = s ∨ Step .compiling s (s.perform turn).2 := by
  cases turn with
  | runUnit j u =>
    obtain ⟨rfl, hu⟩ := hsuits
    exact .inr (.evaluate hi (.unit hu) rfl fun h => hanswered (congrArg (Response.answer ∘ some) h))
  | call j fn this args =>
    obtain ⟨rfl, -⟩ := hsuits
    cases hcallable : fn.isCallable with
    | true =>
      have hask : s.ask? (.call j fn this args) = some _ := if_pos hcallable
      have hperform := (asks hask).perform
      rw [hperform] at hanswered ⊢
      refine .inr (.evaluate hi (.call fn this args []) rfl fun h => hanswered ?_)
      exact congrArg (Response.answer ∘ some) h
    | false => exact .inl (by simp only [perform, call, hcallable, Bool.not_false, if_true])
  | poll j =>
    obtain rfl : j = i := hsuits
    exact .inr (.poll hi rfl fun h => hanswered (congrArg Response.answer h))
  | abandon j => exact .inr (.edit (.abandon s j))
  | console j => exact .inr (.edit (.console s j))
  | settle p σ => exact .inr (.edit (.settle s p σ))
  | keep slot v => exact .inr (.edit (.keep s slot v))
  | forget slot => exact .inr (.edit (.forget s slot))
  | release scope => exact .inr (.edit (.release s scope))
  | elsewhere process => exact .inr (.edit (.elsewhere s process))
  | run | evalIn | setName | setEnvironment | hold => exact hsuits.elim

/-- Such a turn leads to where a host can get. -/
theorem Live.suits (hs : Live .compiling s) (hi : i < s.stations.size) (hsuits : s.Suits i turn)
    (hanswered : (s.perform turn).1 ≠ .answer (some .outOfFuel)) :
    Live .compiling (s.perform turn).2 ∧ i < (s.perform turn).2.stations.size := by
  rcases hsuits.step hi hanswered with heq | hstep
  · rw [heq]
    exact ⟨hs, hi⟩
  · exact ⟨.step hs hstep, Nat.lt_of_lt_of_le hi (size_step hstep)⟩

end Session

/-! ## Where two plays begin -/

/-- The frame runs a unit with some records asking for a scope. -/
structure Frame.Captures (f g : Frame) : Prop where
  rest : g = { f with unit := g.unit }
  unit : f.unit.Captures g.unit

/-- The activation runs a unit with some records asking for a scope. -/
structure Activation.Captures (a b : Activation) : Prop where
  rest : b = { a with frame := b.frame }
  frame : a.frame.Captures b.frame

/-- What is parked runs units with some records asking for a scope. -/
structure Flight.Captures (f g : Flight) : Prop where
  rest : g = { f with machine := { f.machine with stack := g.machine.stack } }
  stack : List.Forall₂ Activation.Captures f.machine.stack g.machine.stack

theorem Frame.captures_refl (fs : List Frame) : List.Forall₂ Frame.Captures fs fs :=
  List.forall₂_same.mpr fun _ _ => ⟨rfl, .refl _⟩

theorem Activation.captures_refl (as : List Activation) : List.Forall₂ Activation.Captures as as :=
  List.forall₂_same.mpr fun _ _ => ⟨rfl, rfl, .refl _⟩

/-- **The second session is the first one with some records asking for a scope**: those of closures, and
those of units that run. The scopes that the host holds are there. -/
structure Session.Captures (s t : Session) : Prop where
  rest : t = { s with heap := { s.heap with closures := t.heap.closures }, stations := t.stations }
  closures : Store.Alike Closure.Captures s.heap.closures t.heap.closures
  size : t.stations.size = s.stations.size
  station : ∀ j, t.station j =
    { s.station j with flight := (t.station j).flight, stack := (t.station j).stack }
  stack : ∀ j, List.Forall₂ Frame.Captures (s.station j).stack (t.station j).stack
  flight : ∀ j, Option.Rel Flight.Captures (s.station j).flight (t.station j).flight
  held : ∀ a ∈ s.scopes, s.heap.Anchored a

/-- A session with no records changed. -/
theorem Session.Captures.refl (s : Session) (held : ∀ a ∈ s.scopes, s.heap.Anchored a) : s.Captures s where
  rest := rfl
  closures := Store.alike_refl Closure.Captures.refl _
  size := rfl
  station _ := rfl
  stack _ := Frame.captures_refl _
  flight j := by
    cases (s.station j).flight with
    | none => exact .none
    | some f => exact .some ⟨rfl, Activation.captures_refl _⟩
  held := held

/-- What a parked evaluation holds does not depend on records. -/
theorem Flight.Captures.held {f g : Flight} (h : f.Captures g) : g.machine.held = f.machine.held := by
  have hstack : g.machine.stack.flatMap Activation.held = f.machine.stack.flatMap Activation.held := by
    have hall := h.stack
    generalize f.machine.stack = as at hall
    generalize g.machine.stack = bs at hall
    induction hall with
    | nil => rfl
    | @cons a b as bs hab _ ih =>
      have hheld : b.held = a.held := by
        unfold Activation.held
        rw [hab.rest, hab.frame.rest]
      rw [List.flatMap_cons, List.flatMap_cons, ih, hheld]
  have hcontrol : g.machine.control = f.machine.control := by rw [h.rest]
  unfold Machine.held
  rw [hstack, hcontrol]

namespace Session

/-- The plan with which two plays begin: scopes are the same as themselves. -/
def plan (s : Session) (i : Nat) : Plan :=
  ⟨fun a b => b = a ∧ s.heap.Anchored a, fun _ _ => False, (s.engine i).evalFunction⟩

variable {s t : Session} {i : Nat}

/-- What is held from outside, if each station holds the same. -/
theorem flatMap_congr {α : Type} {F : Station × Nat → List α} (hsize : t.stations.size = s.stations.size)
    (hF : ∀ j, F (t.station j, j) = F (s.station j, j)) :
    t.stations.toList.zipIdx.flatMap F = s.stations.toList.zipIdx.flatMap F := by
  rw [List.flatMap_def, List.flatMap_def]
  congr 1
  refine List.ext_getElem? fun j => ?_
  simp only [List.getElem?_map, List.getElem?_zipIdx, Array.getElem?_toList]
  by_cases hj : j < s.stations.size
  · rw [getElem?_stations hj, getElem?_stations (hsize ▸ hj)]
    simpa using hF j
  · rw [Array.getElem?_eq_none (Nat.le_of_not_lt hj), Array.getElem?_eq_none (hsize ▸ Nat.le_of_not_lt hj)]

/-- The same is held from outside. -/
theorem Captures.standing (h : s.Captures t) : t.standing i = s.standing i := by
  have hown : ∀ j, (t.station j).own = (s.station j).own := fun j => by
    rw [h.station j]
    rfl
  have hflight : ∀ j, (t.station j).inFlight = (s.station j).inFlight := fun j => by
    have hrel := h.flight j
    unfold Station.inFlight
    generalize (s.station j).flight = f at hrel ⊢
    generalize (t.station j).flight = g at hrel ⊢
    cases hrel with
    | none => rfl
    | @some f g hfg =>
      have htaken : g.taken = f.taken := by rw [hfg.rest]
      have hloan : g.loan = f.loan := by rw [hfg.rest]
      dsimp only
      rw [hfg.held, htaken, hloan]
  have hzip : ∀ l : List Station, l.flatMap Station.own = l.zipIdx.flatMap (·.1.own) := by
    intro l
    calc l.flatMap Station.own = (l.zipIdx.map Prod.fst).flatMap Station.own := by
          rw [List.zipIdx_map_fst]
      _ = l.zipIdx.flatMap (·.1.own) := List.flatMap_map ..
  unfold Session.standing Session.foreignRoots
  rw [hzip, hzip, flatMap_congr (F := (·.1.own)) h.size hown]
  congr 1
  refine flatMap_congr h.size fun j => ?_
  have hlinks : (t.station j).engine.links = (s.station j).engine.links := by rw [h.station j]
  dsimp only
  rw [hflight, hlinks]

/-- What engines hold begins chains that end at roots. -/
theorem Grounded.standing (h : s.Grounded) (a : ScopeId) (ha : .scope a ∈ s.standing i) :
    s.heap.Anchored a := by
  rcases scope_mem_standing.mp ha with ⟨j, hj, rfl⟩ | ⟨j, hj, -, ⟨n, x, hx, rfl⟩ | ha⟩
  · exact (h.core j hj).root
  · exact (h.core j hj).table n x hx
  · exact h.inFlight hj ha

theorem Captures.engine_eq (h : s.Captures t) (i : Nat) : t.engine i = s.engine i := by
  have heq := congrArg Station.engine (h.station i)
  exact heq

theorem Captures.heap_eq (h : s.Captures t) : t.heap = { s.heap with closures := t.heap.closures } :=
  congrArg Session.heap h.rest

/-- Closures, scopes and tables are the same but for records. -/
theorem Captures.veil (h : s.Captures t) (hcode : Provenance.compiler.Holds (s.station i).frames s.heap)
    (hg : s.Grounded) (hi : i < s.stations.size) : (s.core i).veil.Twins (s.plan i) (t.core i).veil := by
  have hscopes : (t.core i).veil.scopes = s.heap.scopes := by
    have heq := congrArg Heap.scopes h.heap_eq
    exact heq
  have hlinks : (t.core i).veil.links = (s.engine i).links := congrArg Engine.links (h.engine_eq i)
  exact
    { evalFunction := ⟨rfl, congrArg Engine.evalFunction (h.engine_eq i)⟩
      code := fun id k hk => (hcode.2 id k hk).1
      closures := h.closures
      same := fun {a b} hab => by
        obtain ⟨rfl, ha⟩ := hab
        rcases ha.cases with ⟨g, ho⟩ | ⟨p, names, ho, hage, hrest⟩
        all_goals
          obtain ⟨u, hu, hshape⟩ := Option.map_eq_some_iff.mp ho
          have hp := congrArg Prod.fst hshape
        · exact ⟨u, u, hu, hscopes.symm ▸ hu, rfl, .inl ⟨hp, hp⟩⟩
        · exact ⟨u, u, hu, hscopes.symm ▸ hu, rfl, .inr ⟨p, p, hp, hp, ⟨rfl, hrest⟩, hage, hage⟩⟩
      left := fun hab hab' => hab.1.trans hab'.1.symm
      right := fun hab hab' => hab.1.symm.trans hab'.1
      annex := False.elim
      links := fun n => by
        rw [hlinks]
        change Option.Rel _ (s.engine i).links[n]? (s.engine i).links[n]?
        cases hn : (s.engine i).links[n]? with
        | none => exact .none
        | some x => exact .some ⟨rfl, rfl, rfl, (hg.core i hi).table n x hn⟩ }

/-- What is parked is the same but for records. -/
theorem Captures.parked (h : s.Captures t) (hcode : Provenance.compiler.Holds (s.station i).frames s.heap)
    (hg : s.Grounded) (hi : i < s.stations.size) :
    Option.Rel (Flight.Twins (s.plan i)) (s.station i).flight (t.station i).flight := by
  have hrel := h.flight i
  have hframes := hcode.1
  have hthere : ∀ a, .scope a ∈ (s.station i).inFlight → s.heap.Anchored a := fun _ => hg.inFlight hi
  unfold Station.frames at hframes
  unfold Station.inFlight at hthere
  generalize (s.station i).flight = f at hrel hframes hthere ⊢
  generalize (t.station i).flight = g at hrel ⊢
  cases hrel with
  | none => exact .none
  | @some f g hfg =>
    have hall : ∀ a ∈ f.machine.stack, a.frame.unit.Compiled ∧
        s.heap.Anchored a.frame.scope := fun a ha => by
      refine ⟨hframes a.frame (List.mem_map_of_mem ha), hthere a.frame.scope ?_⟩
      exact List.mem_append_left _ (List.mem_append_left _ (List.mem_append_right _
        (List.mem_flatMap.mpr ⟨a, ha, List.mem_cons_self⟩)))
    refine .some ⟨⟨by rw [hfg.rest], ?_⟩, by rw [hfg.rest], by rw [hfg.rest], by rw [hfg.rest],
      fun a ha => ⟨rfl, hthere a (List.mem_append_right _ ha)⟩⟩
    refine ((List.forall₂_and_left _ _).mpr ⟨hall, hfg.stack⟩).imp ?_
    rintro a b ⟨⟨hunit, hscope⟩, hab⟩
    have hscopes : b.frame.scope = a.frame.scope := by rw [hab.frame.rest]
    have hself : (s.plan i).same a.frame.scope b.frame.scope := ⟨hscopes, hscope⟩
    refine ⟨⟨?_, hab.frame.unit, hunit, .inl hself⟩, hab.rest, .inl hself⟩
    rw [hscopes]
    exact hab.frame.rest

/-- The activations below are the same but for records. -/
theorem Captures.below (h : s.Captures t) (i : Nat) :
    (t.station i).base.map Frame.position = (s.station i).base.map Frame.position := by
  have hposition : ∀ {fs gs : List Frame}, List.Forall₂ Frame.Captures fs gs →
      gs.map Frame.position = fs.map Frame.position := by
    intro fs gs hfs
    induction hfs with
    | nil => rfl
    | cons hfg _ ih => rw [List.map_cons, List.map_cons, ih, Frame.position, hfg.rest, Frame.position]
  have hstack := h.stack i
  have hflight := h.flight i
  unfold Station.base
  generalize (s.station i).flight = f at hflight ⊢
  generalize (t.station i).flight = g at hflight ⊢
  cases hflight with
  | none => exact hposition hstack
  | @some f g hfg =>
    have hdepth : g.depth = f.depth := by rw [hfg.rest]
    dsimp only
    rw [hdepth, ← hstack.length_eq]
    exact hposition (List.forall₂_drop _ hstack)

/-- **The plan holds where two plays begin.** -/
theorem Captures.twins (h : s.Captures t) (hs : Live .compiling s) (hg : s.Grounded)
    (hi : i < s.stations.size) : Session.Twins (s.plan i) i s t := by
  have hcode := ((Regime.live (R := .sited) hs nofun).core i hi).code
  have hslots : t.slots = s.slots := by rw [h.rest]
  have hpendings : t.pendings = s.pendings := by rw [h.rest]
  have hscopes : t.scopes = s.scopes := by rw [h.rest]
  have hfuel : t.fuel = s.fuel := by rw [h.rest]
  have hbusy : (t.station i).busy = (s.station i).busy := by rw [h.station i]
  refine ⟨h.size, hfuel, hslots, hpendings, hscopes, fun a ha => ⟨rfl, h.held a ha⟩, h.standing,
    fun a ha => ⟨rfl, hg.standing a ha⟩, ⟨?_, h.veil hcode hg hi⟩, h.parked hcode hg hi, hbusy,
    h.below i⟩
  have hcore : t.core i = ⟨{ s.heap with closures := t.heap.closures }, s.engine i⟩ := by
    rw [← h.heap_eq, ← h.engine_eq i]
    rfl
  rw [hcore]
  rfl

/-- The host only asks for what suits engine `i`. No step of an evaluation calls the function that
evaluates code, and every evaluation but the last one has an answer. -/
def Shuns (s : Session) (i : Nat) : List Turn → Prop
  | [] => True
  | turn :: turns => s.Suits i turn ∧ (∀ m c, s.During turn m c → ¬m.CallsEval c) ∧
      (turns ≠ [] → (s.perform turn).1 ≠ .answer (some .outOfFuel)) ∧ (s.perform turn).2.Shuns i turns

/-- Turns in one session and turns in another one are the same for the host, and leave the same to it:
the replies, the suspensions with their positions, the lines that a guest wrote, and the objects, from the
global one on. Functions are the same but for records. -/
structure PlaysAlike (i : Nat) (s t : Session) (turns turns' : List Turn) : Prop where
  replies : t.play turns' = s.play turns
  suspensions : t.suspensions turns' = s.suspensions turns
  console : ((t.after turns').engine i).console = ((s.after turns).engine i).console
  global : ((t.after turns').engine i).global = ((s.after turns).engine i).global
  objects : (t.after turns').heap.objects = (s.after turns).heap.objects
  natives : (t.after turns').heap.natives = (s.after turns).heap.natives
  pendings : (t.after turns').heap.pendings = (s.after turns).heap.pendings
  closures : Store.Alike Closure.Captures (s.after turns).heap.closures (t.after turns').heap.closures

theorem Twins.idle {P : Plan} (h : Session.Twins P i s t) : PlaysAlike i s t [] [] := by
  have hheap : t.heap = _ := h.core.heap_eq
  have hengine : t.engine i = _ := h.core.engine_eq
  refine ⟨rfl, rfl, ?_, ?_, ?_, ?_, ?_, h.core.veil.closures⟩
  all_goals simp only [after, hheap, hengine]
  all_goals rfl

theorem Twins.playsAlike {P : Plan} {turns turns' : List Turn} (h : Session.Twins P i s t)
    (hs : Live .compiling s) (hi : i < s.stations.size)
    (hturns : List.Forall₂ Turn.Captures turns turns') (hshuns : s.Shuns i turns) :
    PlaysAlike i s t turns turns' := by
  induction hturns generalizing P s t with
  | nil => exact h.idle
  | @cons turn turn' turns turns' hturn hturns ih =>
    obtain ⟨hsuits, heval, hanswered, hrest⟩ := hshuns
    obtain ⟨hreply, hsuspended, Q, -, hafter⟩ :=
      h.perform hi hsuits (fun m c hd => hd.scopeless hs hi hsuits (heval m c hd)) hturn
    have hlater : PlaysAlike i (s.perform turn).2 (t.perform turn').2 turns turns' := by
      by_cases hlast : turns = []
      · subst hlast
        cases hturns
        exact hafter.idle
      · obtain ⟨hlive, hthere⟩ := hs.suits hi hsuits (hanswered hlast)
        exact ih hafter hlive hthere hrest
    exact ⟨congrArg₂ List.cons hreply hlater.replies, congrArg₂ (· ++ ·) hsuspended hlater.suspensions,
      hlater.console, hlater.global, hlater.objects, hlater.natives, hlater.pendings, hlater.closures⟩

/-- **Whether a function has a scope of its own is unobservable** where it has nothing to bind: if some
records of the units that run ask for a scope although they need not, nothing changes for anybody. -/
theorem capture_unobservable {turns turns' : List Turn} (hs : Live .compiling s) (hg : s.Grounded)
    (hi : i < s.stations.size) (h : s.Captures t) (hturns : List.Forall₂ Turn.Captures turns turns')
    (hshuns : s.Shuns i turns) : PlaysAlike i s t turns turns' :=
  (h.twins hs hg hi).playsAlike hs hi hturns hshuns

end Session

/-! ## A function that is called at once -/

/-- The unit is a call of a function expression with an empty body, which asks for no scope. -/
structure CodeUnit.CallsElided (u : CodeUnit) (g : FunctionNode) (r₀ r : ScopeRecord) : Prop where
  body : ∃ s₁ s₂ s₃ fn, u.program.body = [.expression s₁ (.call s₂ (.function s₃ fn) [])] ∧ fn.id = g.id
  function : u.function? g.id = some g
  bare : g.body = []
  outer : u.record? 0 = some r₀
  hoisted : r₀.hoisted = []
  children : r₀.children = [g.id]
  inner : u.record? g.id = some r
  elided : r.requiresCapture = false
  declares : r.hoisted = []

/-- Whether the unit is such a call. -/
def CodeUnit.callsElided (u : CodeUnit) : Bool :=
  match u.program.body with
  | [.expression _ (.call _ (.function _ fn) [])] =>
    ((u.function? fn.id).any fun g => g.id == fn.id && g.body.isEmpty) &&
    ((u.record? 0).any fun r => r.hoisted.isEmpty && r.children == [fn.id]) &&
    (u.record? fn.id).any fun r => !r.requiresCapture && r.hoisted.isEmpty
  | _ => false

theorem CodeUnit.exists_callsElided {u : CodeUnit} (hu : u.callsElided = true) :
    ∃ g outer inner, u.CallsElided g outer inner := by
  unfold callsElided at hu
  split at hu
  next s₁ s₂ s₃ fn hbody =>
    simp only [Bool.and_eq_true, Option.any_eq_true, beq_iff_eq, List.isEmpty_iff,
      Bool.not_eq_true'] at hu
    obtain ⟨⟨⟨g, hg, hid, hbare⟩, outer, houter, hhoisted, hchildren⟩, inner, hinner, helided,
      hdeclares⟩ := hu
    exact ⟨g, outer, inner, ⟨s₁, s₂, s₃, fn, hbody, hid.symm⟩, hid ▸ hg, hbare, houter, hhoisted,
      hid ▸ hchildren, hid ▸ hinner, helided, hdeclares⟩
  next => cases hu

/-- The evaluation comes to an end, and no step until then calls the function that evaluates code. -/
inductive Machine.Modest : Machine → Core → Prop
  | done {m c o c'} : ¬m.CallsEval c → m.step c = (.done o, c') → Modest m c
  | running {m c m' c'} : ¬m.CallsEval c → m.step c = (.running m', c') → Modest m' c' → Modest m c

theorem Machine.Modest.not_callsEval {m : Machine} {c : Core} (h : m.Modest c) : ¬m.CallsEval c := by
  cases h <;> assumption

/-- So it is in the course of a turn that asks for it. -/
theorem Session.During.modest {s : Session} {turn : Turn} {m : Machine} {c : Core} {a : Ask}
    (hask : s.ask? turn = some a) (hpoll : ∀ j, turn ≠ .poll j)
    (hstart : (Machine.start a.act (a.session.armed a.engine)).1.Modest
      (Machine.start a.act (a.session.armed a.engine)).2) (hd : s.During turn m c) :
    m.Modest c := by
  induction hd with
  | start hask' =>
    cases hask.symm.trans hask'
    exact hstart
  | resume heq => exact absurd heq (hpoll _)
  | step _ hstep ih =>
    cases ih with
    | done _ h =>
      rw [hstep] at h
      cases h
    | running _ h hrest =>
      rw [hstep] at h
      cases h
      exact hrest
  | settle _ hstep _ _ _ ih =>
    cases ih with
    | done _ h =>
      rw [hstep] at h
      cases h
    | running _ h _ =>
      rw [hstep] at h
      cases h

namespace CodeUnit.CallsElided

variable {u : CodeUnit} {g : FunctionNode} {r₀ r : ScopeRecord} {c : Core}

/-- The function is called: its activation goes on in the scope in which it was made. -/
theorem callClosure (h : u.CallsElided g r₀ r) (root : ScopeId)
    (hdepth : 1 + c.engine.below.length < c.engine.settings.maxCallDepth)
    (hfree : c.engine.links[c.engine.nextSerial]? = none) :
    Act.callClosure 1 (c.heap.closures.next c.engine.region) .undefined [] (c.linking g u root) =
      .ok (.enter [] ⟨⟨r.name, root, u, g.id, 0, {}⟩, .function (c.nextClosure g u).internalName, []⟩
        (.value .undefined)) (c.linking g u root) := by
  have hscope : (c.linking g u root).engine.links.scope? (c.nextClosure g u).serial = some root := by
    rw [Links.scope?, show (c.nextClosure g u).serial = c.engine.nextSerial from rfl,
      Core.getElem?_linking g u root hfree]
    rfl
  have hrecord : (c.nextClosure g u).unit.record? (c.nextClosure g u).node.id = some r := h.inner
  have hlimit : ¬1 + (c.linking g u root).engine.below.length ≥
      (c.linking g u root).engine.settings.maxCallDepth := Nat.not_le.mpr hdepth
  have hbare : (c.nextClosure g u).node.body = [] := h.bare
  unfold Act.callClosure Act.checkDepth
  simp only [bind_assoc, Act.get_bind]
  rw [if_neg hlimit, pure_bind, Act.get_bind, Core.get_linking, hscope]
  dsimp only
  rw [hrecord]
  dsimp only
  unfold Act.activationScope Act.openFrame Act.hoist
  rw [h.elided, hbare]
  simp only [Bool.false_eq_true, if_false, pure_bind]
  rw [hrecord]
  dsimp only
  rw [h.declares]
  rfl

/-- The frame of the unit at a place. -/
def frameAt (u : CodeUnit) (root : ScopeId) (location : Span) (nextChild : Nat) : Frame :=
  { Act.unitFrame u root with location, nextChild }

/-- The function is made in the scope of the unit. -/
theorem step_literal (h : u.CallsElided g r₀ r) (root : ScopeId) (here there : Span) {fn : FunctionNode}
    (hid : fn.id = g.id) (ks : List Cont) :
    Machine.step ⟨.eval (.function there fn), [⟨frameAt u root here 0, .unit, ks⟩]⟩ c =
      (.running ⟨.checkpoint (.function (c.heap.closures.next c.engine.region)),
        [⟨frameAt u root there 1, .unit, ks⟩]⟩, c.linking g u root) := by
  have hnext : Act.nextChildAfter? r₀.children 0 g.id = some 1 := by
    rw [h.children, Act.nextChildAfter?, List.drop_zero, List.findIdx?_cons, beq_self_eq_true]
    rfl
  have hmade := Act.instantiate_linking (f := frameAt u root there 0) (c := c) h.function h.outer hnext
  rw [← hid] at hmade
  unfold Machine.step Machine.perform Act.startExpr
  simp only [Expr.span, Bind.bind, EStateM.bind]
  rw [show Act.instantiate (Site.frame ⟨Activation.frame (Activation.mark
    ⟨frameAt u root here 0, .unit, ks⟩ there), []⟩) fn.id c = _ from hmade]
  rfl

/-- The function is entered. -/
theorem step_call (h : u.CallsElided g r₀ r) (root : ScopeId) (f : Frame) (ks : List Cont)
    (hdepth : 1 + c.engine.below.length < c.engine.settings.maxCallDepth)
    (hfree : c.engine.links[c.engine.nextSerial]? = none) :
    Machine.step ⟨.value (.function (c.heap.closures.next c.engine.region)),
      [⟨f, .unit, .callee [] :: ks⟩]⟩ (c.linking g u root) =
      (.running ⟨.value .undefined,
        [⟨⟨r.name, root, u, g.id, 0, {}⟩, .function (c.nextClosure g u).internalName, []⟩,
          ⟨f, .unit, .settle :: ks⟩]⟩, c.linking g u root) := by
  have hreceive : Act.receive ⟨f, []⟩ (.callee []) (.function (c.heap.closures.next c.engine.region))
      (c.linking g u root) = .ok (.enter [.settle] ⟨⟨r.name, root, u, g.id, 0, {}⟩,
        .function (c.nextClosure g u).internalName, []⟩ (.value .undefined)) (c.linking g u root) := by
    change (Act.callClosure 1 (c.heap.closures.next c.engine.region) .undefined [] >>= fun move =>
      pure (move.pushing [.settle])) _ = _
    simp only [Bind.bind, EStateM.bind, h.callClosure root hdepth hfree]
    rfl
  unfold Machine.step Machine.perform
  dsimp only
  rw [hreceive]
  rfl

/-- **The whole unit** ends, and calls nothing but its function. -/
theorem modest (h : u.CallsElided g r₀ r) (root : ScopeId)
    (hdepth : 1 + c.engine.below.length < c.engine.settings.maxCallDepth)
    (hfree : c.engine.links[c.engine.nextSerial]? = none) :
    (Machine.start (Act.openUnit u root) c).1.Modest (Machine.start (Act.openUnit u root) c).2 := by
  obtain ⟨s₁, s₂, s₃, fn, hbody, hid⟩ := h.body
  have hstart : Machine.start (Act.openUnit u root) c =
      (⟨.exec (.expression s₁ (.call s₂ (.function s₃ fn) [])) [],
        [⟨Act.unitFrame u root, .unit, [.body []]⟩]⟩, c) := by
    unfold Machine.start Act.openUnit Act.openFrame Act.hoist
    rw [show (Act.unitFrame u root).unit.record? (Act.unitFrame u root).record = some r₀ from h.outer]
    dsimp only
    rw [h.hoisted, hbody]
    rfl
  have hnone : ∀ {m : Machine} {c : Core}, m.call? = none → ¬m.CallsEval c := by
    rintro m c hm ⟨call, hcall, -⟩
    rw [hm] at hcall
    cases hcall
  rw [hstart]
  -- up to the function, up to its call, back from it, and the end of the unit
  refine .running (hnone rfl) rfl (.running (hnone rfl) rfl (.running (hnone rfl)
    (h.step_literal root s₂ s₃ hid [.callee [], .body []]) ?_))
  refine .running (hnone rfl) rfl (.running ?_ (h.step_call root _ [.body []] hdepth hfree) ?_)
  · rintro ⟨call, hcall, -, hcallee⟩
    cases hcall
    cases hcallee
  · refine .running (hnone rfl) rfl (.running (hnone rfl) rfl (.running (hnone rfl) rfl ?_))
    exact .running (hnone rfl) rfl (.running (hnone rfl) rfl (.done (hnone rfl) rfl))

end CodeUnit.CallsElided

namespace Session

/-- A function that is called in the scope in which it was made, and in one of its own. -/
theorem capture_unobservable_called : ∃ u : CodeUnit,
    CodeUnit.compile "(function () \x7b \x7d)()" [] = .ok u ∧ (∃ g r₀ r, u.CallsElided g r₀ r) ∧
      PlaysAlike 0 (addEngine { fuel := 100 } none {} none []) (addEngine { fuel := 100 } none {} none [])
        [.runUnit 0 u] [.runUnit 0 (u.capturing fun _ => true)] := by
  have hshape : (CodeUnit.compile "(function () \x7b \x7d)()" []).toOption.any
      CodeUnit.callsElided = true := by decide +kernel
  obtain ⟨u, hu, hshape⟩ := (Option.any_eq_true ..).mp hshape
  have hu : CodeUnit.compile "(function () \x7b \x7d)()" [] = .ok u := by
    cases hc : CodeUnit.compile "(function () \x7b \x7d)()" [] with
    | error e =>
      rw [hc] at hu
      cases hu
    | ok u' =>
      rw [hc] at hu
      cases hu
      rfl
  obtain ⟨g, r₀, r, h⟩ := CodeUnit.exists_callsElided hshape
  have hsize : 0 < (addEngine { fuel := 100 } none {} none []).stations.size := by
    rw [size_addEngine]
    exact Nat.succ_pos _
  have hlive : Live .compiling (addEngine { fuel := 100 } none {} none []) :=
    .step (.empty 100) (.edit (.engine _ none {} none []))
  have hmodest := h.modest (c := (addEngine { fuel := 100 } none {} none []).armed 0)
    ((addEngine { fuel := 100 } none {} none []).engine 0).root (by decide) Std.TreeMap.getElem?_emptyc
  have hshuns : (addEngine { fuel := 100 } none {} none []).Shuns 0 [.runUnit 0 u] :=
    ⟨⟨rfl, _, _, hu⟩, fun m c hd => (hd.modest rfl (fun _ h => by cases h) hmodest).not_callsEval,
      fun hne => absurd rfl hne, trivial⟩
  exact ⟨u, hu, ⟨g, r₀, r, h⟩, capture_unobservable hlive ((Grounded.empty 100).addEngine none {} none [])
    hsize (.refl _ nofun) (.cons (.runUnit 0 (u.captures_capturing _)) .nil) hshuns⟩

end Session

end Fermata
