import Fermata.Proofs.Custody.Tolerance
import Fermata.Proofs.Session.Turn
import Fermata.Proofs.Suspension.Lockstep

/-!
# The protocol of suspensions

Somebody watches for as long as an evaluation runs. A touch of an unsettled pending value makes the
watch go off, once, and the evaluation waits for that very value; it is watched again before it goes
on. So no evaluation meets a watch that went off already, and none is handed a settlement that it does
not wait for. A request that comes in the meantime is turned down, and the evaluation that waits does
not notice.

* `Machine.touching?`, `Core.touches`: the touches of an evaluation, as the heap shows them.
* `Machine.Heeds`: a state of an evaluation obeys the protocol.
* `Session.restock`, `Session.play_restock`: what a request that is turned down may leave behind, and
  that it does not matter.
* `Session.Awaits`: what is parked goes on with the settlement of the value that it touched.
* `Session.suspensions_heeded`: all of this, in every session that a host can get to.
-/

namespace Fermata

open Act

/-- The fault of a touch while the watch had gone off, or of a settlement that nobody waits for. -/
def Fault.IsSuspension : Fault → Prop
  | .doubleSuspension | .suspensionLost => True
  | _ => False

instance (f : Fault) : Decidable f.IsSuspension := by
  cases f <;> unfold Fault.IsSuspension <;> infer_instance

/-! ## A regime that asks for nothing -/

/-- Whatever the core is. -/
def Invariant.any : Invariant where
  holds _ _ := True
  quiet _ _ := trivial
  binding _ _ _ _ := trivial
  birth _ _ := trivial
  link _ _ _ _ := trivial
  capture _ _ _ _ _ _ := trivial
  share _ _ _ _ _ := trivial
  code _ _ := trivial
  mark _ _ := trivial
  close _ := trivial

/-- Whatever a host does. -/
def Regime.any (H : Host) : Regime H where
  invariant := .any
  atlas := .any
  lone := false
  covers _ c _ := Atlas.covers_any c
  place _ _ _ := trivial
  unit _ _ := trivial
  code _ _ := trivial
  ended _ _ := trivial
  child _ _ _ _ _ := trivial
  link _ _ := trivial
  first _ _ _ _ _ := trivial
  further _ _ _ _ _ _ _ := ⟨trivial, trivial⟩
  others _ _ _ := trivial

/-- Every fault but those of suspensions may occur. -/
def Tolerance.watched (H : Host) : Tolerance (Regime.any H).invariant where
  fault f := ¬f.IsSuspension
  literal _ _ _ := True
  linked _ _ := .inl fun _ _ _ => id
  hoisted _ _ _ _ := trivial
  neverLinked _ := id
  recorded _ _ := .inl fun _ _ _ => id
  unsupported _ := id
  escaped _ := id
  transferred := id
  stranded := id

theorem Tolerance.charted_watched (H : Host) :
    (Tolerance.watched H).custody.Charted (Regime.any H).atlas :=
  ⟨fun _ => Atlas.covers_any _, fun _ => trivial, fun _ => trivial⟩

theorem Session.Live.keeps {H : Host} {s : Session} (hs : Session.Live H s) :
    Tolerance.Keeps (Regime.any H) s :=
  Tolerance.live (Tolerance.charted_watched H) hs nofun

/-! ## Touches -/

/-- The unsettled pending value that the next step touches. -/
def Machine.touching? (m : Machine) (c : Core) : Option PendingId :=
  match m with
  | ⟨.checkpoint (.pending p), _ :: _⟩ => if (c.heap.pendings.get p).isSettled then none else some p
  | _ => none

theorem Machine.touching?_eq_some {m : Machine} {c : Core} {p : PendingId} :
    m.touching? c = some p ↔
      ∃ a callers, m = ⟨.checkpoint (.pending p), a :: callers⟩ ∧
        (c.heap.pendings.get p).settlement? = none := by
  constructor
  · intro h
    unfold touching? at h
    split at h
    · rename_i q a callers
      split at h
      · cases h
      · rename_i hset
        cases h
        exact ⟨a, callers, rfl, Option.not_isSome_iff_eq_none.mp hset⟩
    · cases h
  · rintro ⟨a, callers, rfl, hset⟩
    have hnot : ¬(c.heap.pendings.get p).isSettled = true := by
      rw [Pending.isSettled, hset]
      exact Bool.false_ne_true
    simp only [touching?, if_neg hnot]

namespace Core

/-- The values that a drive of at most `n` steps touches before they are settled, in order. -/
def touches : Nat → Machine → Core → List PendingId
  | 0, _, _ => []
  | n + 1, m, c =>
    match m.touching? c with
    | some p =>
      p :: match c.heap.pendings.get p with
        | .scheduled s =>
          if c.heap.process.ripe p then
            touches n ⟨s.control, m.stack⟩ (((c.parking p m.stack).settle p s).watching .armed)
          else []
        | _ => []
    | none =>
      match m.step c with
      | (.running m', c') => touches n m' c'
      | _ => []

/-- The value of the last suspension that an engine recorded. -/
def lastTouched (c : Core) : Option PendingId := c.engine.lastSuspension.map (·.pending)

variable {K : Custody} {A : Atlas} {m : Machine} {c : Core}

/-- A drive accounts for its touches. -/
structure Accounts (n : Nat) (m : Machine) (c : Core) : Prop where
  /-- Each is counted once. -/
  counted : (c.drive n m).2.engine.suspensionCount =
    c.engine.suspensionCount + (c.touches n m).length
  /-- The last one is on record. -/
  recorded : (c.drive n m).2.lastTouched = (c.lastTouched.toList ++ c.touches n m).getLast?
  /-- What parks waits for the last one. -/
  parks {m' p} : (c.drive n m).1 = .parked m' p →
    m'.control = .waiting p ∧ (c.touches n m).getLast? = some p

theorem accounts (hA : K.Charted A) (n : Nat) (h : K.Guards A m c) : c.Accounts n m := by
  induction n generalizing m c with
  | zero =>
    refine ⟨rfl, ?_, nofun⟩
    cases hlast : c.lastTouched <;> simp [drive, touches, hlast]
  | succ n ih =>
    cases htouch : m.touching? c with
    | some p =>
      obtain ⟨a, callers, rfl, hset⟩ := Machine.touching?_eq_some.mp htouch
      have hstep := Machine.step_checkpoint_unsettled a callers hset h.armed
      -- the drive stops at the value, which is its last touch
      have hwaits : c.heap.Unready p →
          c.touches (n + 1) ⟨.checkpoint (.pending p), a :: callers⟩ = [p] →
          c.Accounts (n + 1) ⟨.checkpoint (.pending p), a :: callers⟩ := fun hcold htouches => by
        have hdrive := @drive_waiting _ _ a callers hset hcold h.armed n
        refine ⟨?_, ?_, fun {m' q} hpark => ?_⟩
        · rw [hdrive, htouches]
          rfl
        · rw [hdrive, htouches]
          simp [parking, record, suspension, lastTouched]
        · rw [hdrive] at hpark
          cases hpark
          exact ⟨rfl, by rw [htouches]; rfl⟩
      cases hp : c.heap.pendings.get p with
      | settled s =>
        rw [hp] at hset
        cases hset
      | unsettled =>
        refine hwaits (Heap.unready_of_ne fun s hs => ?_) (by simp only [touches, htouch, hp])
        cases hp.symm.trans hs
      | scheduled s =>
        cases hripe : c.heap.process.ripe p with
        | false =>
          refine hwaits (fun _ _ => hripe) ?_
          simp only [touches, htouch, hp, hripe, Bool.false_eq_true, if_false]
        | true =>
          have hnext : K.Guards A ⟨s.control, a :: callers⟩
              (((c.parking p (a :: callers)).settle p s).watching .armed) :=
            (h.settle hA hstep hp _).1
          have hrest := ih hnext
          have hdrive := @drive_scheduled _ _ _ a callers hp hripe h.armed n
          have htouches : c.touches (n + 1) ⟨.checkpoint (.pending p), a :: callers⟩ =
              p :: (((c.parking p (a :: callers)).settle p s).watching .armed).touches n
                ⟨s.control, a :: callers⟩ := by
            simp only [touches, htouch, hp, hripe, if_true]
          refine ⟨?_, ?_, fun {m' q} hpark => ?_⟩
          · rw [hdrive, htouches, List.length_cons, hrest.counted]
            change c.engine.suspensionCount + 1 + _ = c.engine.suspensionCount + _
            omega
          · rw [hdrive, htouches, hrest.recorded]
            change (([p] : List PendingId) ++ _).getLast? = _
            simp [List.getLast?_append, List.getLast?_cons]
          · rw [hdrive] at hpark
            obtain ⟨hcontrol, hlast⟩ := hrest.parks hpark
            refine ⟨hcontrol, ?_⟩
            rw [htouches, List.getLast?_cons, hlast, Option.getD_some]
    | none =>
      cases hs : m.step c with
      | mk progress c' =>
        cases progress with
        | running m' =>
          obtain ⟨hnext, hl⟩ := h.running hA hs
          have hrest := ih hnext
          have hdrive : c.drive (n + 1) m = c'.drive n m' := by simp only [drive, hs]
          have htouches : c.touches (n + 1) m = c'.touches n m' := by
            simp only [touches, htouch, hs]
          refine ⟨?_, ?_, fun {m'' q} hpark => ?_⟩
          · rw [hdrive, htouches, hrest.counted, hl.count]
          · rw [hdrive, htouches, hrest.recorded, lastTouched, hl.last, lastTouched]
          · rw [hdrive] at hpark
            rw [htouches]
            exact hrest.parks hpark
        | done outcome =>
          obtain ⟨-, -, -, rfl⟩ := h.done hA hs
          have hdrive : c'.drive (n + 1) m = (.done outcome, c') := by simp only [drive, hs]
          have htouches : c'.touches (n + 1) m = [] := by simp only [touches, htouch, hs]
          refine ⟨?_, ?_, fun {m'' q} hpark => ?_⟩
          · rw [hdrive, htouches]
            rfl
          · rw [hdrive, htouches]
            cases c'.lastTouched <;> simp
          · rw [hdrive] at hpark
            cases hpark
        | parked m' p =>
          obtain ⟨⟨hcontrol, hset, rfl, -⟩, -, hparked⟩ := h.parked hA hs
          obtain ⟨control, stack⟩ := m
          cases stack with
          | nil => exact absurd rfl hparked.2.1
          | cons a callers =>
            obtain rfl : control = .checkpoint (.pending p) := hcontrol
            rw [Machine.touching?_eq_some.mpr ⟨a, callers, rfl, hset⟩] at htouch
            cases htouch

end Core

/-- A state of an evaluation obeys the protocol of suspensions. -/
structure Machine.Heeds (m : Machine) (c : Core) : Prop where
  /-- Somebody watches. -/
  armed : c.engine.watch = .armed
  /-- A touch makes the watch go off, and the machine waits for what it touched. -/
  touch {p} : m.touching? c = some p →
    m.step c = (.parked ⟨.waiting p, m.stack⟩ p, c.watching .triggered)
  /-- Nothing else does. -/
  quiet {progress d} : m.touching? c = none → m.step c = (progress, d) →
    (∀ m' p, progress ≠ .parked m' p) ∧ d.engine.watch = .armed ∧
      d.engine.suspensionCount = c.engine.suspensionCount ∧
      d.engine.lastSuspension = c.engine.lastSuspension
  /-- However far the machine is driven, its touches are accounted for. -/
  accounts (n : Nat) : c.Accounts n m
  kept {f} : m.control = .abrupt (.fault f) → ¬f.IsSuspension

theorem Custody.Guards.heeds {H : Host} {m : Machine} {c : Core}
    (h : (Tolerance.watched H).custody.Guards (Regime.any H).atlas m c) : m.Heeds c := by
  have hA := Tolerance.charted_watched H
  refine ⟨h.armed, fun {p} htouch => ?_, fun {progress d} htouch hstep => ?_,
    fun n => Core.accounts hA n h, fun {f} hf => ?_⟩
  · obtain ⟨a, callers, rfl, hset⟩ := Machine.touching?_eq_some.mp htouch
    exact Machine.step_checkpoint_unsettled a callers hset h.armed
  · cases progress with
    | running m' =>
      obtain ⟨hnext, hl⟩ := h.running hA hstep
      exact ⟨nofun, hnext.armed, hl.count, hl.last⟩
    | done outcome =>
      obtain ⟨-, -, -, rfl⟩ := h.done hA hstep
      exact ⟨nofun, h.armed, rfl, rfl⟩
    | parked m' p =>
      obtain ⟨⟨hcontrol, hset, rfl, -⟩, -, hparked⟩ := h.parked hA hstep
      obtain ⟨control, stack⟩ := m
      cases stack with
      | nil => exact absurd rfl hparked.2.1
      | cons a callers =>
        obtain rfl : control = .checkpoint (.pending p) := hcontrol
        rw [Machine.touching?_eq_some.mpr ⟨a, callers, rfl, hset⟩] at htouch
        cases htouch
  · have hcontrol := h.safe.control
    rw [hf] at hcontrol
    exact hcontrol

/-! ## Requests that are turned down -/

namespace Session

variable {s : Session} {i : Nat}

/-- The session with another stock of units. -/
def restock (s : Session) (i : Nat) (units : Array CodeUnit) (cache : List (String × Nat)) :
    Session :=
  { s with units }.modifyStation i fun t => { t with units := cache }

variable (s i) (units : Array CodeUnit) (cache : List (String × Nat))

/-- Stations differ in their units alone. -/
theorem station_restock (j : Nat) :
    ∃ us, (s.restock i units cache).station j = { s.station j with units := us } := by
  unfold restock
  rcases station_modifyStation_cases { s with units } i j fun t => { t with units := cache } with
    heq | heq <;> rw [heq]
  · exact ⟨(s.station j).units, rfl⟩
  · exact ⟨cache, rfl⟩

theorem engine_restock (j : Nat) : (s.restock i units cache).engine j = s.engine j := by
  obtain ⟨us, hstation⟩ := station_restock s i units cache j
  rw [engine, hstation, engine]

theorem flight_restock (j : Nat) :
    ((s.restock i units cache).station j).flight = (s.station j).flight := by
  obtain ⟨us, hstation⟩ := station_restock s i units cache j
  rw [hstation]

theorem armed_restock (j : Nat) : (s.restock i units cache).armed j = s.armed j := by
  obtain ⟨us, hstation⟩ := station_restock s i units cache j
  unfold armed core engine
  rw [hstation]
  rfl

theorem roots_restock (j : Nat) : (s.restock i units cache).roots j = s.roots j := by
  have howns : (s.restock i units cache).stations.toList.flatMap Station.own =
      s.stations.toList.flatMap Station.own := by
    have hzip : ∀ l : List Station, l.flatMap Station.own = l.zipIdx.flatMap (·.1.own) := by
      intro l
      calc l.flatMap Station.own = (l.zipIdx.map Prod.fst).flatMap Station.own := by
            rw [List.zipIdx_map_fst]
        _ = l.zipIdx.flatMap (·.1.own) := List.flatMap_map ..
    rw [hzip, hzip]
    exact flatMap_modify (·.1.own) (fun t => { t with units := cache }) rfl
  have hforeign : (s.restock i units cache).foreignRoots j = s.foreignRoots j :=
    flatMap_modify (s := s) _ (fun t => { t with units := cache }) rfl
  simp only [roots, hforeign, howns]
  rfl

/-- A change of a station that does not look at its units. -/
theorem modifyStation_restock (heap : Heap) (j : Nat) {g : Station → Station}
    (hg : ∀ t us, g { t with units := us } = { g t with units := us }) :
    { s.restock i units cache with heap }.modifyStation j g =
      ({ s with heap }.modifyStation j g).restock i units cache := by
  have hstations : ((s.stations.modify i fun t => { t with units := cache }).modify j g) =
      (s.stations.modify j g).modify i fun t => { t with units := cache } := by
    refine Array.ext_getElem? fun k => ?_
    simp only [Array.getElem?_modify]
    by_cases hik : i = k
    · by_cases hjk : j = k
      · cases s.stations[k]? with
        | none => simp [hik, hjk]
        | some t =>
          simp only [hik, hjk, if_true, Option.map_some]
          rw [hg]
      · simp [hik, hjk]
    · by_cases hjk : j = k
      · simp [hik, hjk]
      · simp [hik, hjk]
  simp only [restock, modifyStation, hstations]

theorem settleStop_restock (j : Nat) (loan : Loan) (stop : Core.Stop) (c : Core) :
    (s.restock i units cache).settleStop j loan stop c =
      ((s.settleStop j loan stop c).1, (s.settleStop j loan stop c).2.restock i units cache) := by
  cases stop with
  | done outcome =>
    rw [settleStop_done, settleStop_done, roots_restock]
    exact Prod.ext rfl (modifyStation_restock s i units cache _ j fun _ _ => rfl)
  | parked m p => exact Prod.ext rfl (modifyStation_restock s i units cache _ j fun _ _ => rfl)
  | outOfFuel m => exact Prod.ext rfl (modifyStation_restock s i units cache _ j fun _ _ => rfl)

theorem evaluate_restock (j : Nat) (act : Act Move) (loan : Loan) :
    (s.restock i units cache).evaluate j act loan =
      ((s.evaluate j act loan).1, (s.evaluate j act loan).2.restock i units cache) := by
  obtain ⟨us, hstation⟩ := station_restock s i units cache j
  unfold evaluate
  rw [hstation, armed_restock]
  change (if (s.station j).isBusy then _ else _) = _
  split
  · rfl
  · exact settleStop_restock ..

theorem arrive_restock (j : Nat) :
    (s.restock i units cache).arrive j = (s.arrive j).restock i units cache := by
  unfold arrive
  rw [flight_restock]
  cases (s.station j).flight with
  | none => rfl
  | some f =>
    dsimp only
    cases f.taken with
    | none => rfl
    | some settlement =>
      dsimp only
      change (if s.heap.process.ripe f.pending then _ else _) = _
      split <;> rfl

theorem goOn_restock (j : Nat) :
    (s.restock i units cache).goOn j = ((s.goOn j).1, (s.goOn j).2.restock i units cache) := by
  have hheap : (s.restock i units cache).heap = s.heap := rfl
  have hfuel : (s.restock i units cache).fuel = s.fuel := rfl
  unfold goOn
  rw [flight_restock, hheap, hfuel, armed_restock, engine_restock]
  cases (s.station j).flight with
  | none => rfl
  | some f =>
    dsimp only
    cases (s.heap.pendings.get f.pending).settlement? with
    | none => rfl
    | some settlement =>
      dsimp only
      rw [settleStop_restock]

end Session

/-- The turn may add to the stock of units. -/
def Turn.AddsUnit : Turn → Prop
  | .run _ _ => True
  | _ => False

namespace Session

variable (s : Session) (i : Nat) (units : Array CodeUnit) (cache : List (String × Nat))

/-- **A turn does not notice other units**, if it adds none. -/
theorem perform_restock {turn : Turn} (hturn : ¬turn.AddsUnit) :
    (s.restock i units cache).perform turn =
      ((s.perform turn).1, (s.perform turn).2.restock i units cache) := by
  have hheap : (s.restock i units cache).heap = s.heap := rfl
  cases turn with
  | run j source => exact absurd trivial hturn
  | runUnit j u =>
    simp only [perform, runUnit, engine_restock, evaluate_restock]
  | call j fn this args =>
    simp only [perform, call, engine_restock, evaluate_restock]
    split <;> rfl
  | evalIn j scope code =>
    simp only [perform, evalIn, engine_restock, hheap]
    split
    · rfl
    · cases CodeUnit.compile code (s.heap.visibleNames scope) with
      | error e => rfl
      | ok u => simp only [evaluate_restock]
  | poll j => simp only [perform, poll, arrive_restock, goOn_restock]
  | abandon j =>
    simp only [perform, abandon, flight_restock]
    cases (s.station j).flight with
    | none => rfl
    | some f => exact Prod.ext rfl (modifyStation_restock s i units cache s.heap j fun _ _ => rfl)
  | console j =>
    simp only [perform, takeConsole, engine_restock]
    exact Prod.ext rfl (modifyStation_restock s i units cache s.heap j fun _ _ => rfl)
  | setName scope name v =>
    simp only [perform, assign, hheap]
    cases s.heap.setName scope name v <;> rfl
  | _ => rfl

/-- **Nobody notices other units**, however the host goes on. -/
theorem play_restock {turns : List Turn} (hturns : ∀ turn ∈ turns, ¬turn.AddsUnit) :
    (s.restock i units cache).play turns = s.play turns ∧
      (s.restock i units cache).after turns = (s.after turns).restock i units cache := by
  induction turns generalizing s with
  | nil => exact ⟨rfl, rfl⟩
  | cons turn turns ih =>
    obtain ⟨hturn, hrest⟩ := List.forall_mem_cons.mp hturns
    obtain ⟨hplay, hafter⟩ := ih (s.perform turn).2 hrest
    rw [play, after, perform_restock s i units cache hturn, hplay]
    exact ⟨rfl, hafter⟩

variable {s i}

theorem modifyStation_id (s : Session) (i : Nat) : s.modifyStation i id = s := by
  have hstations : s.stations.modify i id = s.stations := by
    refine Array.ext_getElem? fun k => ?_
    simp [Array.getElem?_modify]
  simp only [modifyStation, hstations]

/-- Compiling for an engine changes nothing but the stock of units. -/
theorem compile_restock {t : Session} {unit : Nat} {source : String}
    (h : s.compile i source = .ok (unit, t)) : ∃ units cache, t = s.restock i units cache := by
  rcases compile_cases h with rfl | ⟨u, us, rfl⟩
  · refine ⟨t.units, (t.station i).units, ?_⟩
    calc t = t.modifyStation i id := (modifyStation_id t i).symm
      _ = t.restock i t.units (t.station i).units := modifyStation_congr rfl
  · exact ⟨s.units.push u, us (s.station i),
      modifyStation_congr (s := { s with units := s.units.push u }) rfl⟩

theorem evaluate_busy (hb : (s.station i).isBusy = true) (act : Act Move) (loan : Loan) :
    s.evaluate i act loan = (.finished (.error .busy), s) := by
  unfold evaluate
  rw [if_pos hb]

/-- While an evaluation waits, a request is turned down: as it is wrong itself, or as the engine is
busy. It leaves nothing behind but a unit. -/
structure Refuses (s : Session) (i : Nat) : Prop where
  run (source : String) :
    (∃ e, s.compile i source = .error e ∧ s.run i source = (.finished (.error (.compile e)), s)) ∨
      ∃ units cache, s.run i source = (.finished (.error .busy), s.restock i units cache)
  runUnit (u : CodeUnit) : s.runUnit i u = (.finished (.error .busy), s)
  call (fn this : Value) (args kept : List Value) : s.call i fn this args kept =
    (.finished (.error (if fn.isCallable then .busy else .notCallable fn.typeName)), s)
  evalIn (scope : ScopeId) (code : String) :
    (scope.region ≠ (s.engine i).region ∧
        s.evalIn i scope code = (.finished (.error .foreignScope), s)) ∨
      (∃ e, CodeUnit.compile code (s.heap.visibleNames scope) = .error e ∧
        s.evalIn i scope code = (.finished (.error (.compile e)), s)) ∨
      s.evalIn i scope code = (.finished (.error .busy), s)

theorem refuses (hb : (s.station i).isBusy = true) : s.Refuses i := by
  refine ⟨fun source => ?_, fun u => evaluate_busy hb _ _, fun fn this args kept => ?_,
    fun scope code => ?_⟩
  · cases hc : s.compile i source with
    | error e => exact .inl ⟨e, rfl, by simp only [Session.run, hc]⟩
    | ok found =>
      obtain ⟨id, t⟩ := found
      obtain ⟨units, cache, rfl⟩ := compile_restock hc
      refine .inr ⟨units, cache, ?_⟩
      obtain ⟨us, hstation⟩ := station_restock s i units cache i
      have hbusy : ((s.restock i units cache).station i).isBusy = true := by
        rw [hstation]
        exact hb
      simp only [Session.run, hc]
      exact evaluate_busy hbusy _ _
  · unfold Session.call
    cases fn.isCallable with
    | true => exact evaluate_busy hb _ _
    | false => rfl
  · unfold Session.evalIn
    by_cases hregion : scope.region ≠ (s.engine i).region
    · exact .inl ⟨hregion, if_pos hregion⟩
    · right
      rw [if_neg hregion]
      cases hc : CodeUnit.compile code (s.heap.visibleNames scope) with
      | error e => exact .inl ⟨e, rfl, rfl⟩
      | ok u => exact .inr (evaluate_busy hb _ _)

/-- The parked evaluation waits for the value that it touched, and goes on with the settlement of
that value and no other. -/
structure Awaits (s : Session) (i : Nat) (f : Flight) : Prop where
  waits : f.machine.control = .waiting f.pending
  /-- Nothing but what was taken along from the value settles it of itself. -/
  arrives : s.arrive i = s ∨ ∃ settlement, f.taken = some settlement ∧
    s.heap.process.ripe f.pending = true ∧ s.arrive i = (s.settle f.pending settlement).2
  unsettled : ((s.arrive i).heap.pendings.get f.pending).settlement? = none → (s.poll i).2 = s
  resumes {settlement} :
    ((s.arrive i).heap.pendings.get f.pending).settlement? = some settlement →
    ∃ stop c, ((s.arrive i).armed i).drive s.fuel
        { f.machine with control := settlement.control } = (stop, c) ∧
      s.poll i = (some ((s.arrive i).settleStop i f.loan stop c).1,
        ((s.arrive i).settleStop i f.loan stop c).2)

/-- What arrives settles the value. -/
theorem arrive_eq_self {f : Flight} (hf : (s.station i).flight = some f)
    (hset : ((s.arrive i).heap.pendings.get f.pending).settlement? = none) : s.arrive i = s := by
  rcases s.arrive_cases i with heq | ⟨g, τ, hg, -, -, heq⟩
  · exact heq
  · obtain rfl : f = g := Option.some.inj (hf.symm.trans hg)
    rw [heq] at hset ⊢
    change ((s.heap.pendings.modify f.pending (·.settle τ)).get f.pending).settlement? = none at hset
    rw [Store.get, Store.get?_modify, if_pos rfl] at hset
    have hsame := s.heap.pendings.modify_eq_self f.pending (f := (·.settle τ)) fun x hx => by
      rw [hx] at hset
      cases x <;> cases hset
    exact congrArg (fun pendings => ({ s with heap := { s.heap with pendings } } : Session)) hsame

theorem awaits {f : Flight} (hf : (s.station i).flight = some f)
    (hm : f.machine.control = .waiting f.pending) : s.Awaits i f := by
  have hf' : ((s.arrive i).station i).flight = some f := by rwa [station_arrive]
  refine ⟨hm, ?_, fun hset => ?_, fun {settlement} hset => ⟨_, _, rfl, ?_⟩⟩
  · rcases s.arrive_cases i with heq | ⟨g, τ, hg, htaken, hripe, heq⟩
    · exact .inl heq
    · obtain rfl : f = g := Option.some.inj (hf.symm.trans hg)
      exact .inr ⟨τ, htaken, hripe, heq⟩
  · rw [poll]
    simp only [goOn, hf', hset]
    exact arrive_eq_self hf hset
  · rw [poll, goOn_flight hf' hset hm, fuel_arrive]

variable {H : Host}

/-- **The protocol of suspensions never faults.** Whatever a host has done, every state of every
evaluation heeds it, no answer tells of a fault of suspension, what is parked awaits the value that it
touched, and a request that comes in the meantime is turned down without a trace. -/
theorem suspensions_heeded (hs : Live H s) (hi : i < s.stations.size) :
    (∀ m c, Running H s i m c → m.Heeds c) ∧
      (∀ act loan, Request H s i act loan →
        (s.evaluate i act loan).1.Tolerates fun f => ¬f.IsSuspension) ∧
      (∀ answer, (s.poll i).1 = some answer → answer.Tolerates fun f => ¬f.IsSuspension) ∧
      ((s.station i).isBusy = true ↔ ∃ f, (s.station i).flight = some f ∧ s.Awaits i f) ∧
      ((s.station i).isBusy = true → s.Refuses i ∧ ∀ units cache turns,
        (∀ turn ∈ turns, ¬turn.AddsUnit) →
          (s.restock i units cache).play turns = s.play turns ∧
          (s.restock i units cache).after turns = (s.after turns).restock i units cache) := by
  have hA := Tolerance.charted_watched H
  have hkeeps := hs.keeps
  refine ⟨fun m c hm => (Tolerance.running hA hkeeps hi hm).heeds, fun act loan hact => ?_,
    fun answer hanswer => ?_, ?_, fun hb => ⟨refuses hb, fun units cache turns => ?_⟩⟩
  · exact Tolerance.evaluate hA hkeeps hi hact
  · exact Tolerance.poll hA hkeeps hi hanswer
  · rw [Station.isBusy, (hs.guarded i).busy, Option.isSome_iff_exists]
    refine exists_congr fun f => ⟨fun hf => ⟨hf, ?_⟩, And.left⟩
    exact awaits hf (hkeeps.rules.parked i hi f hf).2.2
  · exact play_restock s i units cache

/-- An engine whose global object has a value that will settle by itself, in a while. -/
def delayed : Session :=
  ((({ fuel := 100 } : Session).addPending "answer" (.scheduled (.fulfilled (.bool true)))).elsewhere
    ⟨2, fun _ => false⟩).addEngine none { installStdlib := false } none [("answer", .pending ⟨0, 0⟩)]

theorem live_delayed : Live H delayed :=
  .step (.step (.step (.empty _) (.edit (.pending _ "answer" _))) (.edit (.elsewhere _ _)))
    (.edit (.engine _ none _ none _))

/-- Everything is ready to settle by itself. -/
def later : Turn := .elsewhere ⟨2, fun _ => true⟩

/-- The evaluation waits for the value. -/
def parkedDelayed : Session := (delayed.runUnit 0 readingAnswer).2

/-- An evaluation touches a value that is not ready, takes along what settles it, and waits. A run is turned
down, and makes no difference to what is polled later. If the evaluation is dropped instead, what it took
along is lost: the next one waits for the value, and goes on waiting. -/
theorem suspensions_heeded_parked :
    (∃ m c, Running .any delayed 0 m c ∧ m.Heeds c ∧ m.touching? c = some ⟨0, 0⟩) ∧
      (∃ f, (parkedDelayed.station 0).flight = some f ∧ parkedDelayed.Awaits 0 f ∧ f.pending = ⟨0, 0⟩ ∧
        f.taken.isSome = true) ∧
      (∃ units cache,
        parkedDelayed.run 0 "1" = (.finished (.error .busy), parkedDelayed.restock 0 units cache) ∧
        tells true ((parkedDelayed.restock 0 units cache).play [.poll 0, later, .poll 0]) =
          [false, false, true]) ∧
      tells true (parkedDelayed.play [.abandon 0, later, .runUnit 0 readingAnswer, .poll 0]) =
        [false, false, false, false] ∧
      ((parkedDelayed.after [.abandon 0, later, .runUnit 0 readingAnswer, .poll 0]).station 0).isBusy =
        true := by
  have hseen : (delayed.runUnit 0 readingAnswer).1.isReply = true ∧ 0 < delayed.stations.size ∧
      0 < parkedDelayed.stations.size ∧ (delayed.station 0).isBusy = false ∧
      ((parkedDelayed.station 0).flight.map (·.pending)) = some ⟨0, 0⟩ ∧
      ((parkedDelayed.station 0).flight.any (·.taken.isSome)) = true ∧
      (parkedDelayed.compile 0 "1").toOption.isSome = true ∧
      tells true (parkedDelayed.play [.poll 0, later, .poll 0]) = [false, false, true] ∧
      tells true (parkedDelayed.play [.abandon 0, later, .runUnit 0 readingAnswer, .poll 0]) =
        [false, false, false, false] ∧
      ((parkedDelayed.after [.abandon 0, later, .runUnit 0 readingAnswer, .poll 0]).station 0).isBusy =
        true := by
    decide +kernel
  obtain ⟨hreply, hsize, hsize', hidle, hpending, htaken, hcompiles, hlater, hlost, hbusy⟩ := hseen
  have hreach : (delayed.asked? 0 (Act.openUnit readingAnswer (delayed.engine 0).root) 5).any fun r =>
      r.1.touching? r.2 = some ⟨0, 0⟩ := by decide +kernel
  obtain ⟨⟨m, c⟩, hreach, htouch⟩ := (Option.any_eq_true ..).mp hreach
  have hunit : Request .any delayed 0 (Act.openUnit readingAnswer (delayed.engine 0).root) {} :=
    .unit trivial
  obtain ⟨hheeds, -⟩ := suspensions_heeded (H := .any) live_delayed hsize
  have hparked : Live .any parkedDelayed := live_delayed.evaluate hsize hunit hreply
  obtain ⟨-, -, -, hawaits, hrefuses⟩ := suspensions_heeded hparked hsize'
  obtain ⟨f, hf, hp⟩ := Option.map_eq_some_iff.mp hpending
  rw [hf] at htaken
  have hwaits : parkedDelayed.Awaits 0 f := by
    obtain ⟨g, hg, hwaits⟩ := hawaits.mp (((hparked.guarded 0).busy).trans (by rw [hf]; rfl))
    cases hf.symm.trans hg
    exact hwaits
  obtain ⟨hrefused, hunnoticed⟩ := hrefuses (hawaits.mpr ⟨f, hf, hwaits⟩)
  rcases hrefused.run "1" with ⟨e, herror, -⟩ | ⟨units, cache, hrun⟩
  · rw [herror] at hcompiles
    cases hcompiles
  · obtain ⟨hplay, -⟩ := hunnoticed units cache [.poll 0, later, .poll 0]
      (by simp [Turn.AddsUnit, later])
    exact ⟨⟨m, c, .of_asked hidle hunit hreach, hheeds m c (.of_asked hidle hunit hreach),
      of_decide_eq_true htouch⟩, ⟨f, hf, hwaits, hp, htaken⟩,
      ⟨units, cache, hrun, (congrArg (tells true) hplay).trans hlater⟩, hlost, hbusy⟩

end Session

end Fermata
