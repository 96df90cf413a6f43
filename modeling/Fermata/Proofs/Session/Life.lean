import Fermata.Proofs.Machine.Running

/-!
# What an evaluation leaves of a session

An evaluation of one engine takes over the heap and the engine, and leaves the stations of the other
engines as they are. It ends with the engine at rest (`Session.leaving`) or parked
(`Session.parkedAt`).
-/

namespace Fermata

namespace Core

/-- The core after the end of an evaluation. -/
def ended (c : Core) (held : List Cell) : Core :=
  ⟨(c.heap.prune c.engine.links held).2,
    { c.engine with links := (c.heap.prune c.engine.links held).1, watch := .disarmed }⟩

theorem finish_eq (c : Core) (outcome : Outcome) (roots : List Cell) :
    c.finish outcome roots =
      let c' := c.ended (Cell.ofValues (heldByOutcome outcome) ++ roots)
      (report c'.heap outcome, c') := rfl

/-- Nothing changes where nothing can be taken along. -/
theorem taken_eq_self {c : Core} {p : PendingId} (hp : ∀ s, c.heap.pendings.get p ≠ .scheduled s) :
    c.taken p = c := by
  have hsame := c.heap.pendings.modify_eq_self p (f := Pending.spent) fun x hx => by
    rw [Store.get, hx] at hp
    cases x with
    | scheduled s => exact absurd rfl (hp s)
    | _ => rfl
  exact congrArg (fun pendings => ({ c with heap := { c.heap with pendings } } : Core)) hsame

end Core

/-- Nothing is taken along from a value that does not settle by itself. -/
theorem Heap.take_fst_eq_none {h : Heap} {p : PendingId} (hp : ∀ s, h.pendings.get p ≠ .scheduled s) :
    (h.take p).1 = none := by
  unfold Heap.take
  cases hq : h.pendings.get p with
  | scheduled s => exact absurd hq (hp s)
  | unsettled | settled => rfl


namespace Station

/-- The station while a machine is parked above the activations that are there. -/
def parking (t : Station) (m : Machine) (p : PendingId) (taken : Option Settlement) (loan : Loan) :
    Station :=
  { t with
    busy := true
    stack := m.frames ++ t.base
    flight := some ⟨m, p, taken, loan, t.base.length⟩ }

variable (t : Station) (m n : Machine) (p q : PendingId) (x y : Option Settlement) (loan loan' : Loan)

/-- What is parked is cut back to what was there before. -/
theorem base_parking : (t.parking m p x loan).base = t.base := by
  simp only [parking, base, List.length_append, Nat.add_sub_cancel, List.drop_left']

theorem left_parking : (t.parking m p x loan).left = t.left := by
  unfold left
  rw [base_parking]
  rfl

theorem parking_parking :
    (t.parking m p x loan).parking n q y loan' = t.parking n q y loan' := by
  rw [parking, base_parking]
  rfl

end Station

namespace Session

/-- The session with engine `i` at a core, and with something else changed at its station. -/
def seat (s : Session) (i : Nat) (c : Core) (g : Station → Station) : Session :=
  { s with heap := c.heap }.modifyStation i fun t => { g t with engine := c.engine }

/-- The session while engine `i` waits. -/
def parkedAt (s : Session) (i : Nat) (c : Core) (m : Machine) (p : PendingId) (loan : Loan) : Session :=
  s.seat i (c.taken p) (·.parking m p (c.heap.take p).1 loan)

/-- The session after an evaluation of engine `i`. -/
def leaving (s : Session) (i : Nat) (c : Core) : Session := s.seat i c Station.left

variable {s : Session} {i : Nat} {c : Core} {f : Flight} {m : Machine} {p : PendingId} {loan : Loan}

theorem station_modifyStation (hi : i < s.stations.size) (g : Station → Station) :
    (s.modifyStation i g).station i = g (s.station i) := by
  simp only [station, modifyStation, Array.getElem?_modify, if_true,
    Array.getElem?_eq_getElem hi, Option.map_some, Option.getD_some]

theorem station_modifyStation_ne {j : Nat} (hj : i ≠ j) (g : Station → Station) :
    (s.modifyStation i g).station j = s.station j := by
  simp only [station, modifyStation, Array.getElem?_modify, if_neg hj]

theorem station_modifyStation_cases (s : Session) (i j : Nat) (g : Station → Station) :
    (s.modifyStation i g).station j = s.station j ∨
      (s.modifyStation i g).station j = g (s.station j) := by
  by_cases hij : i = j
  · subst hij
    by_cases hi : i < s.stations.size
    · exact .inr (station_modifyStation hi g)
    · have hnone : s.stations[i]? = none := Array.getElem?_eq_none (Nat.le_of_not_lt hi)
      left
      simp only [station, modifyStation, Array.getElem?_modify, if_true, hnone, Option.map_none]
  · exact .inl (station_modifyStation_ne hij g)

theorem size_modifyStation (s : Session) (i : Nat) (g : Station → Station) :
    (s.modifyStation i g).stations.size = s.stations.size :=
  Array.size_modify

theorem station_seat (hi : i < s.stations.size) (c : Core) (g : Station → Station) :
    (s.seat i c g).station i = { g (s.station i) with engine := c.engine } :=
  station_modifyStation (s := { s with heap := c.heap }) hi _

theorem station_seat_ne {j : Nat} (hj : j ≠ i) (c : Core) (g : Station → Station) :
    (s.seat i c g).station j = s.station j :=
  station_modifyStation_ne (s := { s with heap := c.heap }) (Ne.symm hj) _

theorem engine_seat (hi : i < s.stations.size) (c : Core) (g : Station → Station) :
    (s.seat i c g).engine i = c.engine :=
  congrArg Station.engine (station_seat hi c g)

theorem core_seat (hi : i < s.stations.size) (c : Core) (g : Station → Station) :
    (s.seat i c g).core i = c :=
  congrArg (Core.mk c.heap) (engine_seat hi c g)

theorem station_parkedAt (hi : i < s.stations.size) :
    (s.parkedAt i c m p loan).station i =
      { (s.station i).parking m p (c.heap.take p).1 loan with engine := c.engine } :=
  station_seat hi (c.taken p) _

theorem core_parkedAt (hi : i < s.stations.size) : (s.parkedAt i c m p loan).core i = c.taken p :=
  core_seat hi (c.taken p) _

theorem engine_leaving (hi : i < s.stations.size) (c : Core) :
    (s.leaving i c).engine i = c.engine :=
  engine_seat hi c _

theorem modifyStation_modifyStation (s : Session) (i : Nat) (f g : Station → Station) :
    (s.modifyStation i f).modifyStation i g = s.modifyStation i fun t => g (f t) := by
  have hstations : (s.stations.modify i f).modify i g = s.stations.modify i fun t => g (f t) := by
    refine Array.ext_getElem? fun j => ?_
    simp only [Array.getElem?_modify]
    by_cases hj : i = j
    · cases s.stations[j]? <;> simp [hj]
    · simp [hj]
  simp only [modifyStation, hstations]

/-- Two changes that do the same to a station. -/
theorem modifyStation_congr {f g : Station → Station} (h : f (s.station i) = g (s.station i)) :
    s.modifyStation i f = s.modifyStation i g := by
  have hstations : s.stations.modify i f = s.stations.modify i g := by
    refine Array.ext_getElem? fun k => ?_
    simp only [Array.getElem?_modify]
    by_cases hik : i = k
    · subst hik
      cases ht : s.stations[i]? with
      | none => rfl
      | some t =>
        have hst : s.station i = t := by simp [station, ht]
        simpa [hst] using h
    · simp [hik]
  simp only [modifyStation, hstations]

theorem seat_seat (s : Session) (i : Nat) (c d : Core) {f g h : Station → Station}
    (hgf : ∀ t, { g { f t with engine := c.engine } with engine := d.engine } =
      { h t with engine := d.engine }) :
    (s.seat i c f).seat i d g = s.seat i d h := by
  have heq := modifyStation_modifyStation { s with heap := d.heap } i
    (fun t => { f t with engine := c.engine }) (fun t => { g t with engine := d.engine })
  rw [funext hgf] at heq
  exact heq

theorem seat_parking (s : Session) (i : Nat) (c d : Core) (m n : Machine) (p q : PendingId)
    (x y : Option Settlement) (loan loan' : Loan) :
    (s.seat i c (·.parking m p x loan)).seat i d (·.parking n q y loan') =
      s.seat i d (·.parking n q y loan') := by
  refine seat_seat s i c d fun t => ?_
  change { (t.parking m p x loan).parking n q y loan' with engine := d.engine } = _
  rw [Station.parking_parking]

theorem seat_leaving (s : Session) (i : Nat) (c d : Core) (m : Machine) (p : PendingId)
    (x : Option Settlement) (loan : Loan) :
    (s.seat i c (·.parking m p x loan)).leaving i d = s.leaving i d := by
  refine seat_seat s i c d fun t => ?_
  change { (t.parking m p x loan).left with engine := d.engine } = _
  rw [Station.left_parking]

theorem settleStop_done (s : Session) (i : Nat) (loan : Loan) (outcome : Outcome) (c : Core) :
    s.settleStop i loan (.done outcome) c =
      (.finished (c.finish outcome (loan.lent ++ s.roots i)).1,
        s.leaving i (c.finish outcome (loan.lent ++ s.roots i)).2) := rfl

theorem settleStop_parked (s : Session) (i : Nat) (loan : Loan) (m : Machine) (p : PendingId)
    (c : Core) :
    s.settleStop i loan (.parked m p) c =
      (.suspended (c.engine.lastSuspension.getD ⟨p, []⟩) c.engine.suspensionCount,
        s.parkedAt i c m p loan) := rfl

theorem settleStop_outOfFuel (s : Session) (i : Nat) (loan : Loan) (m : Machine) (c : Core) :
    s.settleStop i loan (.outOfFuel m) c = (.outOfFuel, s.seat i c id) := rfl

/-! ### Arrivals -/

/-- What was taken along settles the value that is waited for, or nothing happens. -/
theorem arrive_cases (s : Session) (i : Nat) :
    s.arrive i = s ∨ ∃ f settlement, (s.station i).flight = some f ∧ f.taken = some settlement ∧
      s.heap.process.ripe f.pending = true ∧ s.arrive i = (s.settle f.pending settlement).2 := by
  unfold arrive
  split
  · exact .inl rfl
  next f hf =>
    split
    · exact .inl rfl
    next settlement htaken =>
      split
      next hripe => exact .inr ⟨f, settlement, hf, htaken, hripe, rfl⟩
      next => exact .inl rfl

/-- What was taken along is no matter where the value is settled. -/
theorem arrive_of_settlement {τ : Settlement} (hf : (s.station i).flight = some f)
    (hs : (s.heap.pendings.get f.pending).settlement? = some τ) : s.arrive i = s := by
  rcases s.arrive_cases i with heq | ⟨g, τ', hg, -, -, heq⟩
  · exact heq
  · obtain rfl : f = g := Option.some.inj (hf.symm.trans hg)
    have hsame := s.heap.pendings.modify_eq_self f.pending (f := (·.settle τ')) fun x hx => by
      rw [Store.get, hx, Option.getD_some] at hs
      cases x with
      | settled => rfl
      | unsettled | scheduled => cases hs
    rw [heq]
    exact congrArg (fun pendings => ({ s with heap := { s.heap with pendings } } : Session)) hsame

@[simp]
theorem stations_arrive (s : Session) (i : Nat) : (s.arrive i).stations = s.stations := by
  rcases s.arrive_cases i with heq | ⟨f, τ, -, -, -, heq⟩ <;> rw [heq]
  rfl

@[simp]
theorem station_arrive (s : Session) (i j : Nat) : (s.arrive i).station j = s.station j := by
  unfold station
  rw [stations_arrive]

@[simp]
theorem engine_arrive (s : Session) (i j : Nat) : (s.arrive i).engine j = s.engine j :=
  congrArg Station.engine (s.station_arrive i j)

@[simp]
theorem fuel_arrive (s : Session) (i : Nat) : (s.arrive i).fuel = s.fuel := by
  rcases s.arrive_cases i with heq | ⟨f, τ, -, -, -, heq⟩ <;> rw [heq]
  rfl

@[simp]
theorem roots_arrive (s : Session) (i j : Nat) : (s.arrive i).roots j = s.roots j := by
  rcases s.arrive_cases i with heq | ⟨f, τ, -, -, -, heq⟩ <;> rw [heq]
  rfl

/-- A poll goes on with the settlement that the evaluation waits for. -/
theorem goOn_flight {τ : Settlement} (hf : (s.station i).flight = some f)
    (hs : (s.heap.pendings.get f.pending).settlement? = some τ)
    (hm : f.machine.control = .waiting p) :
    s.goOn i =
      let r := (s.armed i).drive s.fuel { f.machine with control := τ.control }
      (some (s.settleStop i f.loan r.1 r.2).1, (s.settleStop i f.loan r.1 r.2).2) := by
  simp only [goOn, hf, hs, Machine.resume_waiting hm]

/-- What becomes of an engine that goes on: nothing is parked there, or the value is not settled yet, or
the machine goes on with its settlement. -/
inductive GoesOn (s : Session) (i : Nat) : Option Answer × Session → Prop
  | idle : (s.station i).flight = none → GoesOn s i (none, s)
  | waits {f : Flight} (q n) : (s.station i).flight = some f →
      (s.heap.pendings.get f.pending).settlement? = none → GoesOn s i (some (.suspended q n), s)
  | resumes {f : Flight} {τ r} : (s.station i).flight = some f →
      (s.heap.pendings.get f.pending).settlement? = some τ →
      r = (s.armed i).drive s.fuel { f.machine with control := τ.control } →
      GoesOn s i (some (s.settleStop i f.loan r.1 r.2).1, (s.settleStop i f.loan r.1 r.2).2)

/-- Where what is parked waits, there is no other way to go on. -/
theorem goesOn (hwaits : ∀ f, (s.station i).flight = some f → ∃ p, f.machine.control = .waiting p) :
    s.GoesOn i (s.goOn i) := by
  cases hf : (s.station i).flight with
  | none =>
    rw [goOn, hf]
    exact .idle hf
  | some f =>
    cases hset : (s.heap.pendings.get f.pending).settlement? with
    | none =>
      simp only [goOn, hf, hset]
      exact .waits _ _ hf hset
    | some τ =>
      obtain ⟨p, hm⟩ := hwaits f hf
      rw [goOn_flight hf hset hm]
      exact .resumes hf hset rfl

theorem poll_flight {τ : Settlement} (hf : (s.station i).flight = some f)
    (hs : (s.heap.pendings.get f.pending).settlement? = some τ)
    (hm : f.machine.control = .waiting p) :
    s.poll i =
      let r := (s.armed i).drive s.fuel { f.machine with control := τ.control }
      (some (s.settleStop i f.loan r.1 r.2).1, (s.settleStop i f.loan r.1 r.2).2) := by
  rw [poll, arrive_of_settlement hf hs, goOn_flight hf hs hm]

/-- A dropped evaluation leaves the station. -/
theorem abandon_cases (s : Session) (i : Nat) :
    (s.abandon i).2 = s ∧ (s.station i).flight = none ∨
      ∃ f, (s.station i).flight = some f ∧ (s.abandon i).2 = s.modifyStation i Station.left := by
  unfold abandon
  split
  next hf => exact .inl ⟨rfl, hf⟩
  next f hf => exact .inr ⟨f, hf, rfl⟩

/-- What stations hold does not change with a station that holds the same. -/
theorem flatMap_modify {α : Type} (F : Station × Nat → List α) (g : Station → Station)
    (hF : F (g (s.station i), i) = F (s.station i, i)) :
    (s.stations.modify i g).toList.zipIdx.flatMap F = s.stations.toList.zipIdx.flatMap F := by
  rw [List.flatMap_def, List.flatMap_def]
  congr 1
  refine List.ext_getElem? fun j => ?_
  simp only [List.getElem?_map, List.getElem?_zipIdx, Array.getElem?_toList, Array.getElem?_modify]
  by_cases hj : i = j
  · subst hj
    cases ht : s.stations[i]? with
    | none => simp
    | some t =>
      have hst : s.station i = t := by simp [station, ht]
      simpa [hst] using hF
  · simp [hj]

/-- The roots do not see what becomes of the evaluation of engine `i`. -/
theorem roots_modifyStation (heap : Heap) (g : Station → Station)
    (hown : (g (s.station i)).own = (s.station i).own) :
    ({ s with heap }.modifyStation i g).roots i = s.roots i := by
  have howns : (s.stations.modify i g).toList.flatMap Station.own =
      s.stations.toList.flatMap Station.own := by
    have hzip : ∀ l : List Station, l.flatMap Station.own = l.zipIdx.flatMap (·.1.own) := by
      intro l
      calc l.flatMap Station.own = (l.zipIdx.map Prod.fst).flatMap Station.own := by
            rw [List.zipIdx_map_fst]
        _ = l.zipIdx.flatMap (·.1.own) := List.flatMap_map ..
    rw [hzip, hzip]
    exact flatMap_modify (·.1.own) g hown
  have hforeign : ({ s with heap }.modifyStation i g).foreignRoots i = s.foreignRoots i :=
    flatMap_modify _ g (by simp)
  simp only [roots, hforeign]
  exact congrArg (_ ++ · ++ _) howns

theorem roots_seat {c : Core} {g : Station → Station} (hown : c.engine.own = (s.engine i).own) :
    (s.seat i c g).roots i = s.roots i :=
  roots_modifyStation _ _ hown

theorem roots_leaving {c : Core} (hown : c.engine.own = (s.engine i).own) :
    (s.leaving i c).roots i = s.roots i :=
  roots_modifyStation _ _ hown

/-- A host's link is an association in one engine. -/
theorem core_link (s : Session) (scope : ScopeId) (id : ClosureId) (i : Nat) :
    (s.link scope id).2.core i = s.core i ∨ i = scope.region - 1 ∧ (s.link scope id).2.core i =
      { s.core i with engine := { s.engine i with
          links := ((s.engine i).links.associate (s.heap.closures.get id).serial
            ⟨id, scope, (s.heap.closures.get id).node.id⟩).2 } } := by
  unfold link
  dsimp only
  by_cases hi : scope.region - 1 = i
  · subst hi
    rcases s.station_modifyStation_cases (scope.region - 1) (scope.region - 1) _ with heq | heq
    · exact .inl (congrArg (fun t => Core.mk s.heap (Station.engine t)) heq)
    · exact .inr ⟨rfl, congrArg (fun t => Core.mk s.heap (Station.engine t)) heq⟩
  · exact .inl (congrArg (fun t => Core.mk s.heap (Station.engine t)) (station_modifyStation_ne hi _))

end Session

/-!
## The life of a session

A host sets engines up, edits the heap from outside, and lets engines evaluate. `Session.Live` are
the sessions it can get to, `Session.Running` the states of a machine in the middle of an evaluation.
An evaluation that uses up its fuel has not answered, so it leads nowhere.

* `Session.Edit`: what a host does by itself.
* `Session.Request`: what it asks an engine to evaluate.
* `Session.Live`, `Session.Running`: what can come of it, in any order.
-/

/-- What a host permits itself: the units that it runs and the functions that it links. -/
structure Host where
  units : CodeUnit → Prop
  links : Session → ScopeId → ClosureId → Prop

/-- The host that runs and links whatever there is. -/
def Host.any : Host := ⟨fun _ => True, fun _ _ _ => True⟩

namespace Session

variable (H : Host)

/-- Changes that evaluate nothing. -/
inductive Edit : Session → Session → Prop
  | pending (s name kind) : Edit s (s.addPending name kind)
  | engine (s name settings host defines) : Edit s (s.addEngine name settings host defines)
  | settle (s p settlement) : Edit s (s.settle p settlement).2
  | abandon (s i) : Edit s (s.abandon i).2
  | keep (s name v) : Edit s (s.keep name v)
  | forget (s name) : Edit s (s.forget name).2
  | hold (s scope) : Edit s (s.hold scope)
  | release (s scope) : Edit s (s.release scope).2
  /-- The process went on elsewhere. -/
  | elsewhere (s process) : Edit s (s.elsewhere process)
  | console (s i) : Edit s (s.takeConsole i).2
  | compile {s i source id t} : s.compile i source = .ok (id, t) → Edit s t
  | compileIn {s source outer id t} : s.compileIn source outer = .ok (id, t) → Edit s t
  /-- The host writes to objects or makes some. -/
  | objects (s S) : Edit s { s with heap := { s.heap with objects := S } }
  /-- The host writes to a binding of a scope. -/
  | binding (s scope name v) : Edit s { s with heap := s.heap.setLocal scope name v }
  | child (s parent owner bindings this) :
      Edit s { s with heap := (s.heap.newChild parent owner bindings this).2 }
  | link {s scope id} : H.links s scope id → Edit s (s.link scope id).2

/-- What a host asks engine `i` to evaluate, and what it passes. -/
inductive Request (s : Session) (i : Nat) : Act Move → Loan → Prop
  | unit {u} : H.units u → Request s i (Act.openUnit u (s.engine i).root) {}
  | code {scope source u} : scope.region = (s.engine i).region →
      CodeUnit.compile source (s.heap.visibleNames scope) = .ok u →
      Request s i (Act.callUnit 0 u scope) { lent := [.scope scope] }
  | call (fn this args kept) :
      Request s i (Act.callValue 0 (s.engine i).root fn this args) (.ofCall fn this args kept)

/-- One thing that a host does. -/
inductive Step : Session → Session → Prop
  | edit {s t} : Edit H s t → Step s t
  | evaluate {s i act loan answer t} : i < s.stations.size → Request H s i act loan →
      s.evaluate i act loan = (answer, t) → answer ≠ .outOfFuel → Step s t
  | poll {s i answer t} : i < s.stations.size → s.poll i = (answer, t) →
      answer ≠ some .outOfFuel → Step s t

/-- The sessions that a host can get to. -/
inductive Live : Session → Prop
  | empty (fuel) : Live { fuel }
  | step {s t} : Live s → Step H s t → Live t

/-- The machines that engine `i` runs in the course of an evaluation that begins, or goes on, in this
session, each with its core. -/
inductive Running (s : Session) (i : Nat) : Machine → Core → Prop
  | start {act loan} : (s.station i).isBusy = false → Request H s i act loan →
      Running s i (Machine.start act (s.armed i)).1 (Machine.start act (s.armed i)).2
  | resume {f settlement m} : (s.station i).flight = some f →
      ((s.arrive i).heap.pendings.get f.pending).settlement? = some settlement →
      f.machine.resume settlement = .ok m → Running s i m ((s.arrive i).armed i)
  | step {m c m' c'} : Running s i m c → m.step c = (.running m', c') → Running s i m' c'
  /-- A value that is ready to settle by itself was met. -/
  | settle {m c m' p c' settlement m''} : Running s i m c → m.step c = (.parked m' p, c') →
      c'.heap.pendings.get p = .scheduled settlement → c'.heap.process.ripe p = true →
      m'.resume settlement = .ok m'' →
      Running s i m'' (((c'.record (c'.suspension m' p)).settle p settlement).watching .armed)

/-! ### Units -/

/-- Compiling for an engine finds a unit or adds one. -/
theorem compile_cases {s t : Session} {i id : Nat} {source : String}
    (h : s.compile i source = .ok (id, t)) :
    t = s ∨ ∃ (u : CodeUnit) (units : Station → List (String × Nat)),
      t = (s.addUnit u).2.modifyStation i fun st => { st with units := units st } := by
  unfold compile at h
  dsimp only at h
  cases hlookup : (s.station i).units.lookup (Digest.ofText source) with
  | some id =>
    rw [hlookup] at h
    cases h
    exact .inl rfl
  | none =>
    rw [hlookup] at h
    cases hc : CodeUnit.compile source [] with
    | error e =>
      rw [hc] at h
      cases h
    | ok u =>
      rw [hc] at h
      cases h
      exact .inr ⟨u, _, rfl⟩

theorem compileIn_cases {s t : Session} {id : Nat} {source : String} {outer : List String}
    (h : s.compileIn source outer = .ok (id, t)) : ∃ u, t = (s.addUnit u).2 := by
  unfold compileIn at h
  cases hc : CodeUnit.compile source outer with
  | error e =>
    rw [hc] at h
    cases h
  | ok u =>
    rw [hc] at h
    cases h
    exact ⟨u, rfl⟩

/-! ### The number of engines -/

variable {H} {s t : Session}

theorem size_settleStop (s : Session) (i : Nat) (loan : Loan) (stop : Core.Stop) (c : Core) :
    (s.settleStop i loan stop c).2.stations.size = s.stations.size := by
  cases stop <;> exact size_modifyStation ..

theorem size_evaluate (s : Session) (i : Nat) (act : Act Move) (loan : Loan) :
    (s.evaluate i act loan).2.stations.size = s.stations.size := by
  unfold evaluate
  split
  · rfl
  · exact size_settleStop ..

theorem size_poll (s : Session) (i : Nat) : (s.poll i).2.stations.size = s.stations.size := by
  have hsize := congrArg Array.size (s.stations_arrive i)
  unfold poll goOn
  split
  · exact hsize
  · dsimp only
    split
    · exact hsize
    · exact (size_settleStop ..).trans hsize

theorem size_abandon (s : Session) (i : Nat) : (s.abandon i).2.stations.size = s.stations.size := by
  rcases s.abandon_cases i with ⟨heq, -⟩ | ⟨f, -, heq⟩ <;> rw [heq]
  exact size_modifyStation ..

theorem size_edit (h : Edit H s t) : s.stations.size ≤ t.stations.size := by
  cases h with
  | engine name settings host defines =>
    simp only [addEngine, Array.size_push]
    exact Nat.le_succ _
  | abandon => exact Nat.le_of_eq (size_abandon ..).symm
  | console | link => exact Nat.le_of_eq (size_modifyStation ..).symm
  | compile hu =>
    rcases compile_cases hu with rfl | ⟨u, units, rfl⟩
    · exact Nat.le_refl _
    · exact Nat.le_of_eq (size_modifyStation ..).symm
  | compileIn hu =>
    obtain ⟨u, rfl⟩ := compileIn_cases hu
    exact Nat.le_refl _
  | _ => exact Nat.le_refl _

/-- Sessions only ever get more engines. -/
theorem size_step (h : Step H s t) : s.stations.size ≤ t.stations.size := by
  cases h with
  | edit hedit => exact size_edit hedit
  | evaluate hi hact heq hanswer =>
    have ht := congrArg (·.2.stations.size) heq
    exact Nat.le_of_eq ((size_evaluate ..).symm.trans ht)
  | poll hi heq hanswer =>
    have ht := congrArg (·.2.stations.size) heq
    exact Nat.le_of_eq ((size_poll ..).symm.trans ht)

end Session

/-!
## The guards of an evaluation

An evaluation marks its engine busy and puts its activations on the call stack; when it ends, or is
dropped, its guards undo both. So between evaluations an engine is idle, with an empty call stack.

* `Station.Guarded`: what the guards have to undo is what the parked evaluation did.
* `Session.Live.guarded`: that is so in every session that a host can get to.
-/

/-- The live frames of the parked evaluation. -/
def Station.frames (t : Station) : List Frame :=
  match t.flight with
  | some f => f.machine.frames
  | none => []

/-- The engine is busy exactly while an evaluation is parked, and all activations are those of that
evaluation. -/
structure Station.Guarded (t : Station) : Prop where
  busy : t.busy = t.flight.isSome
  stack : t.stack = t.frames
  depth : ∀ f, t.flight = some f → f.depth = 0

namespace Station.Guarded

variable {t u : Station}

/-- Dropping the parked evaluation takes all activations off the stack. -/
theorem base_eq_nil (h : t.Guarded) : t.base = [] := by
  unfold base
  split
  next f hf =>
    rw [h.depth f hf, Nat.sub_zero]
    exact List.drop_length
  next hf => rw [h.stack, frames, hf]

theorem left (h : t.Guarded) : t.left.Guarded := ⟨rfl, h.base_eq_nil, fun f hf => by cases hf⟩

theorem parking (h : t.Guarded) (m : Machine) (p : PendingId) (x : Option Settlement) (loan : Loan) :
    (t.parking m p x loan).Guarded := by
  refine ⟨rfl, ?_, fun f hf => ?_⟩
  · change m.frames ++ t.base = m.frames
    rw [h.base_eq_nil, List.append_nil]
  · cases hf
    exact congrArg List.length h.base_eq_nil

/-- A change that is no matter of the guards. -/
theorem of_eq (h : t.Guarded) (hbusy : u.busy = t.busy) (hstack : u.stack = t.stack)
    (hflight : u.flight = t.flight) : u.Guarded := by
  refine ⟨by rw [hbusy, hflight, h.busy], ?_, fun f hf => h.depth f (hflight ▸ hf)⟩
  rw [hstack, h.stack, frames, frames, hflight]

end Station.Guarded

namespace Session

variable {H : Host} {s t : Session} {i j : Nat}

theorem guarded_modifyStation {g : Station → Station} (hs : (s.station i).Guarded)
    (hg : (s.station i).Guarded → (g (s.station i)).Guarded) :
    ((s.modifyStation j g).station i).Guarded := by
  rcases s.station_modifyStation_cases j i g with heq | heq <;> rw [heq]
  · exact hs
  · exact hg hs

theorem guarded_edit (hs : (s.station i).Guarded) (h : Edit H s t) : (t.station i).Guarded := by
  cases h with
  | engine name settings host defines =>
    by_cases hi : i = s.stations.size
    · subst hi
      simp only [addEngine, station, Array.getElem?_push, if_true, Option.getD_some]
      exact ⟨rfl, rfl, fun f hf => by cases hf⟩
    · simpa [addEngine, station, Array.getElem?_push, hi] using hs
  | abandon j =>
    rcases s.abandon_cases j with ⟨heq, -⟩ | ⟨f, -, heq⟩ <;> rw [heq]
    · exact hs
    · exact guarded_modifyStation hs .left
  | console j => exact guarded_modifyStation hs fun h => h.of_eq rfl rfl rfl
  | link _ => exact guarded_modifyStation hs fun h => h.of_eq rfl rfl rfl
  | compile hu =>
    rcases compile_cases hu with rfl | ⟨u, units, rfl⟩
    · exact hs
    · exact guarded_modifyStation (s := (s.addUnit u).2) hs fun h => h.of_eq rfl rfl rfl
  | compileIn hu =>
    obtain ⟨u, rfl⟩ := compileIn_cases hu
    exact hs
  | _ => exact hs

theorem guarded_settleStop (hs : (s.station i).Guarded) (loan : Loan) (stop : Core.Stop) (c : Core) :
    ((s.settleStop j loan stop c).2.station i).Guarded := by
  cases stop with
  | done outcome =>
    exact guarded_modifyStation (s := { s with heap := _ }) hs fun h => h.left.of_eq rfl rfl rfl
  | parked m p =>
    exact guarded_modifyStation (s := { s with heap := _ }) hs fun h =>
      (h.parking m p _ loan).of_eq rfl rfl rfl
  | outOfFuel m =>
    exact guarded_modifyStation (s := { s with heap := _ }) hs fun h => h.of_eq rfl rfl rfl

theorem guarded_evaluate (hs : (s.station i).Guarded) (act : Act Move) (loan : Loan) :
    ((s.evaluate j act loan).2.station i).Guarded := by
  unfold evaluate
  split
  · exact hs
  · exact guarded_settleStop hs ..

theorem guarded_poll (hs : (s.station i).Guarded) (j : Nat) : ((s.poll j).2.station i).Guarded := by
  have harrived : ((s.arrive j).station i).Guarded := by rwa [station_arrive]
  unfold poll goOn
  split
  · exact harrived
  · dsimp only
    split
    · exact harrived
    · exact guarded_settleStop harrived ..

/-- **The guards have undone everything** between evaluations, in every session that a host can get to. -/
theorem Live.guarded (hs : Live H s) (i : Nat) : (s.station i).Guarded := by
  induction hs with
  | empty fuel => exact ⟨rfl, rfl, fun f hf => by cases hf⟩
  | step _ hstep ih =>
    cases hstep with
    | edit hedit => exact guarded_edit ih hedit
    | @evaluate j act loan _ _ _ _ heq _ =>
      have hleft := guarded_evaluate (j := j) ih act loan
      rwa [heq] at hleft
    | @poll j _ _ _ heq _ =>
      have hleft := guarded_poll ih j
      rwa [heq] at hleft

/-- An evaluation begins, or goes on, with no activations below. -/
theorem Live.below_armed (hs : Live H s) (i : Nat) : (s.armed i).engine.below = [] := by
  change (s.station i).base.map Frame.position = []
  rw [(hs.guarded i).base_eq_nil]
  rfl

end Session

/-!
## Following an evaluation

The states of an evaluation of a given unit can be computed.

* `Machine.after?`: a machine after as many steps.
* `Session.asked?`, `Session.resumed?`: the states of an evaluation that starts, and that goes on.
* `CodeUnit.ofSource`: a unit to run.
* `Session.bare`, `Session.awaitingAnswer`: sessions to run it in.
* `Answer.tells`, `Answer.isReply`, `Answer.suspension?`: what comes of it.
-/

/-- The unit of a source that compiles. -/
def CodeUnit.ofSource (source : String) : CodeUnit :=
  (CodeUnit.compile source []).toOption.getD default

theorem CodeUnit.compile_ofSource {source : String}
    (h : (CodeUnit.compile source []).toOption.isSome = true) :
    CodeUnit.compile source [] = .ok (.ofSource source) := by
  unfold CodeUnit.ofSource
  cases hc : CodeUnit.compile source [] with
  | error e =>
    rw [hc] at h
    cases h
  | ok u => rfl

/-- The evaluation came to this truth value. -/
def Answer.tells (b : Bool) : Answer → Bool
  | .finished (.ok (.bool c)) => b == c
  | _ => false

theorem Answer.eq_of_tells {b : Bool} {answer : Answer} (h : answer.tells b = true) :
    answer = .finished (.ok (.bool b)) := by
  unfold Answer.tells at h
  split at h
  · rw [eq_of_beq h]
  · cases h

theorem Answer.run_of_tells {b : Bool} {r : Answer × Session} {t : Session}
    (h : r.1.tells b = true) (ht : r.2 = t) : r = (.finished (.ok (.bool b)), t) :=
  Prod.ext (eq_of_tells h) ht

/-- The evaluation answered. -/
def Answer.isReply : Answer → Bool
  | .outOfFuel => false
  | _ => true

theorem Answer.isReply_of_tells {b : Bool} {answer : Answer} (h : answer.tells b = true) :
    answer.isReply = true := by
  rw [eq_of_tells h]
  rfl

/-- The suspension that the host is told of. -/
def Answer.suspension? : Answer → Option Suspension
  | .suspended suspension _ => some suspension
  | _ => none

theorem Answer.eq_of_suspension? {answer : Answer} {q : Suspension}
    (h : answer.suspension? = some q) : ∃ n, answer = .suspended q n := by
  cases answer with
  | suspended q' n =>
    cases h
    exact ⟨n, rfl⟩
  | finished | outOfFuel => cases h

/-- The machine after as many steps, with its core, unless it stops before. -/
def Machine.after? : Nat → Machine → Core → Option (Machine × Core)
  | 0, m, c => some (m, c)
  | n + 1, m, c =>
    match m.step c with
    | (.running m, c) => after? n m c
    | _ => none

namespace Session

/-- The state of an evaluation that engine `i` is asked for, after as many steps. -/
def asked? (s : Session) (i : Nat) (act : Act Move) (n : Nat) : Option (Machine × Core) :=
  let start := Machine.start act (s.armed i)
  start.1.after? n start.2

/-- The state of the parked evaluation that goes on, after as many steps. -/
def resumed? (s : Session) (i n : Nat) : Option (Machine × Core) := do
  let f ← (s.station i).flight
  let settlement ← ((s.arrive i).heap.pendings.get f.pending).settlement?
  let m ← (f.machine.resume settlement).toOption
  m.after? n ((s.arrive i).armed i)

variable {H : Host} {s : Session} {i n : Nat} {m m' : Machine} {c c' : Core}

theorem Live.evaluate {act : Act Move} {loan : Loan} (hs : Live H s) (hi : i < s.stations.size)
    (hact : Request H s i act loan) (h : (s.evaluate i act loan).1.isReply = true) :
    Live H (s.evaluate i act loan).2 := by
  have heq : s.evaluate i act loan = ((s.evaluate i act loan).1, (s.evaluate i act loan).2) := rfl
  refine hs.step (.evaluate hi hact heq fun hanswer => ?_)
  rw [hanswer] at h
  cases h

theorem Live.poll (hs : Live H s) (hi : i < s.stations.size)
    (h : (s.poll i).1.all Answer.isReply = true) : Live H (s.poll i).2 := by
  have heq : s.poll i = ((s.poll i).1, (s.poll i).2) := rfl
  refine hs.step (.poll hi heq fun hanswer => ?_)
  rw [hanswer] at h
  cases h

theorem Running.after (h : Running H s i m c) (hafter : m.after? n c = some (m', c')) :
    Running H s i m' c' := by
  induction n generalizing m c with
  | zero =>
    cases hafter
    exact h
  | succ n ih =>
    unfold Machine.after? at hafter
    split at hafter
    next hstep => exact ih (.step h hstep) hafter
    next => cases hafter

theorem Running.of_asked {act : Act Move} {loan : Loan} (hidle : (s.station i).isBusy = false)
    (hact : Request H s i act loan) (h : s.asked? i act n = some (m, c)) : Running H s i m c :=
  (Running.start hidle hact).after h

theorem Running.of_resumed (h : s.resumed? i n = some (m, c)) : Running H s i m c := by
  obtain ⟨f, hf, h⟩ := Option.bind_eq_some_iff.mp h
  obtain ⟨settlement, hset, h⟩ := Option.bind_eq_some_iff.mp h
  obtain ⟨m₀, hm₀, h⟩ := Option.bind_eq_some_iff.mp h
  refine (Running.resume hf hset ?_).after h
  cases hres : f.machine.resume settlement with
  | error fault =>
    rw [hres] at hm₀
    cases hm₀
  | ok m₁ =>
    rw [hres] at hm₀
    cases hm₀
    rfl

/-- A session with an engine that has nothing but its root scope. -/
def bare : Session := addEngine { fuel := 100 } none { installStdlib := false } none []

theorem live_bare : Live H bare := .step (.empty 100) (.edit (.engine _ none _ none []))

/-- An engine whose global object has a value that nobody has settled yet. -/
def awaitingAnswer : Session :=
  (({} : Session).addPending "answer" .channel).addEngine none { installStdlib := false } none
    [("answer", .pending ⟨0, 0⟩)]

theorem live_awaitingAnswer : Live H awaitingAnswer :=
  .step (.step (.empty _) (.edit (.pending _ "answer" .channel))) (.edit (.engine _ none _ none _))

/-- A unit that reads the value. -/
def readingAnswer : CodeUnit :=
  { (default : CodeUnit) with
    program := ⟨[.expression {} (.member {} (.ident {} globalName) (.named "answer") true)], {}, 1⟩
    records := #[default] }

end Session

end Fermata
