import Fermata.Proofs.Session.Life
import Fermata.Proofs.Suspension.Lockstep

/-!
# A host that settles and polls

A host starts an evaluation and then settles values and polls, in any order, until the evaluation is
finished. What the evaluation does does not depend on when the values are settled: at every moment a
drive on a twin, for which all the values were settled from the start, stands at the same machine
(`Session.Attends`).

* `Session.attend`: a host that goes through a list of moves.
* `Session.attend_spec`: the drive on the twin keeps pace with the host.
-/

namespace Fermata

/-- What a host does while an evaluation is parked. -/
inductive HostMove where
  | settle (p : PendingId)
  | poll
deriving DecidableEq

namespace Session

/-! ## The host -/

/-- One move, unless the evaluation is over. -/
def attendOnce (σ : PendingId → Settlement) (i : Nat) (r : Answer × Session) (move : HostMove) :
    Answer × Session :=
  match r.1, move with
  | .suspended _ _, .settle p => (r.1, (r.2.settle p (σ p)).2)
  | .suspended _ _, .poll => ((r.2.poll i).1.getD r.1, (r.2.poll i).2)
  | _, _ => r

/-- Settle and poll as listed, until the evaluation is over. -/
def attend (σ : PendingId → Settlement) (i : Nat) (r : Answer × Session) (moves : List HostMove) :
    Answer × Session :=
  moves.foldl (attendOnce σ i) r

/-- Settle all of these values. -/
def settleAll (s : Session) (σ : PendingId → Settlement) (ps : List PendingId) : Session :=
  ps.foldl (fun s p => (s.settle p (σ p)).2) s

/-- The session with another bound on the steps between two stops. -/
def withFuel (s : Session) (n : Nat) : Session := { s with fuel := n }

variable {s : Session} {i : Nat} {c : Core} {g : Station → Station}

/-! ## Where the host stands -/

/-- The host stands where a drive of `m` on a twin `d` stands. A value that the evaluation waits for
is one of `ws`; those of `qs` are not settled yet. -/
inductive Attends (s : Session) (i : Nat) (ps : List PendingId) (σ : PendingId → Settlement)
    (m : Machine) (d : Core) (ws qs : List PendingId) : Answer × Session → Prop
  | finished {outcome c' d' rs k} : d.drive k m = (.done outcome, d') → Twin ps rs σ c' d' →
      c'.engine.footing = (s.armed i).engine.footing →
      Attends s i ps σ m d ws qs (.finished (c'.finish outcome (s.roots i)).1,
        s.leaving i (c'.finish outcome (s.roots i)).2)
  /-- The drive on the twin stands at the checkpoint of the value. -/
  | waits {suspension count m' p c' d' k} :
      (∀ j, d.drive (k + j) m = d'.drive j { m' with control := .checkpoint (.pending p) }) →
      m'.Parked .any p → p ∈ ws → Twin ps qs σ c' d' → d'.engine.watch = .armed →
      c'.engine.footing = (s.armed i).engine.footing →
      Attends s i ps σ m d ws qs
        (.suspended suspension count, s.seat i c' (·.parking m' p none {}))
  /-- Nobody settles the value, and what may have been taken along is not ready. -/
  | stuck {suspension count m' p c' d' x k} : d.drive k m = (.parked m' p, d') → p ∉ ps →
      (c'.heap.pendings.get p).settlement? = none →
      (x.isSome = true → c'.heap.process.ripe p = false) →
      Attends s i ps σ m d ws qs (.suspended suspension count, s.seat i c' (·.parking m' p x {}))
  | outOfFuel {t m' d' k} : s.fuel ≤ k → d.drive k m = (.outOfFuel m', d') →
      Attends s i ps σ m d ws qs (.outOfFuel, t)

section

variable {ps ws qs : List PendingId} {σ : PendingId → Settlement} {m : Machine} {d : Core}
variable {r : Answer × Session}

/-- A drive of the host that keeps pace leaves the host where the twin stands. -/
theorem attends_settleStop {t : Session} {m' : Machine} {d' : Core} {k : Nat} {stop : Core.Stop}
    (hpark : ∀ c m p x, t.seat i c (·.parking m p x {}) = s.seat i c (·.parking m p x {}))
    (hleave : ∀ c, t.leaving i c = s.leaving i c) (hroots : t.roots i = s.roots i)
    (hlead : ∀ j, d.drive (k + j) m = d'.drive j m')
    (hpace : Core.Pace ps qs σ (s.armed i).engine.footing s.fuel m' d' (stop, c)) :
    Attends s i ps σ m d qs qs (t.settleStop i {} stop c) := by
  cases hpace with
  | done hend htwin hft =>
    rw [settleStop_done, List.nil_append, hroots, hleave]
    exact .finished ((hlead s.fuel).trans hend) htwin hft
  | outOfFuel hend => exact .outOfFuel (Nat.le_add_left _ k) ((hlead s.fuel).trans hend)
  | @stuck m'' p _ d'' hend hp hs hripe =>
    rw [settleStop_parked, parkedAt, hpark]
    refine .stuck ((hlead s.fuel).trans hend) hp ?_ fun hx => ?_
    · change ((c.heap.pendings.modify p Pending.spent).get p).settlement? = none
      rw [Store.get, Store.get?_modify, if_pos rfl]
      rw [Store.get] at hs
      cases hq : c.heap.pendings.get? p with
      | none => rfl
      | some q =>
        rw [hq] at hs
        cases q with
        | settled τ => cases hs
        | unsettled | scheduled => rfl
    · obtain ⟨τ, hτ⟩ := Option.isSome_iff_exists.mp hx
      refine hripe τ ?_
      rw [Heap.take] at hτ
      cases hq : c.heap.pendings.get p with
      | scheduled τ' =>
        rw [hq] at hτ
        rw [show τ' = τ from Option.some.inj hτ]
      | unsettled | settled =>
        rw [hq] at hτ
        cases hτ
  | @waits m'' p _ d'' k' _ hrest hm hp htwin hw hft =>
    have hlead' : ∀ j, d.drive (k + k' + j) m =
        d''.drive j { m'' with control := .checkpoint (.pending p) } := fun j => by
      rw [Nat.add_assoc, hlead]
      exact hrest j
    -- the value is settled for the twin, so there is nothing to take along
    have hnone : ∀ τ, c.heap.pendings.get p ≠ .scheduled τ := by
      obtain ⟨P, w, n, l, rfl, ha⟩ := htwin
      exact ha.not_scheduled (ha.late p hp)
    rw [settleStop_parked, parkedAt, Core.taken_eq_self hnone, Heap.take_fst_eq_none hnone, hpark]
    exact .waits hlead' hm hp htwin hw hft

/-- Settling one of the values moves the host on. -/
theorem attends_settle (h : Attends s i ps σ m d ps qs r) {p : PendingId} (hp : p ∈ ps) :
    Attends s i ps σ m d ps (qs.filter (· ≠ p)) (attendOnce σ i r (.settle p)) := by
  cases h with
  | finished hend htwin hft => exact .finished hend htwin hft
  | outOfFuel hk hend => exact .outOfFuel hk hend
  | @waits suspension count m' q c' d' k hlead hm hq htwin hw hft =>
    obtain ⟨P, w, n, l, rfl, ha⟩ := htwin
    have hnext : Twin ps (qs.filter (· ≠ p)) σ (c'.settle p (σ p)) (c'.apart P w n l) :=
      ⟨P, w, n, l, rfl, ha.catchUp hp⟩
    exact .waits hlead hm hq hnext hw hft
  | @stuck suspension count m' q c' d' x k hend hq hs hripe =>
    have hne : q ≠ p := fun hqp => hq (hqp ▸ hp)
    have hstill : ((c'.settle p (σ p)).heap.pendings.get q).settlement? = none := by
      change ((c'.heap.pendings.modify p (·.settle (σ p))).get q).settlement? = none
      rw [Store.get, Store.get?_modify, if_neg hne]
      exact hs
    exact .stuck hend hq hstill hripe

section

variable {m' : Machine} {q : PendingId} {x : Option Settlement}

theorem flight_parking (hi : i < s.stations.size) :
    ((s.seat i c (·.parking m' q x {})).station i).flight =
      some ⟨m', q, x, {}, (s.station i).base.length⟩ := by
  rw [station_seat hi]
  rfl

/-- What was taken along is not ready. -/
theorem arrive_parking (hi : i < s.stations.size)
    (hripe : x.isSome = true → c.heap.process.ripe q = false) :
    (s.seat i c (·.parking m' q x {})).arrive i = s.seat i c (·.parking m' q x {}) := by
  rcases (s.seat i c (·.parking m' q x {})).arrive_cases i with heq | ⟨f, τ, hf, htaken, hready, -⟩
  · exact heq
  · rw [flight_parking hi] at hf
    cases hf
    have hcold : c.heap.process.ripe q = false := hripe (Option.isSome_of_eq_some htaken)
    rw [show (s.seat i c (·.parking m' q x {})).heap.process.ripe q = false from hcold] at hready
    cases hready

theorem poll_unsettled (hi : i < s.stations.size)
    (hs : (c.heap.pendings.get q).settlement? = none)
    (hripe : x.isSome = true → c.heap.process.ripe q = false) :
    (s.seat i c (·.parking m' q x {})).poll i =
      (some (.suspended (c.engine.lastSuspension.getD ⟨q, []⟩) c.engine.suspensionCount),
        s.seat i c (·.parking m' q x {})) := by
  have hheap : (s.seat i c (·.parking m' q x {})).heap = c.heap := rfl
  rw [poll, arrive_parking hi hripe]
  simp only [goOn, flight_parking hi, hheap, hs, engine_seat hi]

theorem poll_settled {τ : Settlement} (hi : i < s.stations.size)
    (hs : (c.heap.pendings.get q).settlement? = some τ) (hm : m'.control = .waiting q)
    (hft : c.engine.footing = (s.armed i).engine.footing) :
    (s.seat i c (·.parking m' q x {})).poll i =
      let r := (c.watching .armed).drive s.fuel { m' with control := τ.control }
      (some ((s.seat i c (·.parking m' q x {})).settleStop i {} r.1 r.2).1,
        ((s.seat i c (·.parking m' q x {})).settleStop i {} r.1 r.2).2) := by
  have hbelow : c.engine.below = (s.station i).base.map Frame.position := congrArg Footing.below hft
  have hbase : ((s.seat i c (·.parking m' q x {})).station i).base = (s.station i).base := by
    rw [station_seat hi]
    exact Station.base_parking ..
  have harmed : (s.seat i c (·.parking m' q x {})).armed i = c.watching .armed := by
    rw [armed, core_seat hi, hbase, ← hbelow]
    rfl
  rw [poll_flight (s := s.seat i c (·.parking m' q x {})) (flight_parking hi) hs hm, harmed]
  rfl

end

/-- A poll goes on if the value that the evaluation waits for is settled. -/
theorem attends_poll (hi : i < s.stations.size) (h : Attends s i ps σ m d ps qs r) :
    Attends s i ps σ m d qs qs (attendOnce σ i r .poll) := by
  cases h with
  | finished hend htwin hft => exact .finished hend htwin hft
  | outOfFuel hk hend => exact .outOfFuel hk hend
  | @stuck suspension count m' q c' d' x k hend hq hs hripe =>
    simp only [attendOnce, poll_unsettled hi hs hripe, Option.getD_some]
    exact .stuck hend hq hs hripe
  | @waits suspension count m' q c' d' k hlead hm hq htwin hw hft =>
    obtain ⟨P, w, n, l, rfl, ha⟩ := htwin
    rcases ha.early q with heq | ⟨hqs, hun⟩
    · -- the value was settled on both sides: both go on
      have hset : c'.heap.pendings.get? q = some (.settled (σ q)) := heq.trans (ha.settled q hq)
      have hs : (c'.heap.pendings.get q).settlement? = some (σ q) := by
        rw [Store.get, hset]
        rfl
      have hd : ((c'.apart P w n l).heap.pendings.get q).settlement? = some (σ q) := by
        change (P.get q).settlement? = some (σ q)
        rw [Store.get, ha.settled q hq]
        rfl
      have hgo : ∀ j, d.drive (k + 1 + j) m =
          (c'.apart P w n l).drive j { m' with control := (σ q).control } := by
        intro j
        rw [Nat.add_assoc, hlead, Nat.add_comm 1 j]
        obtain ⟨control, stack⟩ := m'
        cases stack with
        | nil => exact absurd rfl hm.2.1
        | cons a callers => exact Core.drive_settled hd j
      have hpace : Core.Pace ps qs σ (s.armed i).engine.footing s.fuel { m' with control := (σ q).control }
          (c'.apart P w n l)
          ((c'.watching .armed).drive s.fuel { m' with control := (σ q).control }) :=
        Core.drive_pace _ _ _ _ ⟨⟨P, w, n, l, rfl, ha⟩, rfl, hw, hft⟩ (hm.resume (σ q))
      simp only [attendOnce, poll_settled hi hs hm.2.2 hft, Option.getD_some]
      exact attends_settleStop (fun e n p x => seat_parking s i c' e _ n _ p _ x _ _)
        (fun e => seat_leaving s i c' e _ _ _ _) (roots_seat (congrArg Footing.own hft)) hgo hpace
    · have hs : (c'.heap.pendings.get q).settlement? = none := by
        rw [Store.get, hun]
        rfl
      simp only [attendOnce, poll_unsettled (x := none) hi hs (fun h => by cases h),
        Option.getD_some]
      exact .waits hlead hm hqs ⟨P, w, n, l, rfl, ha⟩ hw hft

theorem Attends.weaken (h : Attends s i ps σ m d ws qs r) (hws : ∀ p ∈ ws, p ∈ ps) :
    Attends s i ps σ m d ps qs r := by
  cases h with
  | finished hend htwin hft => exact .finished hend htwin hft
  | outOfFuel hk hend => exact .outOfFuel hk hend
  | stuck hend hq hs hripe => exact .stuck hend hq hs hripe
  | waits hlead hm hq htwin hw hft => exact .waits hlead hm (hws _ hq) htwin hw hft

/-- **The twin keeps pace with the host**, whatever the host does in whatever order. -/
theorem attend_spec (hi : i < s.stations.size) (moves : List HostMove)
    (hmoves : ∀ p, .settle p ∈ moves → p ∈ ps) (hqs : ∀ p ∈ qs, p ∈ ps)
    (h : Attends s i ps σ m d ps qs r) :
    ∃ rs, (∀ p ∈ rs, p ∈ qs ∧ .settle p ∉ moves) ∧
      Attends s i ps σ m d ps rs (attend σ i r moves) := by
  induction moves generalizing r qs with
  | nil => exact ⟨qs, fun p hp => ⟨hp, List.not_mem_nil⟩, h⟩
  | cons move moves ih =>
    have hrest : ∀ p, .settle p ∈ moves → p ∈ ps := fun p hp =>
      hmoves p (List.mem_cons_of_mem _ hp)
    cases move with
    | settle p =>
      have hstep := attends_settle h (hmoves p List.mem_cons_self)
      obtain ⟨rs, hrs, hend⟩ := ih hrest (fun q hq => hqs q (List.mem_filter.mp hq).1) hstep
      refine ⟨rs, fun q hq => ?_, hend⟩
      obtain ⟨hin, hne⟩ := List.mem_filter.mp (hrs q hq).1
      refine ⟨hin, fun hmem => ?_⟩
      rcases List.mem_cons.mp hmem with heq | hmem
      · exact of_decide_eq_true hne (HostMove.settle.inj heq)
      · exact (hrs q hq).2 hmem
    | poll =>
      obtain ⟨rs, hrs, hend⟩ := ih hrest hqs ((attends_poll hi h).weaken hqs)
      refine ⟨rs, fun q hq => ⟨(hrs q hq).1, fun hmem => ?_⟩, hend⟩
      rcases List.mem_cons.mp hmem with heq | hmem
      · cases heq
      · exact (hrs q hq).2 hmem

end

end Session

end Fermata
