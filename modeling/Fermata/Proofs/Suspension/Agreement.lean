import Fermata.Proofs.Prune.Living
import Fermata.Proofs.Session.Turn
import Fermata.Proofs.Suspension.Protocol

/-!
# One settlement for all

Evaluations make pending values, let them settle by themselves, and take along what settles them
(`Store.Lasts`). They change no settlement, and settle nothing that only a host can settle. So the first
settlement that a host asks for is the one that all engines are handed, those that touch the value and
those that waited for it, in whatever order they are polled.

* `Custody.alongside`: a custody that also minds the pending values.
* `Core.handed`, `Session.handed`: with what an evaluation goes on where it touched a pending value.
* `Session.LeftToHost`: nobody but a host settles the value.
* `Session.settlements_agree`: all of this is one settlement.
-/

namespace Fermata

open Act

/-! ## Pending values that are left alone -/

/-- What evaluations do to pending values keeps `P`: they make new ones, those that settle by themselves
settle, and what settles them is taken along. -/
structure Store.Lasts (P : Store .pending Pending → Prop) : Prop where
  push {S} : P S → ∀ region s, P (S.push region (.scheduled s))
  settle {S p s} : P S → S.get p = .scheduled s → P (S.modify p (·.settle s))
  spend {S} : P S → ∀ p, P (S.modify p Pending.spent)

namespace Store.Lasts

variable {p : PendingId} {q : Pending} {S : Store .pending Pending}

/-- What is there already is not what is made. -/
theorem get?_push_of_some (h : S.get? p = some q) (region : Nat) (x : Pending) :
    (S.push region x).get? p = some q := by
  rw [get?_push, if_neg]
  · exact h
  · rintro rfl
    rw [get?_next] at h
    cases h

/-- A state that neither settles by itself nor is changed by what settles others lasts. -/
theorem of_state (hq : ∀ s, q ≠ .scheduled s) : Lasts (·.get? p = some q) where
  push h region s := get?_push_of_some h region _
  settle {S b s} h hb := by
    rw [get?_modify, h]
    refine (ite_eq_right_iff.mpr fun hp => ?_)
    subst hp
    exact absurd ((get_of_get? h).symm.trans hb) (hq s)
  spend {S} h b := by
    rw [get?_modify, h]
    refine (ite_eq_right_iff.mpr fun _ => ?_)
    cases q with
    | scheduled s => exact absurd rfl (hq s)
    | unsettled | settled => rfl

theorem settled (p : PendingId) (τ : Settlement) : Lasts (·.get? p = some (.settled τ)) :=
  of_state nofun

theorem unsettled (p : PendingId) : Lasts (·.get? p = some .unsettled) := of_state nofun

theorem present (p : PendingId) : Lasts fun S => (S.get? p).isSome = true where
  push h region s := by
    obtain ⟨q, hq⟩ := Option.isSome_iff_exists.mp h
    rw [get?_push_of_some hq region]
    rfl
  settle h _ := by
    rw [get?_modify]
    split
    · rwa [Option.isSome_map]
    · exact h
  spend h b := by
    rw [get?_modify]
    split
    · rwa [Option.isSome_map]
    · exact h

end Store.Lasts

namespace Custody

variable {P : Store .pending Pending → Prop}

/-- The custody, as long as the pending values have `P`, which no evaluation changes. -/
def alongside (K : Custody) (hP : Store.Lasts P) : Custody where
  held := K.held
  good fs c := K.good fs c ∧ P c.heap.pendings
  fault := K.fault
  literal := K.literal
  content h := K.content h.1
  methods h := K.methods h.1
  scope h := K.scope h.1
  defining h := K.defining h.1
  object h ho := ⟨⟨(K.object h.1 ho).1, h.2⟩, (K.object h.1 ho).2⟩
  edit h hf id := ⟨⟨(K.edit h.1 hf id).1, h.2⟩, (K.edit h.1 hf id).2⟩
  console h lines := ⟨⟨(K.console h.1 lines).1, h.2⟩, (K.console h.1 lines).2⟩
  pending h hs := ⟨⟨(K.pending h.1 hs).1, hP.push h.2 _ _⟩, (K.pending h.1 hs).2⟩
  binding h hv scope name :=
    ⟨⟨(K.binding h.1 hv scope name).1, h.2⟩, (K.binding h.1 hv scope name).2⟩
  birth h hfn := ⟨⟨(K.birth h.1 hfn).1, h.2⟩, (K.birth h.1 hfn).2⟩
  link h hfn hr hn := ⟨⟨(K.link h.1 hfn hr hn).1, h.2⟩, (K.link h.1 hfn hr hn).2⟩
  capture h hid hscope hr hc hnames hvs hthis :=
    ⟨⟨(K.capture h.1 hid hscope hr hc hnames hvs hthis).1, h.2⟩,
      (K.capture h.1 hid hscope hr hc hnames hvs hthis).2⟩
  share h hid hscope hr hc := ⟨K.share h.1 hid hscope hr hc, h.2⟩
  code h hunit := ⟨K.code h.1 hunit, h.2⟩
  mark h span := ⟨K.mark h.1 span, h.2⟩
  close h := ⟨K.close h.1, h.2⟩
  apart h w n l := ⟨⟨(K.apart h.1 w n l).1, h.2⟩, (K.apart h.1 w n l).2⟩
  starting h below := ⟨⟨(K.starting h.1 below).1, h.2⟩, (K.starting h.1 below).2⟩
  settle h hp := ⟨⟨(K.settle h.1 hp).1, hP.settle h.2 hp⟩, (K.settle h.1 hp).2⟩
  take h p := ⟨⟨(K.take h.1 p).1, hP.spend h.2 p⟩, (K.take h.1 p).2⟩
  linked h := K.linked h.1
  hoisted h := K.hoisted h.1
  called h := K.called h.1
  recorded h := K.recorded h.1
  unsupported := K.unsupported
  escaped := K.escaped
  transferred := K.transferred
  stranded := K.stranded

variable {K : Custody} {A : Atlas} {m : Machine} {c : Core}

theorem Charted.alongside (hA : K.Charted A) (hP : Store.Lasts P) : (K.alongside hP).Charted A :=
  ⟨fun h => hA.covers h.1, hA.unit, hA.function⟩

theorem Guards.alongside (h : K.Guards A m c) (hP : Store.Lasts P) (hp : P c.heap.pendings) :
    (K.alongside hP).Guards A m c :=
  ⟨⟨⟨h.safe.good, hp⟩, h.safe.stack, h.safe.control⟩, h.placed, h.armed⟩

/-- **A drive keeps what evaluations keep of pending values.** -/
theorem Guards.lasts {hP : Store.Lasts P} (hA : K.Charted A) (h : (K.alongside hP).Guards A m c)
    (n : Nat) : P (c.drive n m).2.heap.pendings := by
  have hstops := (drive (hA.alongside hP) n h).1
  generalize c.drive n m = r at hstops
  cases hstops with
  | done hgood _ _ => exact hgood.2
  | parked hsafe _ => exact hsafe.good.2
  | outOfFuel hguards => exact hguards.safe.good.2

end Custody

/-! ## What evaluations are handed -/

/-- The pending value that the next step touches. -/
def Machine.touched? (m : Machine) : Option PendingId :=
  match m with
  | ⟨.checkpoint (.pending p), _ :: _⟩ => some p
  | _ => none

theorem Machine.touched?_eq_some {m : Machine} {p : PendingId} :
    m.touched? = some p ↔ ∃ a callers, m = ⟨.checkpoint (.pending p), a :: callers⟩ := by
  constructor
  · intro h
    unfold touched? at h
    split at h
    · cases h
      exact ⟨_, _, rfl⟩
    · cases h
  · rintro ⟨a, callers, rfl⟩
    rfl

namespace Core

/-- The pending values that a drive of at most `n` steps touches and goes on from, in order, each with
what is done next. -/
def handed : Nat → Machine → Core → List (PendingId × Control)
  | 0, _, _ => []
  | n + 1, m, c =>
    match m.step c with
    | (.running m', c') => (m.touched?.map (·, m'.control)).toList ++ handed n m' c'
    | (.done _, _) => []
    | (.parked m' p, c') =>
      let c' := c'.record (c'.suspension m' p)
      match c'.heap.pendings.get p with
      | .scheduled s =>
        if c'.heap.process.ripe p then
          match m'.resume s with
          | .ok m'' => (p, m''.control) :: handed n m'' ((c'.settle p s).watching .armed)
          | .error _ => []
        else []
      | _ => []

/-- The settlement of a pending value. -/
def settlement? (c : Core) (p : PendingId) : Option Settlement :=
  (c.heap.pendings.get p).settlement?

/-- The evaluation goes on with the settlement of the value. -/
def Hands (c : Core) (x : PendingId × Control) : Prop :=
  ∃ s, c.settlement? x.1 = some s ∧ x.2 = s.control

variable {K : Custody} {A : Atlas} {m : Machine} {c : Core}

theorem settlement?_eq_some {p : PendingId} {s : Settlement} :
    c.settlement? p = some s ↔ c.heap.pendings.get? p = some (.settled s) := by
  unfold settlement? Store.get
  constructor
  · intro h
    cases hq : c.heap.pendings.get? p with
    | none =>
      rw [hq] at h
      cases h
    | some q =>
      rw [hq, Option.getD_some] at h
      cases q <;> cases h
      rfl
  · intro h
    rw [h]
    rfl

/-- A settlement lasts as long as engines evaluate. -/
theorem settlement?_drive (hA : K.Charted A) (h : K.Guards A m c) {p : PendingId} {s : Settlement}
    (hs : c.settlement? p = some s) (n : Nat) : (c.drive n m).2.settlement? p = some s :=
  settlement?_eq_some.mpr
    (Custody.Guards.lasts hA (h.alongside (.settled p s) (settlement?_eq_some.mp hs)) n)

theorem settlement?_settle {p : PendingId} {s : Settlement}
    (hp : c.heap.pendings.get p = .scheduled s) :
    (c.settle p s).settlement? p = some s := by
  rw [settlement?_eq_some]
  change (c.heap.pendings.modify p (·.settle s)).get? p = _
  rw [Store.get?_modify, if_pos rfl]
  unfold Store.get at hp
  cases hq : c.heap.pendings.get? p with
  | none =>
    rw [hq] at hp
    cases hp
  | some q =>
    rw [hq, Option.getD_some] at hp
    rw [hp]
    rfl

/-- **What an evaluation is handed is the settlement** that the value has for good. -/
theorem handed_drive (hA : K.Charted A) (n : Nat) (h : K.Guards A m c) :
    ∀ x ∈ c.handed n m, (c.drive n m).2.Hands x := by
  induction n generalizing m c with
  | zero => exact nofun
  | succ n ih =>
    intro x hx
    unfold handed at hx
    cases hs : m.step c with
    | mk progress c' =>
      rw [hs] at hx
      cases progress with
      | done outcome => cases hx
      | running m' =>
        obtain ⟨hnext, -⟩ := h.running hA hs
        rw [drive_running hs]
        rcases List.mem_append.mp hx with hx | hx
        · obtain ⟨p, hp, rfl⟩ := Option.map_eq_some_iff.mp (Option.mem_toList.mp hx)
          obtain ⟨a, callers, rfl⟩ := Machine.touched?_eq_some.mp hp
          cases hset : (c.heap.pendings.get p).settlement? with
          | none =>
            rw [Machine.step_checkpoint_unsettled a callers hset h.armed] at hs
            cases hs
          | some s =>
            rw [Machine.step_checkpoint_settled a callers hset] at hs
            cases hs
            exact ⟨s, settlement?_drive hA hnext hset n, rfl⟩
        · exact ih hnext x hx
      | parked m' p =>
        obtain ⟨⟨-, -, rfl, rfl⟩, -, hparked⟩ := h.parked hA hs
        have hresume := Machine.resume_waiting hparked.2.2
        dsimp only at hx
        split at hx
        next s hsched =>
          split at hx
          next hripe =>
            have hnext := (h.settle hA hs hsched
              ((c.watching .triggered).suspension ⟨.waiting p, m.stack⟩ p)).1
            rw [hresume] at hx
            rw [drive_ready hs hsched hripe (hresume s)]
            rcases List.mem_cons.mp hx with rfl | hx
            · exact ⟨s, settlement?_drive hA hnext (settlement?_settle hsched) n, rfl⟩
            · exact ih hnext x hx
          next => cases hx
        next => cases hx

end Core

namespace Session

variable {H : Host} {s t : Session} {i : Nat} {p : PendingId} {q : Pending}

/-! ## Sessions -/

/-- The settlement of a pending value. -/
def settlement? (s : Session) (p : PendingId) : Option Settlement :=
  (s.heap.pendings.get p).settlement?

/-- What an evaluation that is asked for is handed. -/
def Ask.handed (a : Ask) : List (PendingId × Control) :=
  if (a.session.station a.engine).isBusy then []
  else
    let (m, c) := Machine.start a.act (a.session.armed a.engine)
    c.handed a.session.fuel m

/-- What the parked evaluation is handed when it goes on: first the settlement that it waits for. -/
def handedParked (s : Session) (i : Nat) : List (PendingId × Control) :=
  match (s.station i).flight with
  | none => []
  | some f =>
    match (s.arrive i).settlement? f.pending with
    | none => []
    | some settlement =>
      match f.machine.resume settlement with
      | .ok m => (f.pending, m.control) :: ((s.arrive i).armed i).handed s.fuel m
      | .error _ => []

/-- What evaluations are handed in a turn. -/
def handedIn (s : Session) (turn : Turn) : List (PendingId × Control) :=
  match s.ask? turn, turn with
  | some a, _ => a.handed
  | none, .poll i => s.handedParked i
  | none, _ => []

/-- What all evaluations are handed in these turns, in order, on all engines. -/
def handed (s : Session) : List Turn → List (PendingId × Control)
  | [] => []
  | turn :: turns => s.handedIn turn ++ (s.perform turn).2.handed turns

/-- The settlements of one value that a turn asks for, with what the host is told. -/
def asked (s : Session) (p : PendingId) (turn : Turn) : List (Settlement × Bool) :=
  match turn with
  | .settle q settlement => if q = p then [(settlement, (s.settle q settlement).1)] else []
  | _ => []

/-- The settlements of one value that these turns ask for, in order. -/
def settlements (s : Session) (p : PendingId) : List Turn → List (Settlement × Bool)
  | [] => []
  | turn :: turns => s.asked p turn ++ (s.perform turn).2.settlements p turns

/-- What is left when a drive stops has the pending values of the drive, or took along what settles one. -/
theorem lasts_settleStop {P : Store .pending Pending → Prop} (hP : Store.Lasts P) {c : Core}
    (h : P c.heap.pendings) (s : Session) (i : Nat) (loan : Loan) (stop : Core.Stop) :
    P (s.settleStop i loan stop c).2.heap.pendings := by
  cases stop with
  | done outcome =>
    have hprune := c.heap.pendings_prune c.engine.links
      (Cell.ofValues (Core.heldByOutcome outcome) ++ (loan.lent ++ s.roots i))
    exact hprune.symm ▸ h
  | parked m p => exact hP.spend h p
  | outOfFuel m => exact h

theorem settlement?_eq_some {σ : Settlement} :
    s.settlement? p = some σ ↔ s.heap.pendings.get? p = some (.settled σ) :=
  Core.settlement?_eq_some (c := ⟨s.heap, default⟩)

/-- What is settled stays so where a drive stops. -/
theorem settlement?_settleStop {c : Core} {σ : Settlement} (h : c.settlement? p = some σ) (s : Session)
    (i : Nat) (loan : Loan) (stop : Core.Stop) :
    (s.settleStop i loan stop c).2.settlement? p = some σ :=
  settlement?_eq_some.mpr (lasts_settleStop (.settled p σ) (Core.settlement?_eq_some.mp h) ..)

/-! ### Settling -/

theorem get?_settle (s : Session) (p : PendingId) (σ : Settlement) :
    (s.settle p σ).2.heap.pendings.get? p = (s.heap.pendings.get? p).map (·.settle σ) := by
  change (s.heap.pendings.modify p (·.settle σ)).get? p = _
  rw [Store.get?_modify, if_pos rfl]

/-- The first settlement is told of as such. -/
theorem settle_first (hp : (s.heap.pendings.get? p).isSome) (hnone : s.settlement? p = none)
    (σ : Settlement) : (s.settle p σ).1 = true ∧ (s.settle p σ).2.settlement? p = some σ := by
  obtain ⟨q, hq⟩ := Option.isSome_iff_exists.mp hp
  have hget : s.heap.pendings.get p = q := Store.get_of_get? hq
  refine ⟨?_, ?_⟩
  · change (!(s.heap.pendings.get p).isSettled) = true
    rw [Pending.isSettled, show (s.heap.pendings.get p).settlement? = none from hnone]
    rfl
  · rw [settlement?_eq_some, get?_settle, hq]
    unfold settlement? at hnone
    rw [hget] at hnone
    cases q with
    | settled τ => cases hnone
    | _ => rfl

/-- Every later settlement is told off, and changes nothing. -/
theorem settle_later {τ : Settlement} (hτ : s.settlement? p = some τ) (σ : Settlement) :
    s.settle p σ = (false, s) := by
  have hsettled : (s.heap.pendings.get p).isSettled = true := by
    rw [Pending.isSettled, show (s.heap.pendings.get p).settlement? = some τ from hτ]
    rfl
  have hsame : s.heap.pendings.modify p (·.settle σ) = s.heap.pendings :=
    s.heap.pendings.modify_eq_self p fun q hq => by
      rw [settlement?_eq_some.mp hτ] at hq
      cases hq
      rfl
  simp only [settle, Heap.settle, hsettled, hsame]
  rfl

/-! ### Evaluations -/

/-- A parked evaluation goes on guarded. -/
theorem guards_parked {f : Flight} (hs : Tolerance.Keeps (Regime.any H) s) (hi : i < s.stations.size)
    (hf : (s.station i).flight = some f) (σ : Settlement) :
    f.machine.control = .waiting f.pending ∧
      (Tolerance.watched H).custody.Guards (Regime.any H).atlas
        { f.machine with control := σ.control } (s.armed i) :=
  ⟨(hs.rules.parked i hi f hf).2.2, Tolerance.guards_flight hs hi hf σ⟩

theorem guards_asked {act : Act Move} {loan : Loan} (hact : Request H s i act loan) :
    (Tolerance.watched H).custody.Guards (Regime.any H).atlas
      (Machine.start act (s.armed i)).1 (Machine.start act (s.armed i)).2 :=
  Tolerance.guards_request (R := Regime.any H) (T := Tolerance.watched H) trivial hact

variable {P : Store .pending Pending → Prop}

theorem lasts_start {act : Act Move} {loan : Loan} (hP : Store.Lasts P) (hact : Request H s i act loan)
    (h : P s.heap.pendings) : P (Machine.start act (s.armed i)).2.heap.pendings := by
  have hgood : ((Tolerance.watched H).custody.alongside hP).good [] (s.armed i) := ⟨trivial, h⟩
  have hmoves : ((Tolerance.watched H).custody.alongside hP).Moves [] act (s.armed i) := by
    cases hact with
    | unit hu => exact Custody.openFrame hgood (fun _ => rfl) _
    | code _ hu => exact Custody.callUnit hgood hgood
    | call fn this args =>
      exact Custody.callValue hgood (fun _ _ => trivial) (fun _ _ => trivial)
        (fun _ _ _ _ => trivial) fun source unit hunit => hgood
  exact (Custody.start hmoves).1.good.2

theorem lasts_drive {act : Act Move} {loan : Loan} (hP : Store.Lasts P) (hact : Request H s i act loan)
    (h : P s.heap.pendings) (n : Nat) :
    P ((Machine.start act (s.armed i)).2.drive n (Machine.start act (s.armed i)).1).2.heap.pendings :=
  Custody.Guards.lasts (Tolerance.charted_watched H)
    ((guards_asked hact).alongside hP (lasts_start hP hact h)) n

theorem lasts_evaluate {act : Act Move} {loan : Loan} (hP : Store.Lasts P) (hact : Request H s i act loan)
    (h : P s.heap.pendings) : P (s.evaluate i act loan).2.heap.pendings := by
  unfold evaluate
  split
  · exact h
  · exact lasts_settleStop hP (lasts_drive hP hact h s.fuel) ..

theorem lasts_resumed {f : Flight} {σ : Settlement} (hP : Store.Lasts P)
    (hs : Tolerance.Keeps (Regime.any H) s) (hi : i < s.stations.size)
    (hf : (s.station i).flight = some f) (h : P s.heap.pendings) (n : Nat) :
    P ((s.armed i).drive n { f.machine with control := σ.control }).2.heap.pendings :=
  Custody.Guards.lasts (Tolerance.charted_watched H) ((guards_parked hs hi hf σ).2.alongside hP h) n

/-- What goes on keeps it, after what was taken along has arrived. -/
theorem lasts_poll (hP : Store.Lasts P) (hs : Tolerance.Keeps (Regime.any H) s)
    (hi : i < s.stations.size) (h : P (s.arrive i).heap.pendings) : P (s.poll i).2.heap.pendings := by
  have hgoes := hs.rules.goesOn hi
  have hs' := hs.arrive i
  have hi' : i < (s.arrive i).stations.size := by rwa [stations_arrive]
  generalize s.arrive i = t at hgoes hs' hi' h
  generalize s.poll i = r at hgoes ⊢
  cases hgoes with
  | idle => exact h
  | waits => exact h
  | resumes hf hset hr => exact lasts_settleStop hP (hr ▸ lasts_resumed hP hs' hi' hf h t.fuel) ..

theorem handed_evaluate {act : Act Move} {loan : Loan} (hact : Request H s i act loan) :
    ∀ x ∈ (Ask.mk s i act loan).handed, ∃ σ,
      (s.evaluate i act loan).2.settlement? x.1 = some σ ∧ x.2 = σ.control := by
  intro x hx
  unfold Ask.handed at hx
  unfold evaluate
  split
  next hbusy =>
    rw [if_pos hbusy] at hx
    cases hx
  next hidle =>
    rw [if_neg hidle] at hx
    obtain ⟨σ, hσ, hcontrol⟩ :=
      Core.handed_drive (Tolerance.charted_watched H) s.fuel (guards_asked hact) x hx
    exact ⟨σ, settlement?_settleStop hσ .., hcontrol⟩

theorem handed_poll (hs : Tolerance.Keeps (Regime.any H) s) (hi : i < s.stations.size) :
    ∀ x ∈ s.handedParked i, ∃ σ, (s.poll i).2.settlement? x.1 = some σ ∧ x.2 = σ.control := by
  intro x hx
  have hs' := hs.arrive i
  have hi' : i < (s.arrive i).stations.size := by rwa [stations_arrive]
  unfold handedParked at hx
  rw [← s.station_arrive i i, ← s.fuel_arrive i] at hx
  unfold poll
  generalize s.arrive i = t at hs' hi' hx
  cases hf : (t.station i).flight with
  | none =>
    rw [hf] at hx
    cases hx
  | some f =>
    cases hset : t.settlement? f.pending with
    | none =>
      simp only [hf, hset] at hx
      cases hx
    | some σ =>
      obtain ⟨hwaits, hguards⟩ := guards_parked hs' hi' hf σ
      have hA := Tolerance.charted_watched H
      simp only [hf, hset, Machine.resume_waiting hwaits] at hx
      rw [goOn_flight hf hset hwaits]
      rcases List.mem_cons.mp hx with rfl | hx
      · exact ⟨σ, settlement?_settleStop (Core.settlement?_drive hA hguards hset t.fuel) .., rfl⟩
      · obtain ⟨τ, hτ, hcontrol⟩ := Core.handed_drive hA t.fuel hguards x hx
        exact ⟨τ, settlement?_settleStop hτ .., hcontrol⟩

/-! ### Turns -/

theorem pendings_assign (s : Session) (scope : ScopeId) (name : String) (v : Value) :
    (s.assign scope name v).2.heap.pendings = s.heap.pendings := by
  unfold assign Heap.setName
  cases s.heap.target scope name with
  | error cause => rfl
  | ok place =>
    cases place with
    | global o =>
      change (if reservedNames.contains name then s.heap else s.heap.set o name v).pendings = _
      split <;> rfl
    | _ => rfl

theorem pendings_setEnvironment (h : Heap) (scope : ScopeId) (env : List (String × Value)) :
    (h.setEnvironment scope env).2.pendings = h.pendings := by
  refine Heap.setEnvironment_induction (P := fun k => k.pendings = h.pendings)
    (fun k name v hk => Eq.trans ?_ hk) env rfl
  unfold Heap.setOwn
  split <;> split <;> rfl

/-- What may become of pending values in a turn besides what evaluations do to them: the host settles one, or
what was taken along does. -/
inductive Settles (s : Session) : Turn → PendingId → Settlement → Prop
  | host (b σ) : Settles s (.settle b σ) b σ
  | arrival {i : Nat} {f : Flight} {σ} : (s.station i).flight = some f → f.taken = some σ →
      Settles s (.poll i) f.pending σ

/-- **What evaluations and settlements keep of pending values**, a turn keeps. -/
theorem lasts_perform {turn : Turn} (hP : Store.Lasts P) (hs : Live .any s) (h : s.Replies turn)
    (hset : ∀ b σ, s.Settles turn b σ → P (s.heap.pendings.modify b (·.settle σ)))
    (hp : P s.heap.pendings) : P (s.perform turn).2.heap.pendings := by
  have hengine := h.engine
  cases hask : s.ask? turn with
  | some a =>
    have hasks := asks hask
    rw [hasks.perform]
    refine lasts_evaluate hP hasks.request ?_
    rcases hasks.compiled with heq | ⟨source, id, hc⟩
    · rw [heq]
      exact hp
    · rcases compile_cases hc with heq | ⟨u, units, heq⟩
      · rw [heq]
        exact hp
      · rw [heq]
        exact hp
  | none =>
    cases unasked hask with
    | refused heq =>
      rw [heq]
      exact hp
    | poll i =>
      refine lasts_poll hP hs.keeps (hengine i rfl) ?_
      rcases s.arrive_cases i with heq | ⟨f, σ, hf, htaken, -, heq⟩ <;> rw [heq]
      · exact hp
      · exact hset _ _ (.arrival hf htaken)
    | abandon i =>
      rcases s.abandon_cases i with ⟨heq, -⟩ | ⟨f, -, heq⟩ <;> rw [Session.perform, heq]
      · exact hp
      · exact hp
    | settle b σ => exact hset _ _ (.host b σ)
    | setName scope name v =>
      change P (s.assign scope name v).2.heap.pendings
      rw [pendings_assign]
      exact hp
    | setEnvironment scope env =>
      change P (s.heap.setEnvironment scope env).2.pendings
      rw [pendings_setEnvironment]
      exact hp
    | _ => exact hp

/-- A turn settles the value, or leaves it alone. -/
theorem asked_cases (s : Session) (p : PendingId) (turn : Turn) :
    s.asked p turn = [] ∨ ∃ σ, turn = .settle p σ ∧ s.asked p turn = [(σ, (s.settle p σ).1)] := by
  unfold asked
  split
  · rename_i b σ
    split
    · rename_i hb
      subst hb
      exact .inr ⟨σ, rfl, rfl⟩
    · exact .inl rfl
  · exact .inl rfl

theorem handed_perform {turn : Turn} (hs : Live .any s) (h : s.Replies turn) :
    ∀ x ∈ s.handedIn turn, ∃ σ, (s.perform turn).2.settlement? x.1 = some σ ∧ x.2 = σ.control := by
  intro x hx
  unfold handedIn at hx
  cases hask : s.ask? turn with
  | some a =>
    rw [hask] at hx
    have hasks := asks hask
    rw [hasks.perform]
    exact handed_evaluate hasks.request x hx
  | none =>
    rw [hask] at hx
    split at hx
    · rename_i heq
      cases heq
    · exact handed_poll hs.keeps (h.engine _ rfl) x hx
    · cases hx

/-- A settlement is changed by nothing. -/
theorem settled_perform {turn : Turn} {τ : Settlement} (hs : Live .any s) (h : s.Replies turn)
    (hτ : s.settlement? p = some τ) : (s.perform turn).2.settlement? p = some τ := by
  rw [settlement?_eq_some] at hτ ⊢
  refine lasts_perform (.settled p τ) hs h (fun b σ _ => ?_) hτ
  rw [Store.get?_modify, hτ]
  exact ite_self _

/-- A settled value stays as it is, and nobody settles it again. -/
theorem settled_lasts {turns : List Turn} {τ : Settlement} (hs : Live .any s) (h : s.Plays turns)
    (hτ : s.settlement? p = some τ) :
    (∀ x ∈ s.settlements p turns, x.2 = false) ∧ (s.after turns).settlement? p = some τ := by
  induction turns generalizing s with
  | nil => exact ⟨nofun, hτ⟩
  | cons turn turns ih =>
    obtain ⟨hturn, hturns⟩ := h
    have hasked : ∀ x ∈ s.asked p turn, x.2 = false := by
      rcases asked_cases s p turn with hnone | ⟨σ, rfl, hone⟩
      · rw [hnone]
        exact nofun
      · rw [hone, settle_later hτ σ]
        exact fun x hx => List.mem_singleton.mp hx ▸ rfl
    obtain ⟨hrest, hlast⟩ := ih (hs.leads (leads_perform hturn)) hturns (settled_perform hs hturn hτ)
    exact ⟨fun x hx => (List.mem_append.mp hx).elim (hasked x) (hrest x), hlast⟩

theorem exists_perform {turn : Turn} (hs : Live .any s) (h : s.Replies turn)
    (hp : (s.heap.pendings.get? p).isSome) : ((s.perform turn).2.heap.pendings.get? p).isSome := by
  refine lasts_perform (.present p) hs h (fun b σ _ => ?_) hp
  rw [Store.get?_modify]
  split
  · rwa [Option.isSome_map]
  · exact hp

theorem exists_after {turns : List Turn} (hs : Live .any s) (h : s.Plays turns)
    (hp : (s.heap.pendings.get? p).isSome) : ((s.after turns).heap.pendings.get? p).isSome := by
  induction turns generalizing s with
  | nil => exact hp
  | cons turn turns ih =>
    exact ih (hs.leads (leads_perform h.1)) h.2 (exists_perform hs h.1 hp)

/-- After the first settlement that is asked for, the value is settled. -/
theorem settlements_later {turns : List Turn} {x : Settlement × Bool}
    {later : List (Settlement × Bool)} (hs : Live .any s) (h : s.Plays turns)
    (hp : (s.heap.pendings.get? p).isSome) (hx : s.settlements p turns = x :: later) :
    (∀ y ∈ later, y.2 = false) ∧ (x.2 = true → (s.after turns).settlement? p = some x.1) := by
  induction turns generalizing s with
  | nil => cases hx
  | cons turn turns ih =>
    obtain ⟨hturn, hturns⟩ := h
    have hlive := hs.leads (leads_perform hturn)
    unfold settlements at hx
    rcases asked_cases s p turn with hnone | ⟨σ, rfl, hone⟩
    · rw [hnone] at hx
      exact ih hlive hturns (exists_perform hs hturn hp) hx
    · rw [hone, List.singleton_append] at hx
      obtain ⟨rfl, rfl⟩ := List.cons.inj hx
      cases hset : s.settlement? p with
      | some τ =>
        have hlater := settle_later hset σ
        have hsame : (s.perform (.settle p σ)).2.settlement? p = some τ := by
          change (s.settle p σ).2.settlement? p = some τ
          rw [hlater]
          exact hset
        refine ⟨(settled_lasts hlive hturns hsame).1, fun hwon => ?_⟩
        rw [hlater] at hwon
        cases hwon
      | none =>
        obtain ⟨hrest, hlast⟩ := settled_lasts hlive hturns (settle_first hp hset σ).2
        exact ⟨hrest, fun _ => hlast⟩

/-- Nobody but a host settles the value: it does not settle by itself, and no evaluation took along what
settles it. -/
structure LeftToHost (s : Session) (p : PendingId) : Prop where
  unsettled : s.heap.pendings.get? p = some .unsettled
  untaken {i f} : (s.station i).flight = some f → f.pending = p → f.taken = none

/-- What an evaluation took along is what settled the value that it waits for by itself. -/
theorem taken_settleStop {f : Flight} {j : Nat} {loan : Loan} {stop : Core.Stop} {c : Core}
    (h : s.LeftToHost p) (hc : c.heap.pendings.get? p = some .unsettled)
    (hf : ((s.settleStop j loan stop c).2.station i).flight = some f) (hp : f.pending = p) :
    f.taken = none := by
  rcases flight_settleStop hf with hf | ⟨-, htaken⟩
  · exact h.untaken hf hp
  · rw [htaken, hp]
    refine Heap.take_fst_eq_none fun τ => ?_
    rw [Store.get_of_get? hc]
    exact nofun

/-- **Engines leave to the host what is left to it.** -/
theorem leftToHost_evaluate {act : Act Move} {loan : Loan} {j : Nat} (hact : Request H s j act loan)
    (h : s.LeftToHost p) : (s.evaluate j act loan).2.LeftToHost p := by
  refine ⟨lasts_evaluate (.unsettled p) hact h.unsettled, fun {i f} hf hp => ?_⟩
  unfold evaluate at hf
  split at hf
  · exact h.untaken hf hp
  · exact taken_settleStop h (lasts_drive (.unsettled p) hact h.unsettled s.fuel) hf hp

theorem leftToHost_arrive (h : s.LeftToHost p) (j : Nat) : (s.arrive j).LeftToHost p := by
  refine ⟨?_, fun hf hp => h.untaken (station_arrive .. ▸ hf) hp⟩
  rcases s.arrive_cases j with heq | ⟨f, σ, hf, htaken, -, heq⟩ <;> rw [heq]
  · exact h.unsettled
  · change (s.heap.pendings.modify f.pending (·.settle σ)).get? p = some .unsettled
    rw [Store.get?_modify, if_neg, h.unsettled]
    rintro rfl
    cases htaken.symm.trans (h.untaken hf rfl)

theorem leftToHost_poll {j : Nat} (hs : Tolerance.Keeps (Regime.any H) s) (hj : j < s.stations.size)
    (h : s.LeftToHost p) : (s.poll j).2.LeftToHost p := by
  have hgoes := hs.rules.goesOn hj
  have h' := leftToHost_arrive h j
  have hs' := hs.arrive j
  have hj' : j < (s.arrive j).stations.size := by rwa [stations_arrive]
  generalize s.arrive j = t at hgoes hs' hj' h'
  generalize s.poll j = r at hgoes ⊢
  cases hgoes with
  | idle => exact h'
  | waits => exact h'
  | @resumes g σ r hg hset hr =>
    have hlast : r.2.heap.pendings.get? p = some .unsettled :=
      hr ▸ lasts_resumed (.unsettled p) hs' hj' hg h'.unsettled t.fuel
    exact ⟨lasts_settleStop (.unsettled p) hlast .., fun hf hp => taken_settleStop h' hlast hf hp⟩

/-- A turn that does not settle the value leaves it to the host. -/
theorem leftToHost_perform {turn : Turn} (hs : Live .any s) (h : s.Replies turn)
    (hasked : s.asked p turn = []) (hleft : s.LeftToHost p) : (s.perform turn).2.LeftToHost p := by
  have hmodify : ∀ (j : Nat) (g : Station → Station),
      (∀ t, (g t).flight = t.flight ∨ (g t).flight = none) → (s.modifyStation j g).LeftToHost p :=
    fun j g hg => ⟨hleft.unsettled, fun hf hp => hleft.untaken (flight_modifyStation hg hf) hp⟩
  cases hask : s.ask? turn with
  | some a =>
    have hasks := asks hask
    rw [hasks.perform]
    refine leftToHost_evaluate hasks.request ?_
    rcases hasks.compiled with heq | ⟨source, id, hc⟩
    · rw [heq]
      exact hleft
    · rcases compile_cases hc with heq | ⟨u, units, heq⟩
      · rw [heq]
        exact hleft
      · rw [heq]
        refine ⟨hleft.unsettled, fun hf hp => hleft.untaken (i := _) (flight_modifyStation ?_ hf) hp⟩
        exact fun _ => .inl rfl
  | none =>
    cases unasked hask with
    | refused heq =>
      rw [heq]
      exact hleft
    | poll i => exact leftToHost_poll hs.keeps (h.engine i rfl) hleft
    | abandon i =>
      rcases s.abandon_cases i with ⟨heq, -⟩ | ⟨f, -, heq⟩ <;> rw [Session.perform, heq]
      · exact hleft
      · exact hmodify i _ fun _ => .inr rfl
    | console i => exact hmodify i _ fun _ => .inl rfl
    | settle b σ =>
      refine ⟨?_, hleft.untaken⟩
      change (s.heap.pendings.modify b (·.settle σ)).get? p = some .unsettled
      rw [Store.get?_modify, if_neg, hleft.unsettled]
      rintro rfl
      rw [asked, if_pos rfl] at hasked
      cases hasked
    | setName scope name v =>
      have hperform : ∃ k, (s.perform (.setName scope name v)).2 = { s with heap := k } ∧
          k.pendings = s.heap.pendings := by
        have hpendings := s.pendings_assign scope name v
        unfold perform assign at *
        dsimp only at *
        split at hpendings <;> exact ⟨_, rfl, hpendings⟩
      obtain ⟨k, heq, hk⟩ := hperform
      rw [heq]
      exact ⟨hk ▸ hleft.unsettled, hleft.untaken⟩
    | setEnvironment scope env =>
      exact ⟨pendings_setEnvironment s.heap scope env ▸ hleft.unsettled, hleft.untaken⟩
    | _ => exact ⟨hleft.unsettled, hleft.untaken⟩

/-- What is left to the host waits for the first settlement. -/
theorem settlements_first {turns : List Turn} (hs : Live .any s) (h : s.Plays turns)
    (hp : s.LeftToHost p) :
    (∀ {x later}, s.settlements p turns = x :: later → x.2 = true) ∧
      (s.settlements p turns = [] → (s.after turns).LeftToHost p) := by
  induction turns generalizing s with
  | nil => exact ⟨nofun, fun _ => hp⟩
  | cons turn turns ih =>
    obtain ⟨hturn, hturns⟩ := h
    simp only [settlements]
    rcases asked_cases s p turn with hnone | ⟨σ, rfl, hone⟩
    · rw [hnone]
      exact ih (hs.leads (leads_perform hturn)) hturns (leftToHost_perform hs hturn hnone hp)
    · rw [hone]
      refine ⟨fun {x later} hx => ?_, nofun⟩
      obtain ⟨rfl, -⟩ := List.cons.inj hx
      refine (settle_first (by rw [hp.unsettled]; rfl) ?_ σ).1
      unfold settlement?
      rw [Store.get_of_get? hp.unsettled]
      rfl

theorem handed_after {turns : List Turn} (hs : Live .any s) (h : s.Plays turns) :
    ∀ x ∈ s.handed turns, ∃ σ, (s.after turns).settlement? x.1 = some σ ∧ x.2 = σ.control := by
  induction turns generalizing s with
  | nil => exact nofun
  | cons turn turns ih =>
    obtain ⟨hturn, hturns⟩ := h
    have hlive := hs.leads (leads_perform hturn)
    intro x hx
    rcases List.mem_append.mp hx with hx | hx
    · obtain ⟨σ, hσ, hcontrol⟩ := handed_perform hs hturn x hx
      exact ⟨σ, (settled_lasts hlive hturns hσ).2, hcontrol⟩
    · exact ih hlive hturns x hx

/-- How one value fares while a host has these turns. -/
structure Agrees (s : Session) (turns : List Turn) (p : PendingId) : Prop where
  /-- Once it is settled its settlement does not change, and a host that settles it is told off. -/
  lasts {τ} : s.settlement? p = some τ →
    (s.after turns).settlement? p = some τ ∧ ∀ x ∈ s.settlements p turns, x.2 = false
  /-- Who is told off has changed nothing. -/
  told (σ) : ((s.after turns).settlement? p = none ∧ ((s.after turns).settle p σ).1 = true ∧
      ((s.after turns).settle p σ).2.settlement? p = some σ) ∨
    ((s.after turns).settlement? p).isSome = true ∧
      (s.after turns).settle p σ = (false, s.after turns)
  /-- Only the first of all settlements that are asked for can be the settlement. -/
  once {x later} : s.settlements p turns = x :: later →
    (∀ y ∈ later, y.2 = false) ∧ (x.2 = true → (s.after turns).settlement? p = some x.1)
  /-- If the value does not settle by itself, that is what it is. -/
  first {σ won later} : s.LeftToHost p → s.settlements p turns = (σ, won) :: later → won = true
  /-- A value that does not settle by itself waits for a host to settle it. -/
  waits : s.LeftToHost p → s.settlements p turns = [] → (s.after turns).LeftToHost p
  /-- Every evaluation of every engine that touched the value, or was parked on it, and went on, went on
  with the one settlement that the value has in the end. -/
  handed {control} : (p, control) ∈ s.handed turns →
    ∃ σ, (s.after turns).settlement? p = some σ ∧ control = σ.control
  /-- An evaluation that is parked on the value goes on as soon as it is polled. -/
  resumes {i f τ} : i < (s.after turns).stations.size →
    ((s.after turns).station i).flight = some f → f.pending = p →
    (s.after turns).settlement? p = some τ →
    ((s.after turns).handedParked i).head? = some (p, τ.control)

/-- **One settlement for all.** Whatever a host asks of its engines, and in whatever order, a pending
value has at most one settlement: the first one that the host asks for, and no other. It lasts, and it is
the one that every evaluation goes on with. -/
theorem settlements_agree {turns : List Turn} (hs : Live .any s) (h : s.Plays turns)
    (hp : (s.heap.pendings.get? p).isSome) : s.Agrees turns p := by
  refine ⟨fun hτ => (settled_lasts hs h hτ).symm, fun σ => ?_, settlements_later hs h hp,
    fun hq hx => (settlements_first hs h hq).1 hx, fun hq hx => (settlements_first hs h hq).2 hx,
    handed_after hs h _, fun {i f τ} hi hf hwaits hτ => ?_⟩
  · cases hset : (s.after turns).settlement? p with
    | none => exact .inl ⟨rfl, settle_first (exists_after hs h hp) hset σ⟩
    | some τ => exact .inr ⟨rfl, settle_later hset σ⟩
  · subst hwaits
    have hresume := Machine.resume_waiting (guards_parked (hs.play h).keeps hi hf τ).1 τ
    simp only [handedParked, arrive_of_settlement hf hτ, hf, hτ, hresume]
    rfl

/-- A run that waits for a value, two settlements of the value, and a poll. -/
def settlingTwice : List Turn :=
  [.runUnit 0 readingAnswer, .settle ⟨0, 0⟩ (.fulfilled (.bool true)), .settle ⟨0, 0⟩ (.rejected .undefined),
    .poll 0]

/-- An evaluation that is parked on a value goes on with the first of two settlements. -/
theorem settlements_agree_parked :
    ((awaitingAnswer.after (settlingTwice.take 3)).station 0).flight.map (·.pending) = some ⟨0, 0⟩ ∧
      awaitingAnswer.settlements ⟨0, 0⟩ settlingTwice =
        [(.fulfilled (.bool true), true), (.rejected .undefined, false)] ∧
      awaitingAnswer.handed settlingTwice = [(⟨0, 0⟩, .checkpoint (.bool true))] ∧
      ((awaitingAnswer.after (settlingTwice.take 3)).poll 0).1 = some (.finished (.ok (.bool true))) ∧
      awaitingAnswer.Agrees settlingTwice ⟨0, 0⟩ := by
  have hparked : ∃ q n, (awaitingAnswer.runUnit 0 readingAnswer).1 = .suspended q n := ⟨_, _, rfl⟩
  have hdone : ((awaitingAnswer.after (settlingTwice.take 3)).poll 0).1 =
      some (.finished (.ok (.bool true))) := rfl
  have hplays : awaitingAnswer.Plays settlingTwice := by
    have hengine : ∀ {turn : Turn}, turn.engine? = some 0 → ∀ i, turn.engine? = some i → i < 1 :=
      fun hturn i hi => by
        rw [hturn] at hi
        cases hi
        exact Nat.one_pos
    refine ⟨⟨hengine rfl, fun h => ?_⟩, ⟨nofun, nofun⟩, ⟨nofun, nofun⟩, ⟨hengine rfl, fun h => ?_⟩, ?_⟩
    · obtain ⟨q, n, hq⟩ := hparked
      cases hq.symm.trans (Option.some.inj (Response.answer.inj h))
    · cases hdone.symm.trans (Response.answer.inj h)
    · exact True.intro
  exact ⟨rfl, rfl, rfl, hdone, settlements_agree live_awaitingAnswer hplays rfl⟩

end Session

end Fermata
