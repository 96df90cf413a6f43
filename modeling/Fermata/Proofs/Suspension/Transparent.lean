import Fermata.Proofs.Suspension.Host

/-!
# Suspension is transparent

A guest cannot tell whether a value was settled before it was touched or while the evaluation waited
for it. A unit runs once with some values unsettled, while the host settles them in any order and
polls whenever it likes, and once with the same values settled from the start. Both runs finish or
none does; they finish with the same result, the same lines on the console and the same heap, as far
as it can be reached.

* `Session.Matches`: two sessions that differ in the traces of waiting alone.
* `Session.runUnit_settled_early`: the two runs.
-/

namespace Fermata

variable {ps qs : List PendingId} {σ : PendingId → Settlement}

/-! ## More fuel -/

namespace Core

/-- A drive that stopped stops at the same place with more fuel. -/
theorem drive_add {stop : Stop} {d' : Core} (k : Nat) (hstop : ∀ m, stop ≠ .outOfFuel m) (n : Nat)
    (m : Machine) (d : Core) (h : d.drive n m = (stop, d')) : d.drive (n + k) m = (stop, d') := by
  induction n generalizing m d with
  | zero => exact absurd (congrArg Prod.fst h).symm (hstop m)
  | succ n ih =>
    rw [Nat.add_right_comm]
    unfold drive at h ⊢
    cases hs : m.step d with
    | mk progress c' =>
      rw [hs] at h
      cases progress with
      | running m' => exact ih m' c' h
      | done outcome => exact h
      | parked m' p =>
        dsimp only at h ⊢
        split at h
        next s _ =>
          split at h
          next hripe =>
            rw [if_pos hripe]
            cases hresume : m'.resume s with
            | ok m'' =>
              rw [hresume] at h
              exact ih _ _ h
            | error fault =>
              rw [hresume] at h
              exact h
          next hripe =>
            rw [if_neg hripe]
            exact h
        next => exact h

/-- Two drives that stopped stopped at the same place. -/
theorem drive_unique {d d' e' : Core} {m : Machine} {stop stop' : Stop} {j k : Nat}
    (hj : d.drive j m = (stop, d')) (hk : d.drive k m = (stop', e'))
    (hstop : ∀ m, stop ≠ .outOfFuel m) (hstop' : ∀ m, stop' ≠ .outOfFuel m) :
    stop = stop' ∧ d' = e' := by
  have hj' := drive_add k hstop j m d hj
  have hk' := drive_add j hstop' k m d hk
  rw [Nat.add_comm, hk'] at hj'
  exact ⟨(congrArg Prod.fst hj').symm, (congrArg Prod.snd hj').symm⟩

end Core

/-! ## Settling first -/

/-- The store with all of these values settled. -/
def Store.settleAll (S : Store .pending Pending) (σ : PendingId → Settlement)
    (ps : List PendingId) : Store .pending Pending :=
  ps.foldl (fun S p => S.modify p (·.settle (σ p))) S

theorem Pending.settle_settle (x : Pending) (s t : Settlement) :
    (x.settle s).settle t = x.settle s := by
  cases x <;> rfl

namespace Store

variable (S : Store .pending Pending)

theorem next_settleAll (region : Nat) : (S.settleAll σ ps).next region = S.next region := by
  induction ps generalizing S with
  | nil => rfl
  | cons p ps ih => exact (ih _).trans (next_modify ..)

theorem get?_settleAll (p : PendingId) :
    (S.settleAll σ ps).get? p =
      if p ∈ ps then (S.get? p).map (·.settle (σ p)) else S.get? p := by
  induction ps generalizing S with
  | nil => rfl
  | cons q ps ih =>
    refine (ih _).trans ?_
    rw [get?_modify]
    by_cases hq : p = q
    · subst hq
      simp only [if_true, List.mem_cons, true_or, Option.map_map]
      split
      · exact congrArg (Option.map · _) (funext fun x => x.settle_settle _ _)
      · rfl
    · simp only [List.mem_cons, hq, false_or, if_false]

/-- Values that are unsettled and the same values, settled. -/
theorem ahead_settleAll (hun : ∀ p ∈ ps, S.get? p = some .unsettled) :
    Ahead ps ps σ S (S.settleAll σ ps) where
  next := S.next_settleAll
  settled p hp := by
    rw [get?_settleAll, if_pos hp, hun p hp]
    rfl
  early p := by
    by_cases hp : p ∈ ps
    · exact .inr ⟨hp, hun p hp⟩
    · rw [get?_settleAll, if_neg hp]
      exact .inl rfl
  late _ hp := hp

end Store

namespace Session

variable {s : Session} {i : Nat}

theorem settleAll_eq (s : Session) (σ : PendingId → Settlement) (ps : List PendingId) :
    s.settleAll σ ps = { s with heap := s.heap.awaiting (s.heap.pendings.settleAll σ ps) } := by
  induction ps generalizing s with
  | nil => rfl
  | cons p ps ih => exact ih _

/-! ## Ending alike -/

/-- Two sessions differ in the traces of waiting alone. What engine `i` and the host hold, `v`
included, is the same in both; a value of `ps` may be unsettled in the first one. -/
structure Matches (σ : PendingId → Settlement) (ps : List PendingId) (i : Nat) (v : Option Value)
    (t t' : Session) : Prop where
  /-- Outside of the heap, only the associations and the record of suspensions can differ. -/
  outside : ∃ links count last, t' =
    { t with heap := t'.heap, fuel := t'.fuel }.modifyStation i fun st =>
      { st with engine := { st.engine with
          links, suspensionCount := count, lastSuspension := last } }
  heap : t.heap.Shows t'.heap
  process : t'.heap.process = t.heap.process
  pendings : ∀ p, t'.heap.pendings.get? p = t.heap.pendings.get? p ∨
    p ∈ ps ∧ t.heap.pendings.get? p = some .unsettled ∧
      t'.heap.pendings.get? p = some (.settled (σ p))
  scopes : ∀ id,
    t.heap.Reaches (t.engine i).links (Cell.ofValues v.toList ++ t.roots i) (.scope id) →
    t'.heap.scopes.get? id = t.heap.scopes.get? id
  closures : ∀ id,
    t.heap.Reaches (t.engine i).links (Cell.ofValues v.toList ++ t.roots i) (.closure id) →
    (t'.engine i).links.definingScope? t'.heap id = (t.engine i).links.definingScope? t.heap id
  /-- If the host holds the settlements, nothing at all is lost on either side. -/
  whole : (∀ p ∈ ps, ∀ c ∈ Cell.ofValues [(σ p).value], c ∈ t.roots i) →
    (∀ id, t'.heap.scopes.get? id = t.heap.scopes.get? id) ∧
      (t'.engine i).links = (t.engine i).links

/-- The guest wrote the same lines. -/
theorem Matches.console {v : Option Value} {t t' : Session} (h : Matches σ ps i v t t') :
    (t'.engine i).console = (t.engine i).console := by
  obtain ⟨links, count, last, ht⟩ := h.outside
  rw [ht]
  by_cases hi : i < t.stations.size
  · simp only [engine]
    rw [station_modifyStation (s := { t with heap := t'.heap, fuel := t'.fuel }) hi]
    rfl
  · have hnone : t.stations[i]? = none := Array.getElem?_eq_none (Nat.le_of_not_lt hi)
    simp only [engine, station, modifyStation, Array.getElem?_modify, if_true, hnone,
      Option.map_none]

theorem leaving_eq (s : Session) (i : Nat) (H h k : Heap) (n : Nat) (e : Engine) (links : Links)
    (count : Nat) (last : Option Suspension) :
    ({ s with heap := H, fuel := n } : Session).leaving i
        ⟨k, { e with links, suspensionCount := count, lastSuspension := last }⟩ =
      { s.leaving i ⟨h, e⟩ with heap := k, fuel := n }.modifyStation i fun st =>
        { st with engine := { st.engine with
            links, suspensionCount := count, lastSuspension := last } } :=
  (modifyStation_modifyStation { s with heap := k, fuel := n } i
    (fun t => { t.left with engine := e })
    fun st => { st with engine := { st.engine with
      links, suspensionCount := count, lastSuspension := last } }).symm

theorem report_shows {h k : Heap} (hk : h.Shows k) (outcome : Outcome) :
    Core.report k outcome = Core.report h outcome := by
  cases outcome with
  | ok v => rfl
  | error x =>
    cases x with
    | thrown v => simp only [Core.report, hk.ofThrown]
    | _ => rfl

/-- Twins leave sessions that match. -/
theorem ended_match {rs : List PendingId} {c d : Core} {held : List Cell} {v : Option Value}
    (hi : i < s.stations.size) (htwin : Twin ps rs σ c d)
    (hown : c.engine.own = (s.engine i).own)
    (hheld : ∀ x ∈ Cell.ofValues v.toList ++ s.roots i, x ∈ held) (H : Heap) (n : Nat) :
    Matches σ ps i v (s.leaving i (c.ended held))
      (({ s with heap := H, fuel := n } : Session).leaving i (d.ended held)) := by
  obtain ⟨P, w, count, last, rfl, ha⟩ := htwin
  have hroots : (s.leaving i (c.ended held)).roots i = s.roots i := roots_leaving hown
  have hlinks := engine_leaving hi (c.ended held)
  have hlinks' := engine_leaving (s := { s with heap := H, fuel := n }) hi
    ((c.apart P w count last).ended held)
  -- what is behind the roots afterwards was held from outside before
  have hkept : ∀ x, (c.ended held).heap.Reaches (c.ended held).engine.links
      (Cell.ofValues v.toList ++ s.roots i) x → c.heap.Kept c.engine.links held x := by
    intro x hx
    have hbefore := Heap.Reaches.of_prune hx
    exact (hbefore.mono (fun _ hin => hin) (fun d hd hin => .root (hheld d hd) hin)
      fun _ _ _ hd => hd).kept
  constructor
  case outside =>
    exact ⟨_, count, last, leaving_eq s i H (c.ended held).heap
      ((c.apart P w count last).ended held).heap n (c.ended held).engine
      ((c.apart P w count last).ended held).engine.links count last⟩
  case heap => exact Ahead.shows_prune P
  case process =>
    exact (congrArg Heap.process (Heap.prune_eq ..)).trans
      (congrArg Heap.process (c.heap.prune_eq c.engine.links held)).symm
  case pendings =>
    intro p
    change ((c.heap.awaiting P).prune _ held).2.pendings.get? p =
      (c.heap.prune _ held).2.pendings.get? p ∨ _ ∧
      (c.heap.prune _ held).2.pendings.get? p = _ ∧
      ((c.heap.awaiting P).prune _ held).2.pendings.get? p = _
    rw [Heap.pendings_prune, Heap.pendings_prune]
    exact (ha.early p).imp Eq.symm fun hp => ⟨ha.late p hp.1, hp.2, ha.settled p (ha.late p hp.1)⟩
  case scopes =>
    intro id hid
    rw [hlinks, hroots] at hid
    exact ha.get?_prune (hkept _ hid)
  case closures =>
    intro id hid
    rw [hlinks, hroots] at hid
    rw [hlinks, hlinks']
    exact ha.definingScope?_prune (hkept _ hid)
  case whole =>
    intro hσ
    rw [hroots] at hσ
    rw [hlinks, hlinks']
    have hin : ∀ p ∈ ps, ∀ c ∈ Cell.ofValues [(σ p).value], c ∈ held := fun p hp c hc =>
      hheld c (List.mem_append_right _ (hσ p hp c hc))
    exact ⟨ha.get?_prune_all hin, ha.prune_links_all hin⟩

/-- Twins end an evaluation alike. -/
theorem finish_match {rs : List PendingId} {c d : Core} (hi : i < s.stations.size)
    (htwin : Twin ps rs σ c d) (hown : c.engine.own = (s.engine i).own) (outcome : Outcome)
    (H : Heap) (n : Nat) :
    (d.finish outcome (s.roots i)).1 = (c.finish outcome (s.roots i)).1 ∧
      Matches σ ps i (c.finish outcome (s.roots i)).1.toOption
        (s.leaving i (c.finish outcome (s.roots i)).2)
        (({ s with heap := H, fuel := n } : Session).leaving i
          (d.finish outcome (s.roots i)).2) := by
  rw [Core.finish_eq, Core.finish_eq]
  have hshow : ∀ held, (c.ended held).heap.Shows (d.ended held).heap := by
    intro held
    obtain ⟨P, w, count, last, rfl, -⟩ := htwin
    exact Ahead.shows_prune P
  refine ⟨report_shows (hshow _) outcome, ended_match hi htwin hown (fun x hx => ?_) H n⟩
  -- a value that is handed to the host was held while the evaluation ended
  rcases List.mem_append.mp hx with hx | hx
  · refine List.mem_append_left _ ?_
    cases outcome with
    | ok v => exact hx
    | error x => cases x <;> exact absurd hx List.not_mem_nil
  · exact List.mem_append_right _ hx

/-! ## Both runs -/

theorem runUnit_idle {s : Session} (hidle : (s.station i).isBusy = false) (u : CodeUnit) :
    s.runUnit i u =
      let start := Machine.start (Act.openUnit u (s.engine i).root) (s.armed i)
      let stop := start.2.drive s.fuel start.1
      s.settleStop i {} stop.1 stop.2 := by
  simp only [runUnit, evaluate, hidle, Bool.false_eq_true, if_false]

theorem runUnit_busy {s : Session} (hbusy : (s.station i).isBusy = true) (u : CodeUnit) :
    s.runUnit i u = (.finished (.error .busy), s) := by
  simp only [runUnit, evaluate, hbusy, if_true]

/-- A unit begins, and the drive of a twin keeps pace with it. -/
theorem runUnit_attends (u : CodeUnit) (hidle : (s.station i).isBusy = false)
    (hun : ∀ p ∈ ps, s.heap.pendings.get? p = some .unsettled) :
    ∃ m d, (∀ n, Attends (s.withFuel n) i ps σ m d ps ps
        ((s.withFuel n).runUnit i u)) ∧
      ∀ n, ((s.withFuel n).settleAll σ ps).runUnit i u =
        ((s.withFuel n).settleAll σ ps).settleStop i {} (d.drive n m).1
          (d.drive n m).2 := by
  have hahead := s.heap.pendings.ahead_settleAll (σ := σ) hun
  let c := s.armed i
  let d := c.apart (s.heap.pendings.settleAll σ ps) .armed c.engine.suspensionCount
    c.engine.lastSuspension
  have hrel : (twinLaw ps ps σ (s.armed i).engine.footing).rel [] c d :=
    ⟨⟨_, _, _, _, rfl, hahead⟩, rfl, rfl, rfl⟩
  have hopen : (twinLaw ps ps σ (s.armed i).engine.footing).Keeps [] (Act.openUnit u (s.engine i).root)
      (Move.frames []) [] :=
    (Law.openFrame _ _ _).weaken fun _ _ h => h
  obtain ⟨hsame, hstart⟩ := Law.start (hopen c d hrel)
  have hplaced := Atlas.start (A := .any) (c := c) (p := Act.openUnit u (s.engine i).root)
    (Atlas.openFrame fun _ _ => trivial)
  refine ⟨(Machine.start (Act.openUnit u (s.engine i).root) c).1,
    (Machine.start (Act.openUnit u (s.engine i).root) d).2, fun n => ?_, fun n => ?_⟩
  · rw [runUnit_idle (s := s.withFuel n) hidle]
    refine attends_settleStop (k := 0) (fun _ _ _ _ => rfl) (fun _ => rfl) rfl (fun j => ?_)
      (Core.drive_pace n _ _ _ hstart hplaced)
    rw [Nat.zero_add]
    rfl
  · rw [settleAll_eq, hsame]
    exact runUnit_idle (s := { s with heap := _, fuel := n }) hidle u

theorem attend_finished (σ : PendingId → Settlement) (i : Nat) (r : Except EngineError Value)
    (t : Session) (moves : List HostMove) :
    attend σ i (.finished r, t) moves = (.finished r, t) := by
  induction moves with
  | nil => rfl
  | cons move moves ih => cases move <;> exact ih

/-- A busy engine refuses both times. -/
theorem matches_settleAll (v : Option Value)
    (hun : ∀ p ∈ ps, s.heap.pendings.get? p = some .unsettled) (n k : Nat) :
    Matches σ ps i v (s.withFuel n) ((s.withFuel k).settleAll σ ps) := by
  rw [settleAll_eq]
  have hahead := s.heap.pendings.ahead_settleAll (σ := σ) hun
  refine ⟨⟨(s.engine i).links, (s.engine i).suspensionCount, (s.engine i).lastSuspension, ?_⟩,
    ⟨rfl, rfl, rfl, rfl⟩, rfl, fun p => ?_, fun _ _ => rfl, fun _ _ => rfl, fun _ => ⟨fun _ => rfl, rfl⟩⟩
  · have hid : s.stations.modify i (fun st => { st with engine := { st.engine with
        links := (s.engine i).links, suspensionCount := (s.engine i).suspensionCount
        lastSuspension := (s.engine i).lastSuspension } }) = s.stations := by
      refine Array.ext_getElem? fun j => ?_
      rw [Array.getElem?_modify]
      by_cases hj : i = j
      · subst hj
        cases ht : s.stations[i]? with
        | none => rw [if_pos rfl, Option.map_none]
        | some t =>
          have hst : s.engine i = t.engine := by simp [engine, station, ht]
          rw [if_pos rfl, Option.map_some, hst]
      · rw [if_neg hj]
    exact congrArg (fun stations : Array Station => ({ s with
      heap := s.heap.awaiting (s.heap.pendings.settleAll σ ps), stations, fuel := k } : Session))
      hid.symm
  · rcases hahead.early p with heq | ⟨hp, hp'⟩
    · exact .inl heq.symm
    · exact .inr ⟨hp, hp', hahead.settled p hp⟩

section

variable {m : Machine} {d : Core} {u : CodeUnit}

/-- A drive of a twin that is done, and a host that is done, end alike. -/
theorem settled_match {c d' : Core} {rs : List PendingId} (outcome : Outcome)
    (hi : i < s.stations.size) (htwin : Twin ps rs σ c d')
    (hown : c.engine.own = (s.engine i).own) (n k : Nat) :
    ∃ t', ((s.withFuel k).settleAll σ ps).settleStop i {} (.done outcome) d' =
        (.finished (c.finish outcome (s.roots i)).1, t') ∧
      Matches σ ps i (c.finish outcome (s.roots i)).1.toOption
        ((s.withFuel n).leaving i (c.finish outcome (s.roots i)).2) t' := by
  obtain ⟨hresult, hmatch⟩ := finish_match (s := s.withFuel n) hi htwin hown outcome
    (s.heap.awaiting (s.heap.pendings.settleAll σ ps)) k
  refine ⟨_, ?_, hmatch⟩
  rw [settleAll_eq, settleStop_done, List.nil_append]
  exact congrArg (fun r => (Answer.finished r, _)) hresult

/-- A host that is done was not quicker than a run with all values settled. -/
theorem attend_early (hi : i < s.stations.size)
    (hfirst : ∀ n, Attends (s.withFuel n) i ps σ m d ps ps
      ((s.withFuel n).runUnit i u))
    (hsecond : ∀ n, ((s.withFuel n).settleAll σ ps).runUnit i u =
      ((s.withFuel n).settleAll σ ps).settleStop i {} (d.drive n m).1
        (d.drive n m).2)
    {n : Nat} {moves : List HostMove} {r : Except EngineError Value} {t : Session}
    (hmoves : ∀ p, .settle p ∈ moves → p ∈ ps)
    (hend : attend σ i ((s.withFuel n).runUnit i u) moves = (.finished r, t)) :
    ∃ k t', ((s.withFuel k).settleAll σ ps).runUnit i u = (.finished r, t') ∧
      Matches σ ps i r.toOption t t' := by
  obtain ⟨rs, -, hat⟩ := attend_spec (s := s.withFuel n) hi moves hmoves (fun p hp => hp) (hfirst n)
  rw [hend] at hat
  cases hat with
  | @finished outcome c' d' rs k hdrive htwin hft =>
    obtain ⟨t', hsettled, hmatch⟩ := settled_match (s := s) outcome hi htwin (congrArg Footing.own hft) n k
    refine ⟨k, t', ?_, hmatch⟩
    rw [hsecond, hdrive]
    exact hsettled

/-- A run with all values settled that is done makes every host done that settles them and polls. -/
theorem attend_late (hi : i < s.stations.size)
    (hfirst : ∀ n, Attends (s.withFuel n) i ps σ m d ps ps
      ((s.withFuel n).runUnit i u))
    (hsecond : ∀ n, ((s.withFuel n).settleAll σ ps).runUnit i u =
      ((s.withFuel n).settleAll σ ps).settleStop i {} (d.drive n m).1
        (d.drive n m).2)
    {n : Nat} {before after : List HostMove} {r : Except EngineError Value} {t' : Session}
    (hmoves : ∀ p, .settle p ∈ before → p ∈ ps) (hall : ∀ p ∈ ps, .settle p ∈ before)
    (hend : ((s.withFuel n).settleAll σ ps).runUnit i u = (.finished r, t')) :
    ∃ t, attend σ i ((s.withFuel n).runUnit i u) (before ++ .poll :: after) =
        (.finished r, t) ∧ Matches σ ps i r.toOption t t' := by
  obtain ⟨outcome, d', hdone⟩ : ∃ outcome d', d.drive n m = (.done outcome, d') := by
    rw [hsecond] at hend
    cases hd : d.drive n m with
    | mk stop d' =>
      rw [hd] at hend
      cases stop with
      | done outcome => exact ⟨outcome, d', rfl⟩
      | parked m' p => cases hend
      | outOfFuel m' => cases hend
  obtain ⟨rs, hrs, hat⟩ :=
    attend_spec (s := s.withFuel n) hi before hmoves (fun p hp => hp) (hfirst n)
  have hnone : ∀ p, p ∉ rs := fun p hp => (hrs p hp).2 (hall p (hrs p hp).1)
  -- nothing is left to wait for after the poll
  have hpolled := attends_poll (s := s.withFuel n) hi hat
  rw [attend, List.foldl_append, List.foldl_cons]
  change ∃ t, attend σ i (attendOnce σ i (attend σ i _ before) .poll) after = _ ∧ _
  generalize attendOnce σ i (attend σ i _ before) .poll = answer at hpolled ⊢
  cases hpolled with
  | @finished outcome' c' e' rs' k hdrive htwin hft =>
    obtain ⟨hsame, rfl⟩ := Core.drive_unique hdone hdrive nofun nofun
    cases hsame
    obtain ⟨t'', hsettled, hmatch⟩ := settled_match (s := s) outcome hi htwin (congrArg Footing.own hft) n n
    rw [hsecond, hdone, hsettled] at hend
    cases hend
    exact ⟨_, attend_finished σ i _ _ after, hmatch⟩
  | waits _ _ hp => exact absurd hp (hnone _)
  | stuck hdrive =>
    obtain ⟨hsame, -⟩ := Core.drive_unique hdone hdrive nofun nofun
    cases hsame
  | @outOfFuel t m' e' k hk hdrive =>
    obtain ⟨j, rfl⟩ := Nat.exists_eq_add_of_le hk
    have hnot : ∀ m, Core.Stop.done outcome ≠ .outOfFuel m := nofun
    have hmore := Core.drive_add j hnot n m d hdone
    cases hmore.symm.trans hdrive

end

/-- **Suspension is transparent.** Whatever the host does while it waits, if the evaluation finishes
then the evaluation of values settled from the start finishes with the same result; and if that one
finishes, so does every evaluation whose host settles all values and polls once more. -/
theorem runUnit_settled_early (s : Session) (i : Nat) (hi : i < s.stations.size) (u : CodeUnit)
    (σ : PendingId → Settlement) (ps : List PendingId)
    (hun : ∀ p ∈ ps, s.heap.pendings.get? p = some .unsettled) :
    (∀ n moves r t, (∀ p, .settle p ∈ moves → p ∈ ps) →
      attend σ i ((s.withFuel n).runUnit i u) moves = (.finished r, t) →
      ∃ k t', ((s.withFuel k).settleAll σ ps).runUnit i u = (.finished r, t') ∧
        Matches σ ps i r.toOption t t') ∧
    ∀ n before after r t', (∀ p, .settle p ∈ before ++ after → p ∈ ps) →
      (∀ p ∈ ps, .settle p ∈ before) →
      ((s.withFuel n).settleAll σ ps).runUnit i u = (.finished r, t') →
      ∃ t, attend σ i ((s.withFuel n).runUnit i u) (before ++ .poll :: after) =
          (.finished r, t) ∧ Matches σ ps i r.toOption t t' := by
  cases hbusy : (s.station i).isBusy with
  | true =>
    have hrefused : ∀ n, (s.withFuel n).runUnit i u =
        (.finished (.error .busy), s.withFuel n) := fun n =>
      runUnit_busy (s := s.withFuel n) hbusy u
    have hrefused' : ∀ n, ((s.withFuel n).settleAll σ ps).runUnit i u =
        (.finished (.error .busy), (s.withFuel n).settleAll σ ps) := fun n => by
      rw [settleAll_eq]
      exact runUnit_busy (s := { s with heap := _, fuel := n }) hbusy u
    refine ⟨fun n moves r t _ hend => ?_, fun n before after r t' _ _ hend => ?_⟩
    · rw [hrefused, attend_finished] at hend
      cases hend
      exact ⟨n, _, hrefused' n, matches_settleAll _ hun n n⟩
    · rw [hrefused'] at hend
      cases hend
      rw [hrefused, attend_finished]
      exact ⟨_, rfl, matches_settleAll _ hun n n⟩
  | false =>
    obtain ⟨m, d, hfirst, hsecond⟩ := runUnit_attends (σ := σ) u hbusy hun
    refine ⟨fun n moves r t hmoves hend => attend_early hi hfirst hsecond hmoves hend,
      fun n before after r t' hmoves hall hend => ?_⟩
    exact attend_late hi hfirst hsecond (fun p hp => hmoves p (List.mem_append_left _ hp)) hall hend

/-- Polled too early, the evaluation still waits; settled, it has the value. -/
theorem runUnit_answer_settled_early :
    ∃ t k t', attend (fun _ => .fulfilled (.bool true)) 0
        ((awaitingAnswer.withFuel 30).runUnit 0 readingAnswer)
        [.poll, .settle ⟨0, 0⟩, .poll] = (.finished (.ok (.bool true)), t) ∧
      ((awaitingAnswer.withFuel k).settleAll (fun _ => .fulfilled (.bool true)) [⟨0, 0⟩]).runUnit 0
        readingAnswer = (.finished (.ok (.bool true)), t') ∧
      Matches (fun _ => .fulfilled (.bool true)) [⟨0, 0⟩] 0 (some (.bool true)) t t' := by
  have hun : ∀ p ∈ [(⟨0, 0⟩ : PendingId)],
      awaitingAnswer.heap.pendings.get? p = some .unsettled := by
    intro p hp
    rw [List.mem_singleton.mp hp]
    rfl
  obtain ⟨t, ht⟩ : ∃ t, attend (fun _ => .fulfilled (.bool true)) 0
      ((awaitingAnswer.withFuel 30).runUnit 0 readingAnswer)
      [.poll, .settle ⟨0, 0⟩, .poll] = (.finished (.ok (.bool true)), t) :=
    ⟨_, Prod.ext rfl rfl⟩
  have hboth := runUnit_settled_early awaitingAnswer 0 (by decide) readingAnswer
    (fun _ => .fulfilled (.bool true)) [⟨0, 0⟩] hun
  obtain ⟨k, t', ht', hmatch⟩ := hboth.1 30 [.poll, .settle ⟨0, 0⟩, .poll] _ t (by simp) ht
  exact ⟨t, k, t', ht, ht', hmatch⟩

end Session

end Fermata
