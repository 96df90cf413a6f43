import Fermata.Proofs.Realm.Drive
import Fermata.Proofs.Session.Turn
import Fermata.Proofs.Zone.Prune

/-!
# Sessions that are alike in a zone

Two sessions are alike in a zone (`Zone.Alike`) if their heaps are tied by it and the engines that work
there are the same, with the same evaluations parked. A zone apart keeps two sessions alike when they go on
in it (`Zone.Alike.frame`).

* `Zone.Parks`: what a parked evaluation holds.
* `Zone.Spares`: what a turn in the zone leaves of a session.
* `Zone.Alike.seat`: an engine goes on in both sessions.
-/

namespace Fermata

/-! ## Parked evaluations -/

theorem Cont.mem_held {k : Cont} {v : Value} (hv : v ∈ k.held) : v ∈ k.kept ∨ v ∈ k.items := by
  have hloop : ∀ l : Loop, v ∈ l.held → v ∈ [l.last] ∨ v ∈ l.items := by
    intro l hl
    rcases List.mem_cons.mp hl with rfl | hl
    · exact .inl List.mem_cons_self
    · exact .inr hl
  have huse : ∀ use : ReferenceUse, v ∈ use.held → v ∈ use.kept ∨ v ∈ use.items := by
    intro use hu
    cases use with
    | loopItem l item =>
      rcases List.mem_cons.mp hu with rfl | hu
      · exact .inr List.mem_cons_self
      · exact (hloop l hu).imp id (List.mem_cons_of_mem _)
    | _ => cases hu
  have hmember : ∀ use : MemberUse, v ∈ use.held → v ∈ use.kept ∨ v ∈ use.items := by
    intro use hu
    cases use with
    | refer implicit use => exact huse use hu
    | _ => cases hu
  cases k with
  | memberTarget key use => exact hmember use hv
  | memberKey target use =>
    rcases List.mem_cons.mp hv with rfl | hv
    · exact .inl List.mem_cons_self
    · exact (hmember use hv).imp (List.mem_cons_of_mem _) id
  | declare name rest after =>
    cases after with
    | done => cases hv
    | loop l => exact hloop l hv
  | loopInit l | loopTest l | loopBody l | loopUpdate l => exact hloop l hv
  | _ => exact .inl hv

namespace Zone

variable {Y Z : Zone} {mine others : Nat → Prop} {s t s' t' : Session} {i : Nat} {h k : Heap}
  {c d : Core}

/-- A parked evaluation holds what exists in the zone. -/
structure Parks (Z : Zone) (h : Heap) (f : Flight) : Prop where
  safe : (Z.realm h h).Safe f.machine ⟨h, default⟩
  pending : Z.Has h (.pending f.pending)
  taken : ∀ τ, f.taken = some τ → τ.value.Within (Z.Has h)
  held : ∀ x ∈ f.loan.held, Z.cells x

theorem safe_widen {h₀ k₀ h₁ k₁ : Heap} {m : Machine} (hm : (Z.realm h₀ k₀).Safe m c)
    (hlasts : Lasts c.heap d.heap) : (Z.realm h₁ k₁).Safe m d :=
  hm.widen (widens_sight hlasts)

theorem Parks.mono {f : Flight} (hf : Z.Parks h f) (hlasts : Lasts h k) : Z.Parks k f :=
  ⟨safe_widen hf.safe hlasts, hf.pending.mono hlasts, fun τ hτ => hlasts.within (hf.taken τ hτ), hf.held⟩

/-- What a machine in the zone holds is of the zone. -/
theorem cells_machine {h₀ k₀ : Heap} {m : Machine} (hm : (Z.realm h₀ k₀).Safe m c) {x : Cell}
    (hx : x ∈ m.held) : Z.cells x := by
  rcases List.mem_append.mp hx with hx | hx
  · have hcontrol : ∀ ks, (Z.realm h₀ k₀).HasControl c ks m.control → Z.cells x := by
      intro ks hc
      obtain ⟨v, hv, hcell⟩ := List.mem_filterMap.mp hx
      generalize m.control = control at hc hv
      cases control with
      | value w =>
        obtain rfl := List.mem_singleton.mp hv
        exact (hc.elim (fun hc => hc x hcell) fun hc => hc.1 x hcell).1
      | checkpoint w =>
        obtain rfl := List.mem_singleton.mp hv
        exact (hc x hcell).1
      | waiting p =>
        obtain rfl := List.mem_singleton.mp hv
        cases hcell
        exact hc.1
      | abrupt a =>
        cases a with
        | ret w | thrown w =>
          obtain rfl := List.mem_singleton.mp hv
          exact (hc x hcell).1
        | _ => cases hv
      | _ => cases hv
    have htop := hm.control
    cases hstack : m.stack <;> rw [hstack] at htop <;> exact hcontrol _ htop
  · obtain ⟨a, ha, hx⟩ := List.mem_flatMap.mp hx
    have hactivation := hm.stack a ha
    rcases List.mem_cons.mp hx with rfl | hx
    · exact hactivation.scope.1
    · obtain ⟨v, hv, hcell⟩ := List.mem_filterMap.mp hx
      obtain ⟨k, hk, hv⟩ := List.mem_flatMap.mp hv
      have hcont := hactivation.conts k hk
      rcases Cont.mem_held hv with hv | hv
      · exact (hcont.kept v hv x hcell).1
      · exact (hcont.items v hv x hcell).1

end Zone

/-! ## Sessions -/

/-- The stations are at the same point of the same evaluation. -/
structure Station.Abreast (u v : Station) : Prop where
  flight : u.flight = v.flight
  busy : u.busy = v.busy
  stack : u.stack = v.stack

namespace Station.Abreast

variable {u v : Station}

theorem refl (u : Station) : u.Abreast u := ⟨rfl, rfl, rfl⟩

theorem base_eq (h : u.Abreast v) : u.base = v.base := by
  unfold base
  rw [h.flight, h.stack]

theorem left (h : u.Abreast v) : u.left.Abreast v.left := ⟨rfl, rfl, h.base_eq⟩

theorem parking (h : u.Abreast v) (m : Machine) (p : PendingId) (taken : Option Settlement)
    (loan : Loan) : (u.parking m p taken loan).Abreast (v.parking m p taken loan) := by
  unfold Station.parking
  rw [h.base_eq]
  exact ⟨rfl, rfl, rfl⟩

end Station.Abreast

/-- The unit that an engine compiled a source to, by the hash of the source. -/
def Session.compiled? (s : Session) (i : Nat) (hash : String) : Option CodeUnit :=
  ((s.station i).units.lookup hash).bind (s.units[·]?)

namespace Zone

variable {Y Z : Zone} {mine others : Nat → Prop} {s t s' t' : Session} {i : Nat} {c d : Core}

/-- The engines `mine` work in the zone, and do the same in both sessions. -/
structure Alike (Z : Zone) (mine : Nat → Prop) (s t : Session) : Prop where
  ties : Z.Ties s.heap t.heap s.heap t.heap
  size : s.stations.size = t.stations.size
  fuel : s.fuel = t.fuel
  there {j} : mine j → j < s.stations.size
  seats {j} : mine j → Z.Seats s.heap (s.engine j)
  like {j} : mine j → (s.engine j).Like (t.engine j)
  abreast {j} : mine j → (s.station j).Abreast (t.station j)
  parked {j f} : mine j → (s.station j).flight = some f → Z.Parks s.heap f
  compiled {j} : mine j → ∀ hash, s.compiled? j hash = t.compiled? j hash
  cached {j hash n} : mine j → (s.station j).units.lookup hash = some n → n < s.units.size
  cached' {j hash n} : mine j → (t.station j).units.lookup hash = some n → n < t.units.size

/-- What engines `mine` that work in the zone leave of a session. -/
structure Spares (Z : Zone) (mine : Nat → Prop) (s t : Session) : Prop where
  heap : Z.Leaves s.heap t.heap
  station : ∀ j, ¬mine j → t.station j = s.station j
  size : t.stations.size = s.stations.size
  fuel : t.fuel = s.fuel
  pendings : t.pendings = s.pendings
  units : ∀ n < s.units.size, t.units[n]? = s.units[n]?

namespace Spares

theorem refl (s : Session) : Z.Spares mine s s :=
  ⟨.refl _, fun _ _ => rfl, rfl, rfl, rfl, fun _ _ => rfl⟩

theorem units_le (h : Z.Spares mine s t) : s.units.size ≤ t.units.size := by
  by_contra hn
  have hlt := Nat.lt_of_not_le hn
  have heq := h.units _ hlt
  rw [Array.getElem?_eq_none (Nat.le_refl _), Array.getElem?_eq_getElem hlt] at heq
  cases heq

theorem trans {u : Session} (h : Z.Spares mine s t) (h' : Z.Spares mine t u) : Z.Spares mine s u where
  heap := h.heap.trans h'.heap
  station j hj := (h'.station j hj).trans (h.station j hj)
  size := h'.size.trans h.size
  fuel := h'.fuel.trans h.fuel
  pendings := h'.pendings.trans h.pendings
  units n hn := (h'.units n (Nat.lt_of_lt_of_le hn h.units_le)).trans (h.units n hn)

theorem engine (h : Z.Spares mine s t) {j : Nat} (hj : ¬mine j) : t.engine j = s.engine j :=
  congrArg Station.engine (h.station j hj)

/-- Other engines still have what they compiled. -/
theorem compiled?_eq (h : Z.Spares mine s t) {j : Nat} (hj : ¬mine j)
    (hcached : ∀ {hash n}, (s.station j).units.lookup hash = some n → n < s.units.size)
    (hash : String) : t.compiled? j hash = s.compiled? j hash := by
  unfold Session.compiled?
  rw [h.station j hj]
  cases hn : (s.station j).units.lookup hash with
  | none => rfl
  | some n => exact h.units n (hcached hn)

end Spares

namespace Alike

/-- What a session leaves of itself in one zone keeps it alike in another one. -/
theorem frame (hA : Z.Alike mine s t) (hs : Y.Spares others s s') (ht : Y.Spares others t t')
    (hb : Y.Beyond Z) (hmine : ∀ i, mine i → ¬others i) (hprocess : s'.heap.process = t'.heap.process) :
    Z.Alike mine s' t' where
  ties := hA.ties.frame hs.heap ht.heap hb hprocess
  size := hs.size.trans (hA.size.trans ht.size.symm)
  fuel := hs.fuel.trans (hA.fuel.trans ht.fuel.symm)
  there hi := hs.size.symm ▸ hA.there hi
  seats hi := (hs.engine (hmine _ hi)).symm ▸ (hA.seats hi).mono hs.heap.lasts
  like hi := by
    rw [hs.engine (hmine _ hi), ht.engine (hmine _ hi)]
    exact hA.like hi
  abreast hi := by
    rw [hs.station _ (hmine _ hi), ht.station _ (hmine _ hi)]
    exact hA.abreast hi
  parked hi hf := by
    rw [hs.station _ (hmine _ hi)] at hf
    exact (hA.parked hi hf).mono hs.heap.lasts
  compiled hi hash := by
    rw [hs.compiled?_eq (hmine _ hi) (hA.cached hi), ht.compiled?_eq (hmine _ hi) (hA.cached' hi)]
    exact hA.compiled hi hash
  cached hi hn := by
    rw [hs.station _ (hmine _ hi)] at hn
    exact Nat.lt_of_lt_of_le (hA.cached hi hn) hs.units_le
  cached' hi hn := by
    rw [ht.station _ (hmine _ hi)] at hn
    exact Nat.lt_of_lt_of_le (hA.cached' hi hn) ht.units_le

/-- The cores of an engine are related. -/
theorem rel (hA : Z.Alike mine s t) (hi : mine i) :
    Z.Rel s.heap t.heap (s.core i) (t.core i) :=
  ⟨hA.ties, hA.seats hi, hA.like hi⟩

end Alike

/-- Both sessions went on, are alike still, and left what lies outside. -/
structure Passes (Z : Zone) (mine : Nat → Prop) (s t s' t' : Session) : Prop where
  alike : Z.Alike mine s' t'
  left : Z.Spares mine s s'
  right : Z.Spares mine t t'

/-- Both went on from where both had gone on. -/
theorem Passes.trans {u v : Session} (h : Z.Passes mine s t s' t') (h' : Z.Passes mine s' t' u v) :
    Z.Passes mine s t u v :=
  ⟨h'.alike, h.left.trans h'.left, h.right.trans h'.right⟩

namespace Alike

theorem passes (hA : Z.Alike mine s t) : Z.Passes mine s t s t := ⟨hA, .refl s, .refl t⟩

/-- The heaps changed in the zone. -/
theorem withHeap (hA : Z.Alike mine s t) {h k : Heap} (hties : Z.Ties s.heap t.heap h k) :
    Z.Passes mine s t { s with heap := h } { t with heap := k } where
  alike :=
    { ties := hties.anew
      size := hA.size
      fuel := hA.fuel
      there := hA.there
      seats := fun hi => (hA.seats hi).mono hties.lasts
      like := hA.like
      abreast := hA.abreast
      parked := fun hi hf => (hA.parked hi hf).mono hties.lasts
      compiled := hA.compiled
      cached := hA.cached
      cached' := hA.cached' }
  left := ⟨hties.leaves, fun _ _ => rfl, rfl, rfl, rfl, fun _ _ => rfl⟩
  right := ⟨hties.leaves', fun _ _ => rfl, rfl, rfl, rfl, fun _ _ => rfl⟩

/-- One station changed in both sessions. -/
theorem withStation (hA : Z.Alike mine s t) (hi : mine i) {g g' : Station → Station}
    (hseats : Z.Seats s.heap (g (s.station i)).engine)
    (hlike : (g (s.station i)).engine.Like (g' (t.station i)).engine)
    (habreast : (g (s.station i)).Abreast (g' (t.station i)))
    (hparked : ∀ f, (g (s.station i)).flight = some f → Z.Parks s.heap f)
    (hcompiled : ∀ hash, ((g (s.station i)).units.lookup hash).bind (s.units[·]?) =
      ((g' (t.station i)).units.lookup hash).bind (t.units[·]?))
    (hcached : ∀ hash n, (g (s.station i)).units.lookup hash = some n → n < s.units.size)
    (hcached' : ∀ hash n, (g' (t.station i)).units.lookup hash = some n → n < t.units.size) :
    Z.Passes mine s t (s.modifyStation i g) (t.modifyStation i g') := by
  have hs := Session.station_modifyStation (hA.there hi) g
  have ht := Session.station_modifyStation (hA.size ▸ hA.there hi) g'
  have hne : ∀ (u : Session) (f : Station → Station) (j : Nat), j ≠ i →
      (u.modifyStation i f).station j = u.station j := fun u f j hj =>
    Session.station_modifyStation_ne (Ne.symm hj) f
  refine ⟨⟨hA.ties, ?_, hA.fuel, fun hj => ?_, fun {j} hj => ?_, fun {j} hj => ?_, fun {j} hj => ?_,
    fun {j f} hj hf => ?_, fun {j} hj hash => ?_, fun {j hash n} hj hn => ?_,
    fun {j hash n} hj hn => ?_⟩,
    ⟨.refl _, fun j hj => ?_, Session.size_modifyStation .., rfl, rfl, fun _ _ => rfl⟩,
    ⟨.refl _, fun j hj => ?_, Session.size_modifyStation .., rfl, rfl, fun _ _ => rfl⟩⟩
  · rw [Session.size_modifyStation, Session.size_modifyStation, hA.size]
  · rw [Session.size_modifyStation]
    exact hA.there hj
  · unfold Session.engine
    by_cases hji : j = i
    · rw [hji, hs]
      exact hseats
    · rw [hne s g j hji]
      exact hA.seats hj
  · unfold Session.engine
    by_cases hji : j = i
    · rw [hji, hs, ht]
      exact hlike
    · rw [hne s g j hji, hne t g' j hji]
      exact hA.like hj
  · by_cases hji : j = i
    · rw [hji, hs, ht]
      exact habreast
    · rw [hne s g j hji, hne t g' j hji]
      exact hA.abreast hj
  · by_cases hji : j = i
    · rw [hji, hs] at hf
      exact hparked f hf
    · rw [hne s g j hji] at hf
      exact hA.parked hj hf
  · unfold Session.compiled?
    by_cases hji : j = i
    · rw [hji, hs, ht]
      exact hcompiled hash
    · rw [hne s g j hji, hne t g' j hji]
      exact hA.compiled hj hash
  · by_cases hji : j = i
    · rw [hji, hs] at hn
      exact hcached hash n hn
    · rw [hne s g j hji] at hn
      exact hA.cached hj hn
  · by_cases hji : j = i
    · rw [hji, ht] at hn
      exact hcached' hash n hn
    · rw [hne t g' j hji] at hn
      exact hA.cached' hj hn
  · exact hne s g j fun hji => hj (hji ▸ hi)
  · exact hne t g' j fun hji => hj (hji ▸ hi)

/-- One engine is at another place, with something else parked. -/
theorem withEngine (hA : Z.Alike mine s t) (hi : mine i) {g g' : Station → Station}
    (hseats : Z.Seats s.heap (g (s.station i)).engine)
    (hlike : (g (s.station i)).engine.Like (g' (t.station i)).engine)
    (habreast : (g (s.station i)).Abreast (g' (t.station i)))
    (hparked : ∀ f, (g (s.station i)).flight = some f → Z.Parks s.heap f)
    (hunits : ∀ u, (g u).units = u.units) (hunits' : ∀ u, (g' u).units = u.units) :
    Z.Passes mine s t (s.modifyStation i g) (t.modifyStation i g') := by
  refine hA.withStation hi hseats hlike habreast hparked ?_ ?_ ?_
  · rw [hunits, hunits']
    exact hA.compiled hi
  · rw [hunits]
    exact fun _ _ => hA.cached hi
  · rw [hunits']
    exact fun _ _ => hA.cached' hi

/-- One more unit was compiled for an engine. -/
theorem withUnit (hA : Z.Alike mine s t) (hi : mine i) (hash : String) (u : CodeUnit) :
    Z.Passes mine s t
      ((s.addUnit u).2.modifyStation i fun v => { v with units := (hash, s.units.size) :: v.units })
      ((t.addUnit u).2.modifyStation i fun v => { v with units := (hash, t.units.size) :: v.units }) := by
  have hold : ∀ (us : Array CodeUnit) n, n < us.size → (us.push u)[n]? = us[n]? := fun us n hn => by
    rw [Array.getElem?_push, if_neg (Nat.ne_of_lt hn)]
  have hbind : ∀ (us : Array CodeUnit) (o : Option Nat), (∀ n, o = some n → n < us.size) →
      o.bind ((us.push u)[·]?) = o.bind (us[·]?) := by
    intro us o ho
    cases o with
    | none => rfl
    | some n => exact hold us n (ho n rfl)
  have hadded : Z.Passes mine s t (s.addUnit u).2 (t.addUnit u).2 := by
    refine ⟨⟨hA.ties, hA.size, hA.fuel, hA.there, hA.seats, hA.like, hA.abreast, hA.parked,
      fun {j} hj key => ?_, fun hj hn => ?_, fun hj hn => ?_⟩,
      ⟨.refl _, fun _ _ => rfl, rfl, rfl, rfl, fun n hn => hold _ n hn⟩,
      ⟨.refl _, fun _ _ => rfl, rfl, rfl, rfl, fun n hn => hold _ n hn⟩⟩
    · refine (hbind _ _ fun n hn => hA.cached hj hn).trans (.trans ?_
        (hbind _ _ fun n hn => hA.cached' hj hn).symm)
      exact hA.compiled hj key
    · exact Nat.lt_of_lt_of_le (hA.cached hj hn) (Array.size_push .. ▸ Nat.le_succ _)
    · exact Nat.lt_of_lt_of_le (hA.cached' hj hn) (Array.size_push .. ▸ Nat.le_succ _)
  have hnew : ∀ (us : Array CodeUnit), (us.push u)[us.size]? = some u := fun us => by
    rw [Array.getElem?_push, if_pos rfl]
  have hsize : ∀ us : Array CodeUnit, us.size < (us.push u).size := fun us => by
    rw [Array.size_push]
    exact Nat.lt_succ_self _
  have habreast := hadded.alike.abreast hi
  refine hadded.trans (hadded.alike.withStation hi (hadded.alike.seats hi) (hadded.alike.like hi)
    ⟨habreast.flight, habreast.busy, habreast.stack⟩ (fun f => hadded.alike.parked hi) (fun key => ?_) (fun key n hn => ?_)
    fun key n hn => ?_)
  · simp only [List.lookup_cons]
    split
    · exact (hnew s.units).trans (hnew t.units).symm
    · exact hadded.alike.compiled hi key
  · simp only [List.lookup_cons] at hn
    split at hn
    · cases hn
      exact hsize s.units
    · exact hadded.alike.cached hi hn
  · simp only [List.lookup_cons] at hn
    split at hn
    · cases hn
      exact hsize t.units
    · exact hadded.alike.cached' hi hn

/-- What a host keeps in slots is nothing to the engines. -/
theorem withSlots (hA : Z.Alike mine s t) (a b : List (String × Value)) :
    Z.Passes mine s t { s with slots := a } { t with slots := b } :=
  ⟨⟨hA.ties, hA.size, hA.fuel, hA.there, hA.seats, hA.like, hA.abreast, hA.parked, hA.compiled,
      hA.cached, hA.cached'⟩,
    ⟨.refl _, fun _ _ => rfl, rfl, rfl, rfl, fun _ _ => rfl⟩,
    ⟨.refl _, fun _ _ => rfl, rfl, rfl, rfl, fun _ _ => rfl⟩⟩

/-- Nor are the scopes that it holds. -/
theorem withScopes (hA : Z.Alike mine s t) (a b : List ScopeId) :
    Z.Passes mine s t { s with scopes := a } { t with scopes := b } :=
  ⟨⟨hA.ties, hA.size, hA.fuel, hA.there, hA.seats, hA.like, hA.abreast, hA.parked, hA.compiled,
      hA.cached, hA.cached'⟩,
    ⟨.refl _, fun _ _ => rfl, rfl, rfl, rfl, fun _ _ => rfl⟩,
    ⟨.refl _, fun _ _ => rfl, rfl, rfl, rfl, fun _ _ => rfl⟩⟩

/-- The process went on elsewhere in both sessions. -/
theorem elsewhere (hA : Z.Alike mine s t) (process : Process) :
    Z.Passes mine s t (s.elsewhere process) (t.elsewhere process) :=
  hA.withHeap (hA.ties.elsewhere process)

end Alike

/-- The process went on elsewhere. -/
theorem Spares.elsewhere (s : Session) (process : Process) : Z.Spares mine s (s.elsewhere process) :=
  ⟨.elsewhere _ process, fun _ _ => rfl, rfl, rfl, rfl, fun _ _ => rfl⟩

/-- **An engine goes on in both sessions**, on cores that an evaluation cannot tell apart. -/
theorem Alike.seat (hA : Z.Alike mine s t) (hi : mine i) (hrel : Z.Rel s.heap t.heap c d)
    {g : Station → Station} (hg : (g (s.station i)).Abreast (g (t.station i)))
    (hunits : ∀ u, (g u).units = u.units)
    (hf : ∀ f, (g (s.station i)).flight = some f → Z.Parks c.heap f) :
    Z.Passes mine s t (s.seat i c g) (t.seat i d g) := by
  have hheap := hA.withHeap hrel.ties
  exact hheap.trans (hheap.alike.withEngine hi hrel.seats hrel.like ⟨hg.flight, hg.busy, hg.stack⟩ hf
    hunits hunits)

end Zone

end Fermata
