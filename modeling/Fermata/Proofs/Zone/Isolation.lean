import Fermata.Proofs.Zone.Pair

/-!
# Engines are isolated

A host has turns with two engines that share nothing, in any order. As long as it hands over to each of them
only what belongs to it, one thing only is shared: the process, in which pending values are numbered and
become ready. In a process that goes on as far, neither engine can tell whether the host has turns with the
other one: the replies to its turns, what becomes of it and everything that belongs to it are what they are
when only its own turns happen. A guest can see the numbers, as the text of a pending value has one
(`object_to_string`), so this is as far as it goes.

The proof plays all turns on one session and those of one engine on another. The two stay alike in the zone
of that engine, while the zone of the other one stays closed on both (`Pair.Mirrors`). So only what does not
belong to the other engine leads to what does not, and pruning keeps the same.

* `Pair.Mirrors.own`, `Pair.Mirrors.other`: one turn.
* `Pair.Mirrors.play`: all of them.
* `Pair.isolated`: how an engine fares.

Left out: engines that hand values to each other through the host.
-/

namespace Fermata

namespace Turn

/-- The slot that a turn is about. -/
def slot? : Turn → Option String
  | keep slot _ | forget slot => some slot
  | _ => none

/-- What the host has in its slots after the turn. -/
def keeping : Turn → List (String × Value) → List (String × Value)
  | keep slot v, slots => (slot, v) :: slots.filter (·.1 != slot)
  | forget slot, slots => slots.filter (·.1 != slot)
  | _, slots => slots

/-- The scopes that the host holds after the turn. -/
def holding : Turn → List ScopeId → List ScopeId
  | hold scope, scopes => scope :: scopes
  | release scope, scopes => scopes.erase scope
  | _, scopes => scopes

end Turn

namespace Session

variable {s t : Session} {i : Nat} {x : Cell}

/-! ## What the host holds -/

/-- The slots of the host and the scopes that it holds. -/
def holdings (s : Session) : List (String × Value) × List ScopeId := (s.slots, s.scopes)

theorem holdings_settleStop (loan : Loan) (stop : Core.Stop) (c : Core) :
    (s.settleStop i loan stop c).2.holdings = s.holdings := by
  cases stop <;> rfl

theorem holdings_evaluate (act : Act Move) (loan : Loan) :
    (s.evaluate i act loan).2.holdings = s.holdings := by
  unfold evaluate
  split
  · rfl
  · exact holdings_settleStop ..

theorem holdings_poll : (s.poll i).2.holdings = s.holdings := by
  have harrive : (s.arrive i).holdings = s.holdings := by
    unfold arrive
    split
    · rfl
    · split
      · rfl
      · split <;> rfl
  unfold poll goOn
  split
  · exact harrive
  · dsimp only
    split
    · exact harrive
    · exact (holdings_settleStop ..).trans harrive

/-- Evaluations leave what the host holds alone. -/
theorem holdings_perform (s : Session) (turn : Turn) :
    (s.perform turn).2.holdings = (turn.keeping s.slots, turn.holding s.scopes) := by
  cases hask : s.ask? turn with
  | some a =>
    have hasks := asks hask
    have hturn : (turn.keeping s.slots, turn.holding s.scopes) = s.holdings := by
      cases turn with
      | keep | forget | hold | release => cases hask
      | _ => rfl
    rw [hasks.perform, holdings_evaluate, hturn]
    rcases hasks.compiled with heq | ⟨source, id, hc⟩
    · rw [heq]
    · rcases compile_cases hc with heq | ⟨u, units, heq⟩
      · rw [heq]
      · rw [heq]
        rfl
  | none =>
    cases turn with
    | poll i => exact holdings_poll
    | abandon i =>
      unfold perform abandon
      dsimp only
      split <;> rfl
    | setName scope name v =>
      unfold perform assign
      dsimp only
      split <;> rfl
    | run i source | call i fn this args | evalIn i scope code =>
      cases unasked hask with
      | refused heq => rw [heq]; rfl
    | runUnit i u => cases hask
    | _ => rfl

theorem slots_perform (s : Session) (turn : Turn) :
    (s.perform turn).2.slots = turn.keeping s.slots :=
  congrArg Prod.fst (holdings_perform s turn)

theorem scopes_perform (s : Session) (turn : Turn) :
    (s.perform turn).2.scopes = turn.holding s.scopes :=
  congrArg Prod.snd (holdings_perform s turn)

/-! ## Roots -/

theorem station_of_getElem? {j : Nat} {u : Station} (h : s.stations[j]? = some u) :
    j < s.stations.size ∧ s.station j = u :=
  ⟨(Array.getElem?_eq_some_iff.mp h).1, congrArg (Option.getD · default) h⟩

theorem getElem?_station {j : Nat} (hj : j < s.stations.size) :
    s.stations[j]? = some (s.station j) := by
  unfold station
  rw [Array.getElem?_eq_getElem hj, Option.getD_some]

theorem mem_roots : x ∈ s.roots i ↔
    (∃ e ∈ s.slots, Cell.ofValue? e.2 = some x) ∨ (∃ e ∈ s.pendings, Cell.pending e.2 = x) ∨
      (∃ scope ∈ s.scopes, Cell.scope scope = x) ∨
        (∃ j < s.stations.size, x ∈ (s.station j).own) ∨
          ∃ j < s.stations.size, j ≠ i ∧
            x ∈ Heap.tableScopes (s.engine j).links ++ (s.station j).inFlight := by
  have hown : x ∈ s.stations.toList.flatMap Station.own ↔
      ∃ j < s.stations.size, x ∈ (s.station j).own := by
    rw [List.mem_flatMap]
    constructor
    · rintro ⟨u, hu, hx⟩
      obtain ⟨j, hj⟩ := Array.getElem?_of_mem (Array.mem_toList_iff.mp hu)
      obtain ⟨hlt, rfl⟩ := station_of_getElem? hj
      exact ⟨j, hlt, hx⟩
    · rintro ⟨j, hj, hx⟩
      exact ⟨_, Array.mem_toList_iff.mpr (Array.mem_of_getElem? (getElem?_station hj)), hx⟩
  have hforeign : x ∈ s.foreignRoots i ↔ ∃ j < s.stations.size, j ≠ i ∧
      x ∈ Heap.tableScopes (s.engine j).links ++ (s.station j).inFlight := by
    unfold foreignRoots
    simp only [List.mem_flatMap, Prod.exists, List.mem_zipIdx_iff_getElem?, Array.getElem?_toList]
    constructor
    · rintro ⟨u, j, hj, hx⟩
      obtain ⟨hlt, rfl⟩ := station_of_getElem? hj
      split at hx
      · cases hx
      · exact ⟨j, hlt, ‹_›, hx⟩
    · rintro ⟨j, hj, hne, hx⟩
      exact ⟨_, j, getElem?_station hj, by rw [if_neg hne]; exact hx⟩
  unfold roots
  simp only [List.mem_append, hown, hforeign, Cell.ofValues, List.mem_filterMap, List.mem_map,
    exists_exists_and_eq_and, or_assoc]

/-- What is held from outside of a session is held from outside of another one, or it is of `O`. -/
theorem mem_roots_or {O : Cell → Prop} (hsize : s.stations.size = t.stations.size)
    (hpendings : s.pendings = t.pendings) (hslots : ∀ e ∈ s.slots, e ∈ t.slots ∨ e.2.Within O)
    (hscopes : ∀ scope ∈ s.scopes, scope ∈ t.scopes ∨ O (.scope scope))
    (hown : ∀ j, (s.station j).own = (t.station j).own ∨ ∀ y ∈ (s.station j).own, O y)
    (hheld : ∀ j, j ≠ i → s.station j = t.station j ∨
      ∀ y ∈ Heap.tableScopes (s.engine j).links ++ (s.station j).inFlight, O y)
    (hx : x ∈ s.roots i) : x ∈ t.roots i ∨ O x := by
  rw [mem_roots] at hx ⊢
  rcases hx with ⟨e, he, hcell⟩ | ⟨e, he, hcell⟩ | ⟨scope, hmem, rfl⟩ | ⟨j, hj, hmem⟩ | ⟨j, hj, hne, hmem⟩
  · rcases hslots e he with ht | ho
    · exact .inl (.inl ⟨e, ht, hcell⟩)
    · exact .inr (ho x hcell)
  · exact .inl (.inr (.inl ⟨e, hpendings ▸ he, hcell⟩))
  · exact (hscopes scope hmem).imp_left fun ht => .inr (.inr (.inl ⟨scope, ht, rfl⟩))
  · rcases hown j with heq | ho
    · exact .inl (.inr (.inr (.inr (.inl ⟨j, hsize ▸ hj, heq ▸ hmem⟩))))
    · exact .inr (ho x hmem)
  · rcases hheld j hne with heq | ho
    · refine .inl (.inr (.inr (.inr (.inr ⟨j, hsize ▸ hj, hne, ?_⟩))))
      unfold engine at hmem ⊢
      rwa [← heq]
    · exact .inr (ho x hmem)

/-- The replies to the turns of one engine, while both have their turns. -/
def repliesTo (s : Session) (b : Bool) : List (Bool × Turn) → List Response
  | [] => []
  | turn :: turns =>
    if turn.1 = b then (s.perform turn.2).1 :: (s.perform turn.2).2.repliesTo b turns
    else (s.perform turn.2).2.repliesTo b turns

/-- The turns of one engine when the other one is not there. Where that one had its turns, the process goes
on elsewhere, as far as it went on then. -/
def without (s : Session) (b : Bool) : List (Bool × Turn) → List (Bool × Turn)
  | [] => []
  | turn :: turns =>
    (turn.1, if turn.1 = b then turn.2 else .elsewhere (s.perform turn.2).2.heap.process) ::
      (s.perform turn.2).2.without b turns

end Session

namespace Pair

variable {P : Pair} {b : Bool} {s t : Session} {turn : Turn}

/-- A turn is a turn of an engine: it is addressed to no other one, and hands over nothing but what belongs
to the engine and exists by then. -/
structure Admits (P : Pair) (b : Bool) (s : Session) (turn : Turn) : Prop where
  engine : ∀ i, turn.engine? = some i → i = P.index b
  supplied : ∀ x ∈ turn.supplied, P.cells b x ∧ s.heap.contains x = true
  slot : ∀ n, turn.slot? = some n → P.owner n = some b

/-- All of these turns are turns of the engine that they are meant for. -/
def Admitted (P : Pair) (s : Session) : List (Bool × Turn) → Prop
  | [] => True
  | turn :: turns => P.Admits turn.1 s turn.2 ∧ P.Admitted (s.perform turn.2).2 turns

/-! ## What one turn keeps -/

/-- The host has nothing of another engine in the slots of an engine. -/
def Sorted (P : Pair) (b : Bool) (slots : List (String × Value)) : Prop :=
  ∀ e ∈ slots, P.owner e.1 = some b → e.2.Within (P.cells b)

/-- The slots that are not for an engine. -/
def rest (P : Pair) (b : Bool) (slots : List (String × Value)) : List (String × Value) :=
  slots.filter (P.owner ·.1 != some b)

variable {slots slots' : List (String × Value)} {e : String × Value}

theorem mem_rest : e ∈ P.rest b slots ↔ e ∈ slots ∧ P.owner e.1 ≠ some b := by
  rw [rest, List.mem_filter, bne_iff_ne]

/-- What the host keeps for one engine is nothing to the slots that are not for that engine. -/
theorem rest_keeping (hslot : ∀ n, turn.slot? = some n → P.owner n = some b) :
    P.rest b (turn.keeping slots) = P.rest b slots := by
  have hfilter : ∀ n, P.owner n = some b →
      P.rest b (slots.filter (·.1 != n)) = P.rest b slots := by
    intro n hn
    unfold rest
    rw [List.filter_filter]
    refine List.filter_congr fun e _ => ?_
    by_cases he : e.1 = n
    · rw [he, hn]
      simp only [bne_self_eq_false, Bool.false_and]
    · rw [bne_iff_ne.mpr he, Bool.and_true]
  cases turn with
  | keep n v =>
    unfold Turn.keeping rest
    rw [List.filter_cons, hslot n rfl, bne_self_eq_false, if_neg Bool.false_ne_true]
    exact hfilter n (hslot n rfl)
  | forget n => exact hfilter n (hslot n rfl)
  | _ => rfl

/-- Hosts that have the same in the slots that are not for an engine do so after the same turn. -/
theorem rest_keeping_congr (h : P.rest b slots = P.rest b slots') :
    P.rest b (turn.keeping slots) = P.rest b (turn.keeping slots') := by
  have hfilter : ∀ n, P.rest b (slots.filter (·.1 != n)) = P.rest b (slots'.filter (·.1 != n)) := by
    intro n
    unfold rest at h ⊢
    rw [List.filter_comm, h, List.filter_comm]
  cases turn with
  | keep n v =>
    unfold Turn.keeping rest
    rw [List.filter_cons, List.filter_cons]
    split
    · exact congrArg _ (hfilter n)
    · exact hfilter n
  | forget n => exact hfilter n
  | _ => exact h

theorem Sorted.keeping (h : P.Sorted b slots)
    (hturn : ∀ n v, turn = .keep n v → P.owner n = some b → v.Within (P.cells b)) :
    P.Sorted b (turn.keeping slots) := by
  have hfilter : ∀ n, P.Sorted b (slots.filter (·.1 != n)) :=
    fun n e he => h e (List.mem_of_mem_filter he)
  cases turn with
  | keep n v =>
    intro e he howner
    rcases List.mem_cons.mp he with rfl | he
    · exact hturn n v rfl howner
    · exact hfilter n e he howner
  | forget n => exact hfilter n
  | _ => exact h

/-- There is something in a slot, or not, whatever is in the slots that are for another engine. -/
theorem any_slots_eq (h : P.rest b slots = P.rest b slots') {n : String} (hn : P.owner n ≠ some b) :
    slots.any (·.1 == n) = slots'.any (·.1 == n) := by
  have hany : ∀ l : List (String × Value), l.any (·.1 == n) = (P.rest b l).any (·.1 == n) := by
    intro l
    rw [Bool.eq_iff_iff, List.any_eq_true, List.any_eq_true]
    refine exists_congr fun e => and_congr_left fun he => ?_
    rw [mem_rest, eq_of_beq he]
    exact (and_iff_left hn).symm
  rw [hany, h, ← hany]

/-- Everything happens on the first session and only the turns of one engine on the second one. They are
alike in its zone, and on both the zone of the other engine is closed. -/
structure Mirrors (hP : P.Apart) (b : Bool) (s t : Session) : Prop where
  alike : (hP.zone b).Alike (P.mine b) s t
  full : (hP.zone !b).Alike (P.mine !b) s s
  solo : (hP.zone !b).Alike (P.mine !b) t t
  idle : ∀ j, j ≠ P.index b → j ≠ P.index !b → s.station j = t.station j
  pendings : s.pendings = t.pendings
  slots : P.rest (!b) s.slots = P.rest (!b) t.slots
  sorted : P.Sorted (!b) s.slots
  sorted' : P.Sorted (!b) t.slots
  scopes : ∀ scope, ¬P.cells (!b) (.scope scope) → s.scopes.count scope = t.scopes.count scope

namespace Mirrors

variable {hP : P.Apart}

/-- The same is held from outside of both sessions, but for what belongs to the other engine. -/
theorem mem_roots_iff (h : Mirrors hP b s t) {x : Cell} (hx : ¬P.cells (!b) x) :
    x ∈ s.roots (P.index b) ↔ x ∈ t.roots (P.index b) := by
  have hslots : ∀ {u v : Session}, P.rest (!b) u.slots = P.rest (!b) v.slots → P.Sorted (!b) u.slots →
      ∀ e ∈ u.slots, e ∈ v.slots ∨ e.2.Within (P.cells !b) := by
    intro u v heq hsorted e he
    by_cases howner : P.owner e.1 = some !b
    · exact .inr (hsorted e he howner)
    · exact .inl (mem_rest.mp (heq ▸ mem_rest.mpr ⟨he, howner⟩)).1
  have hown : ∀ {u : Session}, (hP.zone !b).Alike (P.mine !b) u u →
      ∀ y ∈ (u.station (P.index !b)).own, P.cells (!b) y := by
    intro u hu y hy
    have hseats := hu.seats (j := P.index !b) rfl
    simp only [Station.own, List.mem_cons, List.not_mem_nil, or_false] at hy
    rcases hy with rfl | rfl | rfl | rfl
    · exact hseats.global.1
    · exact hseats.root.1
    · exact hseats.methods.1
    · exact hseats.evalFunction.1
  have hheld : ∀ {u : Session}, (hP.zone !b).Alike (P.mine !b) u u →
      ∀ y ∈ Heap.tableScopes (u.engine (P.index !b)).links ++ (u.station (P.index !b)).inFlight,
        P.cells (!b) y := by
    intro u hu y hy
    rcases List.mem_append.mp hy with hy | hy
    · exact hP.cells_of_view ((hu.seats (j := P.index !b) rfl).view_table hy)
    · unfold Station.inFlight at hy
      cases hf : (u.station (P.index !b)).flight with
      | none =>
        rw [hf] at hy
        cases hy
      | some f =>
        rw [hf] at hy
        have hparks := hu.parked (j := P.index !b) rfl hf
        rcases List.mem_append.mp hy with hy | hy
        · rcases List.mem_append.mp hy with hy | hy
          · exact Zone.cells_machine hparks.safe hy
          · obtain ⟨v, hv, hcell⟩ := List.mem_filterMap.mp hy
            obtain ⟨τ, hτ, rfl⟩ := Option.map_eq_some_iff.mp (Option.mem_toList.mp hv)
            exact (hparks.taken τ hτ y hcell).1
        · exact hparks.held y hy
  have hscopes : ∀ {as bs : List ScopeId},
      (∀ scope, ¬P.cells (!b) (.scope scope) → as.count scope = bs.count scope) →
        ∀ scope ∈ as, scope ∈ bs ∨ P.cells (!b) (.scope scope) := by
    intro as bs hcount scope hmem
    by_cases hcell : P.cells (!b) (.scope scope)
    · exact .inr hcell
    · exact .inl (List.count_pos_iff.mp (hcount scope hcell ▸ List.count_pos_iff.mpr hmem))
  have hlike : (t.station (P.index b)).own = (s.station (P.index b)).own := by
    have hrest := (h.alike.like (j := P.index b) rfl).rest
    unfold Session.engine at hrest
    unfold Station.own
    rw [hrest]
  have hcases : ∀ j, j = P.index b ∨ j = P.index (!b) ∨ s.station j = t.station j := by
    intro j
    by_cases hb : j = P.index b
    · exact .inl hb
    · by_cases hother : j = P.index !b
      · exact .inr (.inl hother)
      · exact .inr (.inr (h.idle j hb hother))
  constructor
  · refine fun hmem => (Session.mem_roots_or h.alike.size h.pendings (hslots h.slots h.sorted)
      (hscopes h.scopes) (fun j => ?_) (fun j hj => ?_) hmem).resolve_right hx
    · rcases hcases j with rfl | rfl | heq
      · exact .inl hlike.symm
      · exact .inr (hown h.full)
      · exact .inl (congrArg Station.own heq)
    · rcases hcases j with rfl | rfl | heq
      · exact absurd rfl hj
      · exact .inr (hheld h.full)
      · exact .inl heq
  · refine fun hmem => (Session.mem_roots_or h.alike.size.symm h.pendings.symm
      (hslots h.slots.symm h.sorted') (hscopes fun scope hcell => (h.scopes scope hcell).symm)
      (fun j => ?_) (fun j hj => ?_) hmem).resolve_right hx
    · rcases hcases j with rfl | rfl | heq
      · exact .inl hlike
      · exact .inr (hown h.solo)
      · exact .inl (congrArg Station.own heq.symm)
    · rcases hcases j with rfl | rfl | heq
      · exact absurd rfl hj
      · exact .inr (hheld h.solo)
      · exact .inl heq.symm

/-- Pruning keeps the same for the engine on both sessions. -/
theorem concurs (h : Mirrors hP b s t) : (hP.zone b).Concurs (P.index b) s t where
  left hrel := hP.behind (h.full.ties.closed.frame hrel.ties.leaves (hP.beyond_other b).apart)
    fun _ _ ha => (hrel.seats.table ha).2
  right hrel := hP.behind (h.solo.ties.closed.frame hrel.ties.leaves' (hP.beyond_other b).apart)
    fun _ _ ha => (hrel.seats.table (hrel.like.links.getElem?_eq.trans ha)).2
  roots _ := h.mem_roots_iff

/-- Pruning on the first session keeps for the other engine what it keeps. -/
theorem concurs_other (h : Mirrors hP b s t) : (hP.zone !b).Concurs (P.index !b) s s where
  left hrel := hP.behind (b := !b) (by
    rw [Bool.not_not]
    exact h.alike.ties.closed.frame hrel.ties.leaves (hP.beyond b).apart)
    fun _ _ ha => (hrel.seats.table ha).2
  right hrel := hP.behind (b := !b) (by
    rw [Bool.not_not]
    exact h.alike.ties.closed.frame hrel.ties.leaves' (hP.beyond b).apart)
    fun _ _ ha => (hrel.seats.table (hrel.like.links.getElem?_eq.trans ha)).2
  roots _ _ := Iff.rfl

theorem not_mine {i : Nat} (hi : P.mine b i) : ¬P.mine (!b) i := fun hother => index_ne (hi.symm.trans hother)

theorem not_mine_other {i : Nat} (hi : P.mine (!b) i) : ¬P.mine b i := fun hown => not_mine hown hi

/-- What a turn keeps for one engine is what it hands over. -/
theorem keeps (hturn : P.Admits b s turn) {n : String} {v : Value} (hkeep : turn = .keep n v) :
    P.owner n = some b ∧ v.Within (P.cells b) := by
  subst hkeep
  exact ⟨hturn.slot n rfl, fun x hx => (hturn.supplied x (List.mem_filterMap.mpr
    ⟨v, List.mem_singleton_self v, hx⟩)).1⟩

/-- The scopes that a turn of one engine is about are scopes of that engine. -/
theorem count_holding (hturn : P.Admits b s turn) {scope : ScopeId} (hcell : ¬P.cells b (.scope scope))
    (scopes : List ScopeId) : (turn.holding scopes).count scope = scopes.count scope := by
  have hne : ∀ {other}, Cell.scope other ∈ turn.supplied → other ≠ scope := fun hmem heq =>
    hcell (heq ▸ (hturn.supplied _ hmem).1)
  cases turn with
  | hold other => exact List.count_cons_of_ne (hne List.mem_cons_self)
  | release other => exact List.count_erase_of_ne (hne List.mem_cons_self).symm
  | _ => rfl

/-- Hosts that hold a scope equally often do so after the same turn. -/
theorem count_holding_congr {scope : ScopeId} {as bs : List ScopeId}
    (h : as.count scope = bs.count scope) :
    (turn.holding as).count scope = (turn.holding bs).count scope := by
  cases turn with
  | hold other => exact (List.count_cons ..).trans (h ▸ (List.count_cons ..).symm)
  | release other => exact (List.count_erase ..).trans (h ▸ (List.count_erase ..).symm)
  | _ => exact h

/-- **A turn of the engine** has the same reply in both sessions, and they go on alike. -/
theorem own (h : Mirrors hP b s t) (hturn : P.Admits b s turn) :
    (s.perform turn).1 = (t.perform turn).1 ∧
      Mirrors hP b (s.perform turn).2 (t.perform turn).2 ∧
      Zone.Lasts s.heap (s.perform turn).2.heap ∧
      ∀ v, (s.perform turn).1 = .answer (some (.finished (.ok v))) →
        v.Within ((hP.zone b).Has (s.perform turn).2.heap) := by
  have hslot : ∀ n, turn.slot? = some n → P.owner n ≠ some !b := fun n hn => by
    rw [hturn.slot n hn]
    cases b <;> decide
  have hscopes : ∀ scope, turn = .release scope → s.scopes.contains scope = t.scopes.contains scope := by
    rintro scope rfl
    have hcount := h.scopes scope (cells_disjoint hP (hturn.supplied _ List.mem_cons_self).1)
    rw [Bool.eq_iff_iff, List.contains_iff_mem, List.contains_iff_mem, ← List.count_pos_iff, hcount,
      List.count_pos_iff]
  obtain ⟨⟨hreply, hpasses⟩, hvalue⟩ := h.alike.perform ⟨hturn.engine, hturn.supplied⟩
    (fun i hi => hi ▸ h.concurs) (fun n hn => any_slots_eq h.slots (hslot n (hn ▸ rfl))) hscopes
  obtain ⟨halike, hleft, hright⟩ := hpasses
  refine ⟨hreply, ⟨halike, h.full.frame hleft hleft (hP.beyond_other b) (fun _ => not_mine_other) rfl,
    h.solo.frame hright hright (hP.beyond_other b) (fun _ => not_mine_other) rfl, fun j hj hother => ?_,
    hleft.pendings.trans (h.pendings.trans hright.pendings.symm), ?_, ?_, ?_, fun scope hcell => ?_⟩,
    hleft.heap.lasts, hvalue⟩
  · rw [hleft.station j hj, hright.station j hj]
    exact h.idle j hj hother
  · rw [Session.slots_perform, Session.slots_perform]
    exact rest_keeping_congr h.slots
  · rw [Session.slots_perform]
    exact h.sorted.keeping fun n v hkeep howner => absurd howner (hslot n (hkeep ▸ rfl))
  · rw [Session.slots_perform]
    exact h.sorted'.keeping fun n v hkeep howner => absurd howner (hslot n (hkeep ▸ rfl))
  · rw [Session.scopes_perform, Session.scopes_perform]
    exact count_holding_congr (h.scopes scope hcell)

/-- **A turn of the other engine** is nothing to the engine, but that the process goes on. -/
theorem other (h : Mirrors hP b s t) (hturn : P.Admits (!b) s turn) :
    Mirrors hP b (s.perform turn).2 (t.elsewhere (s.perform turn).2.heap.process) ∧
      Zone.Lasts s.heap (s.perform turn).2.heap := by
  obtain ⟨⟨-, halike, hleft, -⟩, -⟩ := h.full.perform ⟨hturn.engine, hturn.supplied⟩
    (fun i hi => hi ▸ h.concurs_other) (fun n _ => rfl) fun scope _ => rfl
  generalize hs' : (s.perform turn).2 = s' at halike hleft
  have hright : (hP.zone !b).Spares (P.mine !b) t (t.elsewhere s'.heap.process) := .elsewhere ..
  refine ⟨⟨h.alike.frame hleft hright (hP.beyond b) (fun _ => not_mine) rfl, halike,
    (h.solo.elsewhere s'.heap.process).alike, fun j hj hother => ?_, hleft.pendings.trans h.pendings,
    ?_, ?_, h.sorted', fun scope hcell => ?_⟩, hleft.heap.lasts⟩
  · rw [hleft.station j hother]
    exact h.idle j hj hother
  · rw [← hs', Session.slots_perform, rest_keeping hturn.slot]
    exact h.slots
  · rw [← hs', Session.slots_perform]
    exact h.sorted.keeping fun n v hkeep _ => (keeps hturn hkeep).2
  · rw [← hs', Session.scopes_perform, count_holding hturn hcell]
    exact h.scopes scope hcell

/-- **All turns.** The replies to the engine are those that it has without the other one, and the sessions
end alike. -/
theorem play {turns : List (Bool × Turn)} (h : Mirrors hP b s t) (hturns : P.Admitted s turns) :
    s.repliesTo b turns = t.repliesTo b (s.without b turns) ∧
      Mirrors hP b (s.after (turns.map (·.2))) (t.after ((s.without b turns).map (·.2))) ∧
      ∀ v, .answer (some (.finished (.ok v))) ∈ s.repliesTo b turns →
        v.Within ((hP.zone b).Has (s.after (turns.map (·.2))).heap) := by
  suffices hplay : s.repliesTo b turns = t.repliesTo b (s.without b turns) ∧
      Mirrors hP b (s.after (turns.map (·.2))) (t.after ((s.without b turns).map (·.2))) ∧
      Zone.Lasts s.heap (s.after (turns.map (·.2))).heap ∧
      ∀ v, .answer (some (.finished (.ok v))) ∈ s.repliesTo b turns →
        v.Within ((hP.zone b).Has (s.after (turns.map (·.2))).heap) from
    ⟨hplay.1, hplay.2.1, hplay.2.2.2⟩
  induction turns generalizing s t with
  | nil => exact ⟨rfl, h, fun _ hx => hx, fun _ hv => by cases hv⟩
  | cons turn turns ih =>
    obtain ⟨c, turn⟩ := turn
    obtain ⟨hturn, hturns⟩ := hturns
    by_cases hc : c = b
    · subst hc
      obtain ⟨hreply, hnext, hlasts, hvalue⟩ := h.own hturn
      obtain ⟨hreplies, hend, hlasts', hvalues⟩ := ih hnext hturns
      simp only [Session.repliesTo, Session.without, if_true]
      refine ⟨congrArg₂ List.cons hreply hreplies, hend, fun x hx => hlasts' x (hlasts x hx),
        fun v hv => ?_⟩
      rcases List.mem_cons.mp hv with heq | hv
      · exact hlasts'.within (hvalue v heq.symm)
      · exact hvalues v hv
    · obtain rfl : c = !b := Bool.eq_not.mpr hc
      obtain ⟨hnext, hlasts⟩ := h.other hturn
      obtain ⟨hreplies, hend, hlasts', hvalues⟩ := ih hnext hturns
      simp only [Session.repliesTo, Session.without, if_neg hc]
      exact ⟨hreplies, hend, fun x hx => hlasts' x (hlasts x hx), hvalues⟩

end Mirrors

/-- At the start both sessions are one. -/
theorem Apart.mirrors (hP : P.Apart) (b : Bool) : Mirrors hP b P.start P.start := by
  have hsorted : P.Sorted (!b) P.start.slots := by
    intro e he howner x hx
    have hmem : x ∈ P.hosts !b := by
      unfold hosts
      refine List.mem_append_right _ (List.mem_filterMap.mpr ⟨e.2, List.mem_map_of_mem ?_, hx⟩)
      exact List.mem_filter.mpr ⟨he, by rw [howner, beq_self_eq_true]⟩
    exact .inl (.root hmem (hP.present _ x hmem))
  exact ⟨hP.alike b, hP.alike !b, hP.alike !b, fun _ _ _ => rfl, rfl, rfl, hsorted, hsorted, fun _ _ => rfl⟩

/-! ## The result -/

/-- The session after all turns. -/
def together (P : Pair) (turns : List (Bool × Turn)) : Session := P.start.after (turns.map (·.2))

/-- The turns of one engine, with the other one not having its turns. -/
def ownTurns (P : Pair) (b : Bool) (turns : List (Bool × Turn)) : List (Bool × Turn) :=
  P.start.without b turns

/-- The session after the turns of one engine alone. -/
def alone (P : Pair) (b : Bool) (turns : List (Bool × Turn)) : Session := P.together (P.ownTurns b turns)

/-- An engine fares in all these turns as in its own turns alone, in a process that goes on as far. -/
structure Isolates (P : Pair) (b : Bool) (turns : List (Bool × Turn)) : Prop where
  /-- The replies to its turns are the same. -/
  replies : P.start.repliesTo b turns = P.start.repliesTo b (P.ownTurns b turns)
  /-- So is the engine itself, up to the layout of its table. -/
  engine : ((P.together turns).engine (P.index b)).Like ((P.alone b turns).engine (P.index b))
  /-- It has as many links, and the same suspensions. -/
  links : ((P.together turns).engine (P.index b)).links.size =
    ((P.alone b turns).engine (P.index b)).links.size
  suspensionCount : ((P.together turns).engine (P.index b)).suspensionCount =
    ((P.alone b turns).engine (P.index b)).suspensionCount
  lastSuspension : ((P.together turns).engine (P.index b)).lastSuspension =
    ((P.alone b turns).engine (P.index b)).lastSuspension
  /-- What it left parked is the same, and so are the guards of that. -/
  station : ((P.together turns).station (P.index b)).Abreast ((P.alone b turns).station (P.index b))
  /-- So is its global object. -/
  global : (P.together turns).heap.objects.get? ((P.together turns).engine (P.index b)).global =
    (P.alone b turns).heap.objects.get? ((P.alone b turns).engine (P.index b)).global
  /-- So is everything that belongs to it. -/
  object {id} : P.cells b (.object id) →
    (P.together turns).heap.objects.get? id = (P.alone b turns).heap.objects.get? id
  closure {id} : P.cells b (.closure id) →
    (P.together turns).heap.closures.get? id = (P.alone b turns).heap.closures.get? id
  native {id} : P.cells b (.native id) →
    (P.together turns).heap.natives.get? id = (P.alone b turns).heap.natives.get? id
  scope {id} : P.cells b (.scope id) →
    (P.together turns).heap.scopes.get? id = (P.alone b turns).heap.scopes.get? id
  pending {id} : P.cells b (.pending id) →
    (P.together turns).heap.pendings.get? id = (P.alone b turns).heap.pendings.get? id
  /-- The number of a pending value that belongs to it is the same. -/
  number {id} : P.cells b (.pending id) →
    (P.together turns).heap.numbers.get? id = (P.alone b turns).heap.numbers.get? id
  /-- The objects that are in its answers or in its global object belong to it, and exist. -/
  values : ∀ v, .answer (some (.finished (.ok v))) ∈ P.start.repliesTo b turns →
    v.Within fun x => P.cells b x ∧ (P.together turns).heap.contains x = true
  stores : ((P.together turns).heap.objects.get ((P.together turns).engine (P.index b)).global).Stores
    fun x => P.cells b x ∧ (P.together turns).heap.contains x = true

/-- **Engines are isolated** but for the process that they are in. If two engines share nothing and the host
hands over to each of them only what belongs to it, then in every order of their turns each fares as in its
own turns alone, in a process that goes on as far. -/
theorem isolated (hP : P.Apart) {turns : List (Bool × Turn)} (h : P.Admitted P.start turns) (b : Bool) :
    P.Isolates b turns := by
  obtain ⟨hreplies, hend, hvalues⟩ := (hP.mirrors b).play h
  have halike : (hP.zone b).Alike (P.mine b) (P.together turns) (P.alone b turns) := hend.alike
  have hlike := halike.like (j := P.index b) rfl
  have hglobal := (halike.seats (j := P.index b) rfl).global.1
  have hsame : ((P.alone b turns).engine (P.index b)).global =
      ((P.together turns).engine (P.index b)).global := by rw [hlike.rest]
  exact
    { replies := hreplies
      engine := hlike
      links := hlike.links.size_eq
      suspensionCount := by rw [hlike.rest]
      lastSuspension := by rw [hlike.rest]
      station := halike.abreast rfl
      global := by
        rw [hsame]
        exact halike.ties.objects.same _ (cells_disjoint hP hglobal)
      object := fun hid => halike.ties.objects.same _ (cells_disjoint hP hid)
      closure := fun hid => halike.ties.closures.same _ (cells_disjoint hP hid)
      native := fun hid => halike.ties.natives.same _ (cells_disjoint hP hid)
      scope := fun hid => halike.ties.scopes.same _ (cells_disjoint hP hid)
      pending := fun hid => halike.ties.pendings.same _ (cells_disjoint hP hid)
      number := fun hid => halike.ties.numbers.same _ (.inl hid)
      values := hvalues
      stores := halike.ties.closed.object hglobal }

/-- Two engines that have an answer each. One of them has to wait for it. -/
def answering : Pair where
  base := Session.addPending { fuel := 100 } "answer" .channel
  setup b :=
    { settings := { installStdlib := false }
      defines := [("answer", cond b (.bool true) (.pending ⟨hostRegion, 0⟩))] }
  owner _ := none

theorem apart_answering : answering.Apart := by
  have htrue : ∀ x, ¬answering.Given true x := by
    intro x hx
    induction hx with
    | root hr _ => cases hr
    | held _ _ _ ih => exact ih
  have hfalse : ∀ x, answering.Given false x → x = .pending ⟨hostRegion, 0⟩ := by
    intro x hx
    induction hx with
    | root hr _ => exact List.mem_singleton.mp hr
    | held _ hy _ ih =>
      rw [ih] at hy
      cases hy
  refine ⟨fun x _ hx => htrue x hx, fun b x hx => ?_, fun b x hx y hy => ?_, fun b c p hp => ?_⟩
  · cases b with
    | false => exact List.mem_singleton.mp hx ▸ rfl
    | true => cases hx
  · cases b with
    | false =>
      rw [hfalse x hx] at hy
      cases hy
    | true => exact absurd hx (htrue x)
  · cases b with
    | false =>
      cases hfalse _ hp
      cases c <;> decide
    | true => exact absurd hp (htrue _)

/-- A function is made, and asks for the answer. -/
def askingFor : CodeUnit := .ofSource "f = function () { return answer; }; f()"

/-- The one engine waits in its function while the other one makes a function and calls it, and the process
goes on. Then it gets its answer. -/
def askingTurns : List (Bool × Turn) :=
  [(false, .runUnit 0 askingFor), (true, .runUnit 1 askingFor), (true, .elsewhere ⟨7, fun _ => true⟩),
    (false, .settle ⟨hostRegion, 0⟩ (.fulfilled (.bool false))), (false, .poll 0)]

/-- Both have their own answer, and fare as they do alone. -/
theorem isolated_from_another :
    CodeUnit.compile "f = function () { return answer; }; f()" [] = .ok askingFor ∧
      answering.Apart ∧ answering.Admitted answering.start askingTurns ∧
      answering.Isolates false askingTurns ∧ answering.Isolates true askingTurns ∧
      Session.tells false (answering.start.repliesTo false askingTurns) = [false, false, true] ∧
      Session.tells true (answering.start.repliesTo true askingTurns) = [true, false] := by
  have hthere : answering.base.heap.contains (.pending ⟨hostRegion, 0⟩) = true := rfl
  have hseen : (((answering.start.perform (.runUnit 0 askingFor)).2.perform
        (.runUnit 1 askingFor)).2.perform (.elsewhere ⟨7, fun _ => true⟩)).2.heap.contains
          (.pending ⟨hostRegion, 0⟩) = true ∧
      Session.tells false (answering.start.repliesTo false askingTurns) = [false, false, true] ∧
      Session.tells true (answering.start.repliesTo true askingTurns) = [true, false] := by
    decide +kernel
  obtain ⟨hstill, hfalse, htrue⟩ := hseen
  have hnone : ∀ {b s turn}, turn.engine? = some (answering.index b) → turn.supplied = [] →
      turn.slot? = none → answering.Admits b s turn := by
    intro b s turn hengine hsupplied hslot
    refine ⟨fun i hi => Option.some.inj (hi.symm.trans hengine), fun x hx => ?_, fun n hn => ?_⟩
    · rw [hsupplied] at hx
      cases hx
    · rw [hslot] at hn
      cases hn
  have hturns : answering.Admitted answering.start askingTurns := by
    refine ⟨hnone rfl rfl rfl, hnone rfl rfl rfl, ⟨nofun, List.forall_mem_nil _, nofun⟩,
      ⟨nofun, fun x hx => ?_, nofun⟩, hnone rfl rfl rfl, trivial⟩
    obtain rfl := List.mem_singleton.mp hx
    exact ⟨.inl (.root List.mem_cons_self hthere), hstill⟩
  exact ⟨CodeUnit.compile_ofSource (by decide +kernel), apart_answering, hturns,
    isolated apart_answering hturns false, isolated apart_answering hturns true, hfalse, htrue⟩

end Pair

end Fermata
