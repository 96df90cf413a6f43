import Fermata.Proofs.Lexical.Resolution
import Fermata.Proofs.Suspension.Protocol

/-!
# Associations of an engine's own closures

Closures are numbered by the engine that makes them, and a table of associations is asked by number. As
long as no host links a function to a scope of an engine that did not make it, a table has only closures
of its own engine, each under its own number. So what an engine says about a function that it made is
about that very function, whatever other engines do. About functions of other engines it says what it
knows of its own function with the same number.

* `Core.Owns`: the table of an engine is about its own closures.
* `Session.Owned`: all tables are.
* `Session.associations_own`: what engines say about their own functions, in every session.
-/

namespace Fermata

open Act

namespace Core

/-- The table has closures of the engine alone, each under its own number, and no number was given out
twice. -/
structure Owns (c : Core) : Prop where
  entry : ∀ (n : Nat) a, c.engine.links[n]? = some a → a.closure.region = c.engine.region ∧
    ∃ k, c.heap.closures.get? a.closure = some k ∧ k.serial = n ∧ k.node.id = a.record
  given : ∀ id k, c.heap.closures.get? id = some k → id.region = c.engine.region →
    k.serial < c.engine.nextSerial
  distinct : ∀ id id' k k', c.heap.closures.get? id = some k → c.heap.closures.get? id' = some k' →
    id.region = c.engine.region → id'.region = c.engine.region → k.serial = k'.serial → id = id'

namespace Owns

variable {c d : Core}

/-- **The entry under the number of a closure is its own.** -/
theorem exact (h : c.Owns) {id : ClosureId} {k : Closure} {a : Association}
    (hk : c.heap.closures.get? id = some k) (hregion : id.region = c.engine.region)
    (ha : c.engine.links[k.serial]? = some a) : a.closure = id ∧ a.record = k.node.id := by
  obtain ⟨hmine, k', hk', hserial, hrecord⟩ := h.entry _ a ha
  have hid := h.distinct _ _ k' k hk' hk hmine hregion hserial
  rw [hid, hk] at hk'
  cases hk'
  exact ⟨hid, hrecord.symm⟩

/-- Only the table, the numbers and the closures of the engine's own region matter. -/
theorem congr (h : c.Owns) (hregion : d.engine.region = c.engine.region)
    (hlinks : ∀ (n : Nat) a, d.engine.links[n]? = some a → c.engine.links[n]? = some a)
    (hserial : d.engine.nextSerial = c.engine.nextSerial)
    (hclosures : ∀ id : ClosureId, id.region = c.engine.region →
      d.heap.closures.get? id = c.heap.closures.get? id) : d.Owns := by
  refine ⟨fun n a ha => ?_, fun id k hk hid => ?_, fun id id' k k' hk hk' hid hid' heq => ?_⟩
  · obtain ⟨hmine, k, hk, hrest⟩ := h.entry n a (hlinks n a ha)
    exact ⟨hmine.trans hregion.symm, k, (hclosures _ hmine).trans hk, hrest⟩
  · rw [hregion] at hid
    rw [hclosures id hid] at hk
    rw [hserial]
    exact h.given id k hk hid
  · rw [hregion] at hid hid'
    rw [hclosures id hid] at hk
    rw [hclosures id' hid'] at hk'
    exact h.distinct id id' k k' hk hk' hid hid' heq

theorem bearing (h : c.Owns) (fn : FunctionNode) (u : CodeUnit) : (c.bearing fn u).Owns := by
  have hget : ∀ id, (c.bearing fn u).heap.closures.get? id =
      if id = c.heap.closures.next c.engine.region then some (c.nextClosure fn u)
      else c.heap.closures.get? id := fun id => Store.get?_push ..
  have hold : ∀ {id k}, c.heap.closures.get? id = some k →
      (c.bearing fn u).heap.closures.get? id = some k := by
    intro id k hk
    rw [hget, if_neg]
    · exact hk
    · rintro rfl
      rw [Store.get?_next] at hk
      cases hk
  refine ⟨fun n a ha => ?_, fun id k hk hid => ?_, fun id id' k k' hk hk' hid hid' heq => ?_⟩
  · obtain ⟨hmine, k, hk, hrest⟩ := h.entry n a ha
    exact ⟨hmine, k, hold hk, hrest⟩
  · rw [hget] at hk
    split at hk
    · cases hk
      exact Nat.lt_succ_self _
    · exact Nat.lt_succ_of_lt (h.given id k hk hid)
  · have hnew : ∀ {id k}, c.heap.closures.get? id = some k → id.region = c.engine.region →
        k.serial ≠ c.engine.nextSerial := fun hk hid => Nat.ne_of_lt (h.given _ _ hk hid)
    rw [hget] at hk hk'
    split at hk <;> split at hk'
    · rename_i h₁ h₂
      exact h₁.trans h₂.symm
    · cases hk
      exact absurd heq.symm (hnew hk' hid')
    · cases hk'
      exact absurd heq (hnew hk hid)
    · exact h.distinct id id' k k' hk hk' hid hid' heq

/-- An association of a closure of the engine. -/
theorem associate {id : ClosureId} {k : Closure} (h : c.Owns)
    (hk : c.heap.closures.get? id = some k) (hregion : id.region = c.engine.region)
    (scope : ScopeId) :
    Owns { c with engine := { c.engine with
      links := (c.engine.links.associate k.serial ⟨id, scope, k.node.id⟩).2 } } := by
  refine ⟨fun n a ha => ?_, h.given, h.distinct⟩
  change (c.engine.links.associate k.serial ⟨id, scope, k.node.id⟩).2[n]? = some a at ha
  rw [Links.getElem?_associate] at ha
  split at ha
  · rename_i hn
    cases ha
    exact ⟨hregion, k, hk, hn.1.symm, rfl⟩
  · exact h.entry n a ha

theorem linking (h : c.Owns) (fn : FunctionNode) (u : CodeUnit) (scope : ScopeId) :
    (c.linking fn u scope).Owns := by
  have hnew : (c.bearing fn u).heap.closures.get? (c.heap.closures.next c.engine.region) =
      some (c.nextClosure fn u) := (Store.get?_push ..).trans (if_pos rfl)
  exact (h.bearing fn u).associate hnew rfl scope

end Owns

/-- The engine of this region owns its table, and leaves the closures of other regions alone. -/
structure Minds (S : Store .closure Closure) (q : Nat) (c : Core) : Prop where
  region : c.engine.region = q
  owns : c.Owns
  elsewhere : ∀ id : ClosureId, id.region ≠ q → c.heap.closures.get? id = S.get? id

namespace Minds

variable {S : Store .closure Closure} {q : Nat} {c d : Core}

theorem same (h : c.Minds S q) (hregion : d.engine.region = c.engine.region)
    (hlinks : ∀ (n : Nat) a, d.engine.links[n]? = some a → c.engine.links[n]? = some a)
    (hserial : d.engine.nextSerial = c.engine.nextSerial)
    (hclosures : d.heap.closures = c.heap.closures) : d.Minds S q :=
  ⟨hregion.trans h.region,
    h.owns.congr hregion hlinks hserial fun _ _ => congrArg (Store.get? · _) hclosures,
    fun id hid => (congrArg (Store.get? · id) hclosures).trans (h.elsewhere id hid)⟩

theorem elsewhere_bearing (h : c.Minds S q) (fn : FunctionNode) (u : CodeUnit)
    (id : ClosureId) (hid : id.region ≠ q) :
    (c.bearing fn u).heap.closures.get? id = S.get? id := by
  refine (Store.get?_push ..).trans ((if_neg ?_).trans (h.elsewhere id hid))
  rintro rfl
  exact hid ((congrArg Addr.region (Store.next_eq ..)).trans h.region)

theorem ended (h : c.Minds S q) (held : List Cell) : (c.ended held).Minds S q :=
  h.same rfl (fun _ _ ha => ((Heap.getElem?_prune ..).mp ha).1) rfl (Heap.closures_prune ..)

end Minds

end Core

/-- **An engine owns its table, and leaves the closures of others alone**, whatever it evaluates. -/
def Invariant.minding (S : Store .closure Closure) (q : Nat) : Invariant where
  holds _ c := c.Minds S q
  quiet h _ := h.same rfl (fun _ _ ha => ha) rfl rfl
  binding h _ _ _ := h.same rfl (fun _ _ ha => ha) rfl rfl
  birth h _ := ⟨h.region, h.owns.bearing _ _, h.elsewhere_bearing _ _⟩
  link h _ _ _ := ⟨h.region, h.owns.linking _ _ _, h.elsewhere_bearing _ _⟩
  capture _ h _ _ _ _ := h.same rfl (fun _ _ ha => ha) rfl rfl
  share _ h _ _ _ := h
  code h _ := h
  mark h _ := h
  close h := h

/-- A host that links functions to scopes of the engines that made them, and to no others. -/
def Host.owning : Host where
  units _ := True
  links s scope id := (s.heap.closures.get? id).isSome ∧ id.region = scope.region

namespace Session

/-- All tables are about the closures of their own engines. -/
structure Owned (s : Session) : Prop where
  region : ∀ i < s.stations.size, (s.engine i).region = engineRegion i
  owns : ∀ i < s.stations.size, (s.core i).Owns
  made : ∀ id k, s.heap.closures.get? id = some k → 0 < id.region ∧ id.region ≤ s.stations.size

variable {H : Host} {s t : Session} {i : Nat}

/-! ## Evaluations -/

theorem Owned.minds (h : s.Owned) (hi : i < s.stations.size) :
    (s.core i).Minds s.heap.closures (engineRegion i) :=
  ⟨h.region i hi, h.owns i hi, fun _ _ => rfl⟩

/-- One engine takes over the heap. -/
theorem Owned.takeOver (h : s.Owned) (hi : i < s.stations.size) {c : Core}
    (hc : c.Minds s.heap.closures (engineRegion i)) (g : Station → Station) : (s.seat i c g).Owned := by
  have hsize : (s.seat i c g).stations.size = s.stations.size := size_modifyStation ..
  refine ⟨fun j hj => ?_, fun j hj => ?_, fun id k hk => ?_⟩
  · rw [hsize] at hj
    by_cases hij : i = j
    · subst hij
      rw [engine_seat hi]
      exact hc.region
    · rw [engine, station_seat_ne (Ne.symm hij)]
      exact h.region j hj
  · rw [hsize] at hj
    by_cases hij : i = j
    · subst hij
      rw [core_seat hi]
      exact hc.owns
    · -- the closures of the other engine are where they were
      simp only [core, engine]
      rw [station_seat_ne (Ne.symm hij)]
      refine (h.owns j hj).congr (d := ⟨c.heap, s.engine j⟩) rfl (fun _ _ ha => ha) rfl
        fun id hid => ?_
      refine hc.elsewhere id ?_
      rw [hid, show (s.core j).engine.region = engineRegion j from h.region j hj]
      exact fun heq => hij (Nat.succ.inj heq).symm
  · rw [hsize]
    by_cases hid : id.region = engineRegion i
    · rw [hid]
      exact ⟨Nat.succ_pos i, hi⟩
    · exact h.made id k ((hc.elsewhere id hid).symm.trans hk)

theorem Owned.stop (h : s.Owned) (hi : i < s.stations.size) {loan : Loan} {stop : Core.Stop}
    {c : Core} (hstop : (Invariant.minding s.heap.closures (engineRegion i)).Stops .any (stop, c))
    (hanswer : (s.settleStop i loan stop c).1 ≠ .outOfFuel) : Owned (s.settleStop i loan stop c).2 := by
  cases hstop with
  | done hc _ =>
    rw [settleStop_done, Core.finish_eq]
    exact h.takeOver hi (hc.ended _) _
  | @parked m p c hc _ =>
    rw [settleStop_parked]
    have htaken : (c.taken p).Minds s.heap.closures (engineRegion i) :=
      hc.same rfl (fun _ _ ha => ha) rfl rfl
    exact h.takeOver hi htaken _
  | outOfFuel => exact absurd rfl hanswer

theorem Owned.evaluate (h : s.Owned) (hi : i < s.stations.size) {act : Act Move} {loan : Loan}
    (hact : Request H s i act loan) (hanswer : (s.evaluate i act loan).1 ≠ .outOfFuel) :
    Owned (s.evaluate i act loan).2 := by
  unfold Session.evaluate at hanswer ⊢
  cases hb : (s.station i).isBusy with
  | true =>
    rw [if_pos rfl]
    exact h
  | false =>
    rw [hb, if_neg Bool.false_ne_true] at hanswer
    rw [if_neg Bool.false_ne_true]
    have hholds := (Invariant.minding s.heap.closures (engineRegion i)).start_request (h.minds hi)
      (fun hc _ => hc) (fun _ hc _ => hc) hact
    have hplaced := (Regime.runs_request (R := Regime.any H) trivial hact).placed
    exact h.stop hi (Invariant.drive (fun _ c _ => Atlas.covers_any c) s.fuel ⟨hholds, hplaced⟩) hanswer

/-- A change that leaves closures, tables and numbers as they are. -/
theorem Owned.map (h : s.Owned) (hsize : t.stations.size = s.stations.size)
    (hclosures : t.heap.closures = s.heap.closures)
    (hengine : ∀ j, (t.engine j).region = (s.engine j).region ∧
      (t.engine j).links = (s.engine j).links ∧ (t.engine j).nextSerial = (s.engine j).nextSerial) :
    t.Owned := by
  refine ⟨fun j hj => ?_, fun j hj => ?_, fun id k hk => ?_⟩
  · exact (hengine j).1.trans (h.region j (hsize ▸ hj))
  · refine (h.owns j (hsize ▸ hj)).congr (hengine j).1 (fun n a ha => ?_) (hengine j).2.2 fun id _ => ?_
    · rw [show (t.core j).engine.links = (s.engine j).links from (hengine j).2.1] at ha
      exact ha
    · exact congrArg (Store.get? · id) hclosures
  · rw [hclosures] at hk
    rw [hsize]
    exact h.made id k hk

theorem Owned.arrive (h : s.Owned) (i : Nat) : (s.arrive i).Owned := by
  rcases s.arrive_cases i with heq | ⟨f, settlement, -, -, -, heq⟩ <;> rw [heq]
  · exact h
  · exact h.map rfl rfl fun _ => ⟨rfl, rfl, rfl⟩

theorem Owned.poll (h : s.Owned) (hs : (Regime.any H).Rules s) (hi : i < s.stations.size)
    (hanswer : (s.poll i).1 ≠ some .outOfFuel) : Owned (s.poll i).2 := by
  have hgoes := hs.goesOn hi
  have h' := h.arrive i
  have hs' := hs.arrive i
  have hi' : i < (s.arrive i).stations.size := by rwa [stations_arrive]
  generalize s.arrive i = u at hgoes h' hs' hi'
  generalize s.poll i = r at hgoes hanswer ⊢
  cases hgoes with
  | idle => exact h'
  | waits => exact h'
  | @resumes f τ r hf hset hr =>
    subst hr
    have hholds : (Invariant.minding u.heap.closures (engineRegion i)).holds f.machine.frames
        (u.armed i) :=
      (h'.minds hi').same rfl (fun _ _ ha => ha) rfl rfl
    refine h'.stop hi' (Invariant.drive (fun _ c _ => Atlas.covers_any c) u.fuel
      (Invariant.runs_resume hholds (hs'.parked i hi' f hf) τ)) ?_
    exact fun heq => hanswer (congrArg some heq)

/-! ## Edits -/

theorem Owned.station (h : s.Owned) (i : Nat) (g : Station → Station)
    (hg : ∀ st, (g st).engine.region = st.engine.region ∧ (g st).engine.links = st.engine.links ∧
      (g st).engine.nextSerial = st.engine.nextSerial) : (s.modifyStation i g).Owned := by
  refine h.map (size_modifyStation ..) rfl fun j => ?_
  unfold engine
  rcases s.station_modifyStation_cases i j g with heq | heq <;> rw [heq]
  · exact ⟨rfl, rfl, rfl⟩
  · exact hg _

theorem Owned.addEngine (h : s.Owned) (name : Option String) (settings : Settings)
    (host : Option ObjectId) (defines : List (String × Value)) :
    (s.addEngine name settings host defines).Owned := by
  have hsize : (s.addEngine name settings host defines).stations.size = s.stations.size + 1 :=
    Array.size_push ..
  have hclosures : (s.addEngine name settings host defines).heap.closures = s.heap.closures := by
    simp only [Session.addEngine]
    exact (Engine.create_heap ..).closures
  have hnew : ((s.addEngine name settings host defines).engine s.stations.size).region =
      engineRegion s.stations.size ∧
      ((s.addEngine name settings host defines).engine s.stations.size).links = {} := by
    simp [Session.addEngine, engine, Session.station, Engine.create]
  have hold : ∀ j < s.stations.size,
      (s.addEngine name settings host defines).engine j = s.engine j := by
    intro j hj
    simp [Session.addEngine, engine, Session.station, Array.getElem?_push, Nat.ne_of_lt hj]
  have hcases : ∀ j < (s.addEngine name settings host defines).stations.size,
      j < s.stations.size ∨ j = s.stations.size := by
    intro j hj
    omega
  refine ⟨fun j hj => ?_, fun j hj => ?_, fun id k hk => ?_⟩
  · rcases hcases j hj with hj | rfl
    · rw [hold j hj]
      exact h.region j hj
    · exact hnew.1
  · rcases hcases j hj with hj | rfl
    · refine (h.owns j hj).congr (congrArg Engine.region (hold j hj)) (fun n a ha => ?_)
        (congrArg Engine.nextSerial (hold j hj)) fun id _ => congrArg (Store.get? · id) hclosures
      rw [core, hold j hj] at ha
      exact ha
    · -- no closure is in the region of an engine to come
      have hnone : ∀ id k, (s.addEngine name settings host defines).heap.closures.get? id = some k →
          id.region ≠ engineRegion s.stations.size := by
        intro id k hk hid
        rw [hclosures] at hk
        have hle := (h.made id k hk).2
        rw [hid] at hle
        exact absurd hle (Nat.not_succ_le_self _)
      refine ⟨fun n a ha => ?_, fun id k hk hid => ?_, fun id _ k _ hk _ hid _ _ => ?_⟩
      · rw [core, hnew.2] at ha
        cases (Std.TreeMap.getElem?_emptyc (α := Nat)).symm.trans ha
      · exact absurd (hid.trans hnew.1) (hnone id k hk)
      · exact absurd (hid.trans hnew.1) (hnone id k hk)
  · rw [hclosures] at hk
    rw [hsize]
    exact ⟨(h.made id k hk).1, Nat.le_succ_of_le (h.made id k hk).2⟩

theorem Owned.link {scope : ScopeId} {id : ClosureId} (h : s.Owned)
    (hlink : Host.owning.links s scope id) : (s.link scope id).2.Owned := by
  obtain ⟨hsome, hregion⟩ := hlink
  obtain ⟨k, hk⟩ := Option.isSome_iff_exists.mp hsome
  have hmade := h.made id k hk
  refine ⟨fun j hj => ?_, fun j hj => ?_, fun id' k' hk' => ?_⟩
  · have hj : j < s.stations.size := (size_modifyStation ..) ▸ hj
    rcases s.core_link scope id j with heq | ⟨-, heq⟩
    · exact (congrArg (fun c => c.engine.region) heq).trans (h.region j hj)
    · exact (congrArg (fun c => c.engine.region) heq).trans (h.region j hj)
  · have hj : j < s.stations.size := (size_modifyStation ..) ▸ hj
    rcases s.core_link scope id j with heq | ⟨rfl, heq⟩
    · rw [heq]
      exact h.owns j hj
    · rw [heq, show s.heap.closures.get id = k by rw [Store.get, hk]; rfl]
      refine (h.owns _ hj).associate hk ?_ scope
      rw [show (s.core (scope.region - 1)).engine.region = engineRegion (scope.region - 1) from
        h.region _ hj]
      unfold engineRegion
      omega
  · have hsize : (s.link scope id).2.stations.size = s.stations.size := size_modifyStation ..
    rw [hsize]
    exact h.made id' k' hk'

theorem Owned.edit (h : s.Owned) (hedit : Edit .owning s t) : t.Owned := by
  cases hedit with
  | engine name settings host defines => exact h.addEngine name settings host defines
  | abandon i =>
    rcases s.abandon_cases i with ⟨heq, -⟩ | ⟨f, -, heq⟩ <;> rw [heq]
    · exact h
    · exact h.station i _ fun _ => ⟨rfl, rfl, rfl⟩
  | console i => exact h.station i _ fun _ => ⟨rfl, rfl, rfl⟩
  | compile hu =>
    rcases compile_cases hu with rfl | ⟨u, units, rfl⟩
    · exact h
    · have hadded : (s.addUnit u).2.Owned := h.map rfl rfl fun _ => ⟨rfl, rfl, rfl⟩
      exact hadded.station _ _ fun _ => ⟨rfl, rfl, rfl⟩
  | compileIn hu =>
    obtain ⟨u, rfl⟩ := compileIn_cases hu
    exact h.map rfl rfl fun _ => ⟨rfl, rfl, rfl⟩
  | link hlink => exact h.link hlink
  | pending | settle | keep | forget | hold | release | elsewhere | objects | binding | child =>
    exact h.map rfl rfl fun _ => ⟨rfl, rfl, rfl⟩

/-! ## Lives -/

/-- **All tables are about the closures of their own engines**, in every session. -/
theorem Live.owned (hs : Live .owning s) : s.Owned := by
  induction hs with
  | empty fuel =>
    exact ⟨fun j hj => absurd hj (Nat.not_lt_zero j), fun j hj => absurd hj (Nat.not_lt_zero j),
      fun id k hk => by cases hk⟩
  | step hs hstep ih =>
    cases hstep with
    | edit hedit => exact ih.edit hedit
    | evaluate hi hact heq hanswer =>
      have h := ih.evaluate hi hact
      rw [heq] at h
      exact h hanswer
    | poll hi heq hanswer =>
      have h := ih.poll (Regime.live hs nofun) hi
      rw [heq] at h
      exact h hanswer

/-- What holds of a core whatever its frames are holds of every core on the way. -/
theorem Running.holds {I : Invariant} {m : Machine} {c : Core}
    (hI : ∀ {fs gs c}, I.holds fs c → I.holds gs c) (h : I.holds [] (s.core i))
    (hm : Running H s i m c) : I.holds [] c := by
  induction hm with
  | start _ hact => exact hI (I.start_request h (fun hc _ => hI hc) (fun _ hc _ => hI hc) hact)
  | @resume f τ m hf _ _ =>
    refine I.starting ?_ _
    rcases s.arrive_cases i with heq | ⟨g, settlement, -, -, -, heq⟩ <;> rw [heq]
    · exact h
    · exact I.apart h _ _ _ _
  | @step m c m' c' _ hstep ih =>
    have hnext := I.step (m := m) (hI ih)
    rw [hstep] at hnext
    exact hI hnext
  | @settle m c m' p c' settlement m'' _ hstep _ _ _ ih =>
    have hnext := I.step (m := m) (hI ih)
    rw [hstep] at hnext
    exact I.apart (hI hnext) _ _ _ _

/-- An evaluation of one engine leaves the others as they are. -/
theorem engine_settleStop_ne {j : Nat} (hj : j ≠ i) (loan : Loan) (stop : Core.Stop) (c : Core) :
    (s.settleStop j loan stop c).2.engine i = s.engine i := by
  cases stop <;>
    exact congrArg Station.engine (station_modifyStation_ne (s := { s with heap := _ }) hj _)

theorem engine_evaluate_ne {j : Nat} (hj : j ≠ i) (act : Act Move) (loan : Loan) :
    (s.evaluate j act loan).2.engine i = s.engine i := by
  unfold Session.evaluate
  split
  · rfl
  · exact engine_settleStop_ne hj ..

theorem engine_poll_ne {j : Nat} (hj : j ≠ i) : (s.poll j).2.engine i = s.engine i := by
  unfold Session.poll goOn
  split
  · exact s.engine_arrive j i
  · dsimp only
    split
    · exact s.engine_arrive j i
    · exact (engine_settleStop_ne hj ..).trans (s.engine_arrive j i)

/-- What engine `i` says about a function is about that very function. -/
structure Identifies (s : Session) (i : Nat) (id : ClosureId) (k : Closure) : Prop where
  scope : s.scopeOf? i (.function id) = (s.engine i).links.definingScope? s.heap id
  record : ∀ r, s.recordOf? i (.function id) = some r → k.unit.record? k.node.id = some r

theorem Owned.identifies (h : s.Owned) (hi : i < s.stations.size) {id : ClosureId} {k : Closure}
    (hk : s.heap.closures.get? id = some k) (hregion : id.region = (s.engine i).region) :
    s.Identifies i id k := by
  have hget : s.heap.closures.get id = k := by
    rw [Store.get, hk]
    rfl
  refine ⟨?_, fun r hr => ?_⟩
  · unfold scopeOf? Links.definingScope? Links.scope?
    dsimp only
    rw [hget]
    cases ha : (s.engine i).links[k.serial]? with
    | none => rfl
    | some a => exact (if_pos ((h.owns i hi).exact hk hregion ha).1).symm
  · unfold recordOf? Links.record? at hr
    dsimp only at hr
    rw [hget] at hr
    cases ha : (s.engine i).links[k.serial]? with
    | none =>
      rw [ha] at hr
      cases hr
    | some a =>
      rw [ha] at hr
      exact ((h.owns i hi).exact hk hregion ha).2 ▸ hr

/-- **Associations belong to one function and one engine**, if hosts link functions to scopes of the
engines that made them. What an engine says about a function that it made is about that function, its
table has no other functions, it stays so in every state of every evaluation, in which no association
is changed, and what other engines evaluate does not matter. -/
theorem associations_own (hs : Live .owning s) (hi : i < s.stations.size) :
    (∀ id k, s.heap.closures.get? id = some k → id.region = (s.engine i).region →
      s.Identifies i id k) ∧
    (s.core i).Owns ∧
    (∀ m c, Running .owning s i m c → c.Owns ∧
      ∀ (n : Nat) a, c.engine.links[n]? = some a → (m.step c).2.engine.links[n]? = some a) ∧
    ∀ j ≠ i, (∀ act loan, (s.evaluate j act loan).2.engine i = s.engine i) ∧
      (s.poll j).2.engine i = s.engine i := by
  have howned := hs.owned
  refine ⟨fun id k hk hregion => howned.identifies hi hk hregion, howned.owns i hi,
    fun m c hm => ⟨?_, fun n a ha => ?_⟩, fun j hj => ⟨fun act loan => ?_, engine_poll_ne hj⟩⟩
  · have hminds : c.Minds s.heap.closures (engineRegion i) :=
      Running.holds (I := .minding s.heap.closures (engineRegion i)) id (howned.minds hi) hm
    exact hminds.owns
  · exact (Invariant.associated n a).step (m := m) (c := c) ha
  · exact engine_evaluate_ne hj act loan

end Session

/-- A function that is made in a call, and that shows the parameter of that call. -/
def CodeUnit.makingReader : CodeUnit :=
  .ofSource "function mk(x) { return function () { return x; }; } mk(true)"

namespace Session

/-- Two engines that ran the same unit, one after the other. -/
def twins : Session :=
  let two := addEngine bare none { installStdlib := false } none []
  ((two.runUnit 0 .makingReader).2.runUnit 1 .makingReader).2

theorem live_twins : Live .owning twins := by
  have htwo : Live .owning (addEngine bare none { installStdlib := false } none []) :=
    .step live_bare (.edit (.engine _ none _ none []))
  have hfirst := htwo.evaluate (i := 0) (by decide) (.unit (u := .makingReader) trivial)
    (by decide +kernel)
  exact hfirst.evaluate (by decide +kernel) (.unit trivial) (by decide +kernel)

/-- Two engines gave the same number to functions that they made, and each knows its own one by it. -/
theorem associations_own_twins :
    (twins.heap.closures.get ⟨1, 1⟩).serial = (twins.heap.closures.get ⟨2, 1⟩).serial ∧
      twins.Identifies 0 ⟨1, 1⟩ (twins.heap.closures.get ⟨1, 1⟩) ∧
      twins.scopeOf? 0 (.function ⟨1, 1⟩) = some ⟨1, 1⟩ ∧
      twins.Identifies 1 ⟨2, 1⟩ (twins.heap.closures.get ⟨2, 1⟩) ∧
      twins.scopeOf? 1 (.function ⟨2, 1⟩) = some ⟨2, 1⟩ ∧
      (∃ m c, Running .owning twins 1 m c ∧ c.Owns ∧ m.stack.length = 1 ∧ c.engine.links.size = 2) ∧
      (twins.call 1 (.function ⟨2, 1⟩) .undefined []).1 = .finished (.ok (.bool true)) := by
  have hseen : (twins.heap.closures.get ⟨1, 1⟩).serial = (twins.heap.closures.get ⟨2, 1⟩).serial ∧
      (twins.heap.closures.get? ⟨1, 1⟩).isSome = true ∧
      (twins.heap.closures.get? ⟨2, 1⟩).isSome = true ∧
      (twins.engine 0).region = 1 ∧ (twins.engine 1).region = 2 ∧ twins.stations.size = 2 ∧
      (twins.station 1).isBusy = false ∧ twins.scopeOf? 0 (.function ⟨1, 1⟩) = some ⟨1, 1⟩ ∧
      twins.scopeOf? 1 (.function ⟨2, 1⟩) = some ⟨2, 1⟩ ∧
      (twins.call 1 (.function ⟨2, 1⟩) .undefined []).1.tells true = true := by decide +kernel
  obtain ⟨hserial, hfirst, hsecond, hregion, hregion', hsize, hidle, hscope, hscope', htells⟩ := hseen
  have hthere : ∀ id, (twins.heap.closures.get? id).isSome = true →
      twins.heap.closures.get? id = some (twins.heap.closures.get id) := fun id hid => by
    obtain ⟨k, hk⟩ := Option.isSome_iff_exists.mp hid
    rw [Store.get, hk]
    rfl
  obtain ⟨hidentifies, -⟩ := associations_own (i := 0) live_twins (by rw [hsize]; exact Nat.two_pos)
  obtain ⟨hidentifies', -, hrunning, -⟩ :=
    associations_own (i := 1) live_twins (by rw [hsize]; exact Nat.one_lt_two)
  have hcall : Request .owning twins 1 _ _ := .call (.function ⟨2, 1⟩) .undefined [] []
  have hreach : (twins.asked? 1 (Act.callValue 0 (twins.engine 1).root (.function ⟨2, 1⟩) .undefined
      []) 0).any fun r => r.1.stack.length = 1 && r.2.engine.links.size = 2 := by
    decide +kernel
  obtain ⟨⟨m, c⟩, hreach, hstack⟩ := (Option.any_eq_true ..).mp hreach
  have hrun := Running.of_asked hidle hcall hreach
  simp only [Bool.and_eq_true, decide_eq_true_eq] at hstack
  exact ⟨hserial, hidentifies _ _ (hthere _ hfirst) hregion.symm, hscope,
    hidentifies' _ _ (hthere _ hsecond) hregion'.symm, hscope',
    ⟨m, c, hrun, (hrunning m c hrun).1, hstack⟩, Answer.eq_of_tells htells⟩

end Session

end Fermata
