import Fermata.Proofs.Session.Regime
import Fermata.Proofs.Session.Turn

/-!
# In the course of a turn

A turn that asks for an evaluation, or polls, drives a machine through many states, each with its core
(`Session.During`). An invariant that does not look at frames holds of all these cores, and of the one
that the turn leaves.

* `Invariant.Lasting`: what such an invariant has to bear besides.
* `Invariant.Lasting.during`, `Invariant.Lasting.perform`: in the course of a turn, and after it.
-/

namespace Fermata

/-- The turn is addressed to the engine, if to any. -/
def Turn.IsFor (turn : Turn) (i : Nat) : Prop := ∀ j, turn.engine? = some j → j = i

namespace Session

variable {s : Session} {i : Nat}

/-- The states of the machine in the course of a turn, each with its core. -/
inductive During (s : Session) (turn : Turn) : Machine → Core → Prop
  | start {a} : s.ask? turn = some a → (a.session.station a.engine).isBusy = false → During s turn
      (Machine.start a.act (a.session.armed a.engine)).1
      (Machine.start a.act (a.session.armed a.engine)).2
  | resume {i f settlement m} : turn = .poll i → (s.station i).flight = some f →
      ((s.arrive i).heap.pendings.get f.pending).settlement? = some settlement →
      f.machine.resume settlement = .ok m → During s turn m ((s.arrive i).armed i)
  | step {m c m' c'} : During s turn m c → m.step c = (.running m', c') → During s turn m' c'
  /-- A value that is ready to settle by itself was met. -/
  | settle {m c m' p c' settlement m''} : During s turn m c → m.step c = (.parked m' p, c') →
      c'.heap.pendings.get p = .scheduled settlement → c'.heap.process.ripe p = true →
      m'.resume settlement = .ok m'' →
      During s turn m'' (((c'.record (c'.suspension m' p)).settle p settlement).watching .armed)

/-- Compiling for a turn changes no core. -/
theorem Asks.core_eq {turn : Turn} {a : Ask} (h : s.Asks turn a) (j : Nat) :
    a.session.core j = s.core j := by
  rcases h.compiled with heq | ⟨source, id, hc⟩
  · rw [heq]
  · rcases compile_cases hc with heq | ⟨u, units, heq⟩
    · rw [heq]
    · rw [heq]
      have hstation := (s.addUnit u).2.station_modifyStation_cases a.engine j fun st =>
        { st with units := units st }
      unfold Session.core Session.engine
      rcases hstation with hj | hj <;> rw [hj] <;> rfl

/-- Nor does it change how an evaluation begins. -/
theorem Asks.armed_eq {turn : Turn} {a : Ask} (h : s.Asks turn a) (j : Nat) :
    a.session.armed j = s.armed j := by
  have hbase : (a.session.station j).base = (s.station j).base := by
    rcases h.compiled with heq | ⟨source, id, hc⟩
    · rw [heq]
    · rcases compile_cases hc with heq | ⟨u, units, heq⟩
      · rw [heq]
      · rw [heq]
        rcases (s.addUnit u).2.station_modifyStation_cases a.engine j fun st =>
          { st with units := units st } with hj | hj <;> rw [hj] <;> rfl
  unfold armed
  rw [h.core_eq, hbase]

end Session

namespace Invariant

open Session

/-- The invariant is about the core alone, and bears the end of an evaluation. -/
structure Lasting (I : Invariant) : Prop where
  frames {fs gs c} : I.holds fs c → I.holds gs c
  ended {c} : I.holds [] c → ∀ held, I.holds [] (c.ended held)

namespace Lasting

variable {I : Invariant} {s : Session} {i : Nat} {turn : Turn} {m : Machine} {c : Core}

theorem step (hI : I.Lasting) (h : I.holds [] c) (m : Machine) : I.holds [] (m.step c).2 :=
  hI.frames (I.step (hI.frames h))

theorem request (hI : I.Lasting) {act : Act Move} {loan : Loan} (h : I.holds [] (s.core i))
    (hact : Session.Request .any s i act loan) :
    I.holds [] (Machine.start act (s.armed i)).2 :=
  hI.frames (I.start_request h (fun hc _ => hI.frames hc) (fun _ hc _ => hI.frames hc) hact)

theorem drive (hI : I.Lasting) (n : Nat) (h : I.holds [] c) (m : Machine) :
    I.holds [] (c.drive n m).2 :=
  hI.frames (I.drive_frames n (hI.frames h))

theorem settleStop (hI : I.Lasting) (hi : i < s.stations.size) (h : I.holds [] c)
    (loan : Loan) (stop : Core.Stop) : I.holds [] ((s.settleStop i loan stop c).2.core i) := by
  cases stop with
  | done outcome =>
    rw [settleStop_done, leaving, core_seat hi]
    exact hI.ended h _
  | parked m p =>
    rw [settleStop_parked, core_parkedAt hi]
    exact I.taken h p
  | outOfFuel m =>
    rw [settleStop_outOfFuel, core_seat hi]
    exact h

theorem evaluate (hI : I.Lasting) (hi : i < s.stations.size) (h : I.holds [] (s.core i))
    {act : Act Move} {loan : Loan} (hact : Session.Request .any s i act loan) :
    I.holds [] ((s.evaluate i act loan).2.core i) := by
  unfold Session.evaluate
  split
  · exact h
  · exact hI.settleStop hi (hI.drive s.fuel (hI.request h hact) _) loan _

theorem goOn (hI : I.Lasting) (hi : i < s.stations.size) (h : I.holds [] (s.core i)) :
    I.holds [] ((s.goOn i).2.core i) := by
  unfold Session.goOn
  split
  · exact h
  · split
    · exact h
    · refine hI.settleStop hi ?_ _ _
      split
      · exact hI.drive s.fuel (I.starting h _) _
      · exact I.starting h _

/-- A settlement changes nothing that an invariant looks at. -/
theorem settle (h : I.holds [] (s.core i)) (p : PendingId) (settlement : Settlement) :
    I.holds [] ((s.settle p settlement).2.core i) :=
  I.apart h _ _ _ _

theorem arrive (h : I.holds [] (s.core i)) (j : Nat) : I.holds [] ((s.arrive j).core i) := by
  rcases s.arrive_cases j with heq | ⟨f, settlement, -, -, -, heq⟩ <;> rw [heq]
  · exact h
  · exact settle h _ _

theorem poll (hI : I.Lasting) (hi : i < s.stations.size) (h : I.holds [] (s.core i)) :
    I.holds [] ((s.poll i).2.core i) :=
  hI.goOn (by rwa [stations_arrive]) (arrive h i)

/-! ## Turns -/

/-- A change of one station that its engine bears. -/
theorem station (h : I.holds [] (s.core i)) (j : Nat) (g : Station → Station)
    (hg : ∀ t, I.holds [] ⟨s.heap, t.engine⟩ → I.holds [] ⟨s.heap, (g t).engine⟩) :
    I.holds [] ((s.modifyStation j g).core i) := by
  unfold Session.core Session.engine
  rcases s.station_modifyStation_cases j i g with heq | heq <;> rw [heq]
  · exact h
  · exact hg _ h

/-- The host writes to a binding or to an object. -/
theorem objects (h : I.holds [] c) (S : Store .object Object) :
    I.holds [] { c with heap := { c.heap with objects := S } } :=
  I.quiet h { c.noise with objects := S }

theorem assign (h : I.holds [] (s.core i)) (scope : ScopeId) (name : String) (v : Value) :
    I.holds [] ((s.assign scope name v).2.core i) := by
  unfold Session.assign Heap.setName
  cases s.heap.target scope name with
  | error cause => exact h
  | ok place =>
    cases place with
    | binding id => exact I.binding h id name v
    | global o =>
      change I.holds [] { s.core i with heap := s.heap.setAt (.global o) name v }
      unfold Heap.setAt
      dsimp only
      split
      · exact h
      · exact objects h _
    | nowhere => exact h

theorem setEnvironment (h : I.holds [] (s.core i)) (scope : ScopeId) (env : List (String × Value)) :
    I.holds [] { s.core i with heap := (s.heap.setEnvironment scope env).2 } := by
  refine Heap.setEnvironment_induction (P := fun k => I.holds [] ⟨k, s.engine i⟩)
    (fun k name v hk => ?_) env h
  unfold Heap.setOwn
  cases (k.scopes.get scope).storage with
  | global o =>
    dsimp only
    split
    · exact objects hk _
    · exact hk
  | locals bindings =>
    dsimp only
    split
    · exact I.binding hk scope name v
    · exact hk

/-- **A turn for the engine keeps the invariant.** -/
theorem perform (hI : I.Lasting) (hi : i < s.stations.size) (hturn : turn.IsFor i)
    (h : I.holds [] (s.core i)) : I.holds [] ((s.perform turn).2.core i) := by
  cases hask : s.ask? turn with
  | some a =>
    have hasks := asks hask
    obtain rfl := hturn a.engine hasks.engine
    rw [hasks.perform]
    exact hI.evaluate ((leads_ask hask).2 ▸ hi) ((hasks.core_eq _).symm ▸ h) hasks.request
  | none =>
    cases unasked hask with
    | refused heq => rwa [heq]
    | poll j =>
      obtain rfl := hturn j rfl
      exact hI.poll hi h
    | abandon j =>
      rcases s.abandon_cases j with ⟨heq, -⟩ | ⟨f, -, heq⟩ <;> rw [Session.perform, heq]
      · exact h
      · exact station h j _ fun _ ht => ht
    | console j =>
      exact station h j _ fun t ht =>
        I.quiet ht { (Core.mk s.heap t.engine).noise with console := #[] }
    | settle p settlement => exact settle h p settlement
    | setName scope name v => exact assign h scope name v
    | setEnvironment scope env => exact setEnvironment h scope env
    | keep slot v => exact h
    | forget slot => exact h
    | hold scope => exact h
    | release scope => exact h
    | elsewhere process => exact I.quiet h { (s.core i).noise with process }

/-- **It holds in the course of a turn** for the engine. -/
theorem during (hI : I.Lasting) (hturn : turn.IsFor i) (h : I.holds [] (s.core i))
    (hd : s.During turn m c) : I.holds [] c := by
  induction hd with
  | start hask _ =>
    have hasks := asks hask
    obtain rfl := hturn _ hasks.engine
    exact hI.request ((hasks.core_eq _).symm ▸ h) hasks.request
  | @resume j f settlement m heq =>
    subst heq
    obtain rfl := hturn j rfl
    exact I.starting (arrive h j) _
  | @step m c m' c' _ hstep ih =>
    have hnext := hI.step ih m
    rwa [hstep] at hnext
  | @settle m c m' p c' settlement m'' _ hstep _ _ _ ih =>
    have hnext := hI.step ih m
    rw [hstep] at hnext
    exact I.apart hnext _ _ _ _

end Lasting

end Invariant

/-! ## What an engine is for life -/

/-- The engine has this global object, behind this root. -/
structure Core.Rooted (c : Core) (o : ObjectId) (r : ScopeId) : Prop where
  global : c.engine.global = o
  root : c.engine.root = r
  outline : c.heap.outline r = some (none, .inl o)

/-- An engine keeps its root and its global object. -/
def Invariant.rooted (o : ObjectId) (r : ScopeId) : Invariant where
  holds _ c := c.Rooted o r
  quiet h _ := ⟨h.global, h.root, h.outline⟩
  binding h scope name v :=
    ⟨h.global, h.root, (congrFun (Heap.outline_setLocal _ scope name v) r).trans h.outline⟩
  birth h _ := ⟨h.global, h.root, h.outline⟩
  link h _ _ _ := ⟨h.global, h.root, h.outline⟩
  capture _ h _ _ _ _ := ⟨h.global, h.root, Heap.Retains.of_push rfl r _ h.outline⟩
  share _ h _ _ _ := h
  code h _ := h
  mark h _ := h
  close h := h

theorem Invariant.lasting_rooted (o : ObjectId) (r : ScopeId) : (rooted o r).Lasting where
  frames h := ⟨h.global, h.root, h.outline⟩
  ended {c} h held := ⟨h.global, h.root,
    (congrFun (Heap.outline_prune c.heap c.engine.links held) r).trans h.outline⟩

/-- What an engine holds stays what it is. -/
def Invariant.owning (own : List Cell) : Invariant where
  holds _ c := c.engine.own = own
  quiet h _ := h
  binding h _ _ _ := h
  birth h _ := h
  link h _ _ _ := h
  capture _ h _ _ _ _ := h
  share _ h _ _ _ := h
  code h _ := h
  mark h _ := h
  close h := h

theorem Invariant.lasting_owning (own : List Cell) : (owning own).Lasting := ⟨id, fun h _ => h⟩

end Fermata
