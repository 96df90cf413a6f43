import Fermata.Proofs.Frame.Depth
import Fermata.Proofs.Link.Literal
import Fermata.Proofs.Position.Trail
import Fermata.Proofs.Resolve.Spans

/-!
# Positions of suspensions

When a value is waited for, the positions of the live activations are recorded. Each names the record of its
activation and gives the place of a node. The node lies within the expression under evaluation, which is the
one that touched the value in the innermost activation, and a call or a `new` that the next inner one comes
from in all others; and this one lies within the statement that the activation executes.

What an activation evaluates and executes is in no state of a machine: it is what began and has not ended on
the way there, before and after suspensions (`Session.Trails`).

* `Activation.Located`: what a position says of an activation.
* `Session.positions_located`: all positions of all suspensions of all evaluations.
-/

namespace Fermata

open Act

/-! ## Positions -/

/-- Where the code of the activation stands: the unit, or the function. -/
def Activation.extent (a : Activation) : Span :=
  match a.boundary with
  | .unit => a.frame.unit.program.span
  | .function _ => ((a.frame.unit.function? a.frame.record).map FunctionNode.span).getD {}

/-- The position has the name of the activation's record, and the line and the column, counted from one, at
which a node of an expression starts that is under evaluation in a statement of the activation's body. -/
structure Activation.Located (a : Activation) (t : Stmt) (e : Expr) (p : StackPosition) : Prop where
  name : ∃ r, a.frame.unit.record? a.frame.record = some r ∧ p.function = r.name
  node : ∃ (n : Code) (σ : Span), n.Within (.expr e) ∧ n.span? = some σ ∧ p.line = σ.start.line + 1 ∧
    p.column = σ.start.column + 1 ∧ σ.Inside e.span
  expr : (Code.expr e).Within (.stmt t) ∧ e.span.Inside t.span
  stmt : (Code.stmt t).Within (.body a.body) ∧ t.span.Inside a.extent

/-- Each position belongs to an activation of the machine, at the statement and the expression that the trail
of the activation ends with. Where a call reads the member that it calls, that is the member. -/
def Machine.Locates (m : Machine) (Ts : List Trail) (ps : List StackPosition) : Prop :=
  ∀ j p, ps[j]? = some p → ∃ a T t e, m.stack[j]? = some a ∧ Ts[j]? = some T ∧ T.stmt? = some t ∧
    T.site a.body a.conts = .expr e ∧ a.Located t e p ∧ (0 < j → T.inner a.body = .expr e ∧ e.Invokes)

section Located

variable {a : Activation} {T : Trail} {Ts : List Trail} {m : Machine} {e : Expr} {p : PendingId}

/-- The body of an activation lies inside of its extent. -/
theorem Activation.lies (hu : a.frame.unit.Compiled) : (Code.body a.body).Lies a.extent := by
  obtain ⟨source, outer, hu⟩ := hu
  obtain ⟨hprogram, hfunctions⟩ := CodeUnit.compile_snug hu
  obtain ⟨frame, boundary, conts⟩ := a
  cases boundary with
  | unit =>
    have hbody := (Outline.snug_node.mp hprogram).2.2
    exact (Outline.snugIn_iff.mp hbody).2
  | function name =>
    cases hfn : frame.unit.function? frame.record with
    | none =>
      simp only [body, extent, hfn, Option.map_none, Option.getD_none, Code.Lies, Stmt.outlines]
      exact Outline.nestedIn_nil.mpr trivial
    | some fn =>
      simp only [body, extent, hfn, Option.map_some, Option.getD_some]
      have hfunction := hfunctions _ fn hfn
      cases fn
      exact (Outline.snugIn_iff.mp (Outline.snug_node.mp hfunction).2.2).2

/-- An activation whose frame stands at a node of an expression of its trail. -/
theorem Activation.located (hu : a.frame.unit.Compiled) (hnamed : a.frame.Named)
    (hfits : T.Fits a.body a.conts) (hsite : T.site a.body a.conts = .expr e)
    (hmarks : a.frame.Marks (.expr e)) :
    ∃ t, T.stmt? = some t ∧ a.Located t e a.frame.position := by
  obtain ⟨r, hr, hname⟩ := hnamed
  have hexpr := Code.site_within (T.inner a.body) (a.conts.take (a.conts.length - T.base))
  rw [show (T.inner a.body).site _ = _ from hsite] at hexpr
  obtain ⟨e', he'⟩ := Code.expr_at (Code.expr_of_site hsite)
  rw [he'] at hexpr
  obtain ⟨t, ht, he't, hbody⟩ := hfits.nested.2 e' he'
  obtain ⟨n, hn, hspan⟩ := hmarks
  have hlies := (Activation.lies hu).within hbody
  have hin := hexpr.trans he't
  have hliesExpr := hlies.within hin
  refine ⟨t, ht, ⟨r, hr, hname⟩, ⟨n, _, hn, hspan, rfl, rfl, hliesExpr.inside hn rfl hspan⟩,
    ⟨hin, hlies.inside hin rfl rfl⟩, hbody, ?_⟩
  exact t.outline_span ▸ hlies.1

/-- **The positions of a machine that stands.** -/
theorem Machine.Traced.locates (h : m.Traced Ts) (hcontrol : m.control = .waiting p)
    (hcode : ∀ a ∈ m.stack, a.frame.unit.Compiled) (limit : Nat) :
    m.Locates Ts (m.positions limit) := by
  cases h with
  | ended control =>
    intro j q hq
    simp [positions] at hq
  | @live control a callers T Us ha hcallers =>
    obtain rfl : control = .waiting p := hcontrol
    intro j q hq
    unfold positions at hq
    rw [List.getElem?_map, Option.map_eq_some_iff] at hq
    obtain ⟨b, hb, rfl⟩ := hq
    have hb : (a :: callers)[j]? = some b := by
      rw [List.getElem?_take] at hb
      exact (ite_eq_iff.mp hb).elim And.right (fun h => nomatch h.2)
    cases j with
    | zero =>
      cases hb
      obtain ⟨e, he⟩ := Code.expr_at ha.next
      have hmarks := ha.marked trivial (Code.expr_of_site he)
      rw [he] at hmarks
      obtain ⟨t, ht, hlocated⟩ := Activation.located (hcode a List.mem_cons_self) ha.named ha.fits he hmarks
      exact ⟨a, T, t, e, rfl, rfl, ht, he, hlocated, fun h => absurd h (Nat.lt_irrefl 0)⟩
    | succ j =>
      obtain ⟨U, hU, hcalling⟩ : ∃ U, Us[j]? = some U ∧ b.Calling U := by
        obtain ⟨hj, rfl⟩ := List.getElem?_eq_some_iff.mp hb
        have hj' : j < Us.length := hcallers.length_eq ▸ Nat.lt_of_succ_lt_succ hj
        exact ⟨Us[j], List.getElem?_eq_getElem hj', hcallers.get (Nat.lt_of_succ_lt_succ hj) hj'⟩
      obtain ⟨e, he, hinvokes⟩ := Code.call_at hcalling.call
      have hsite := hcalling.site.trans he
      obtain ⟨t, ht, hlocated⟩ := Activation.located (hcode b (List.mem_of_getElem? hb)) hcalling.named
        hcalling.fits hsite (he ▸ hcalling.marked)
      exact ⟨b, U, t, e, hb, hU, ht, hsite, hlocated, fun _ => ⟨he, hinvokes⟩⟩

end Located

/-! ## Evaluations with their trails -/

namespace Session

/-- The machines that engine `i` runs in the course of an evaluation, each with its core and with the trails
of its activations. A machine that stood goes on with the trails that it had, in any session in which it is
parked. -/
inductive Trails (H : Host) : Session → Nat → Machine → Core → List Trail → Prop
  | start {s i act loan} : Live H s → i < s.stations.size → (s.station i).isBusy = false →
      Request H s i act loan →
      Trails H s i (Machine.start act (s.armed i)).1
        (Machine.start act (s.armed i)).2
        ((Machine.start act (s.armed i)).1.stack.map fun _ => [])
  | step {s i m c Ts m' c'} : Trails H s i m c Ts → m.step c = (.running m', c') →
      Trails H s i m' c' (m.trails m' Ts)
  | settle {s i m c Ts m' p c' settlement m''} : Trails H s i m c Ts → m.step c = (.parked m' p, c') →
      c'.heap.pendings.get p = .scheduled settlement → c'.heap.process.ripe p = true →
      m'.resume settlement = .ok m'' →
      Trails H s i m'' (((c'.record (c'.suspension m' p)).settle p settlement).watching .armed) Ts
  | resume {s t i m c Ts c' f settlement m''} : Trails H s i m c Ts →
      m.step c = (.parked f.machine f.pending, c') → Live H t → i < t.stations.size →
      (t.station i).flight = some f →
      ((t.arrive i).heap.pendings.get f.pending).settlement? = some settlement →
      f.machine.resume settlement = .ok m'' → Trails H t i m'' ((t.arrive i).armed i) Ts

/-- The evaluation stands at a machine with these trails, and this is what is recorded. -/
def Suspends (H : Host) (s : Session) (i : Nat) (m : Machine) (Ts : List Trail) (q : Suspension) : Prop :=
  ∃ m₀ c₀ c, Trails H s i m₀ c₀ Ts ∧ m₀.step c₀ = (.parked m q.pending, c) ∧
    q.positions = m.positions c.engine.settings.stackTraceLimit

variable {H : Host} {s t : Session} {i : Nat} {m m' : Machine} {c d : Core} {Ts : List Trail}
  {p : PendingId}

theorem Trails.running (h : Trails H s i m c Ts) :
    Live H s ∧ i < s.stations.size ∧ Running H s i m c := by
  induction h with
  | start hs hi hidle hact => exact ⟨hs, hi, .start hidle hact⟩
  | step _ hstep ih => exact ⟨ih.1, ih.2.1, .step ih.2.2 hstep⟩
  | settle _ hstep hp hripe hresume ih =>
    exact ⟨ih.1, ih.2.1, .settle ih.2.2 hstep hp hripe hresume⟩
  | resume _ _ ht hi hf hsettled hresume => exact ⟨ht, hi, .resume hf hsettled hresume⟩

/-! ### Every evaluation has trails -/

/-- Where a drive stands, it stood after a step of a machine with trails. -/
theorem Trails.drive (n : Nat) (h : Trails H s i m c Ts) (hstop : c.drive n m = (.parked m' p, d)) :
    ∃ m₀ c₀ Us c', Trails H s i m₀ c₀ Us ∧ m₀.step c₀ = (.parked m' p, c') ∧
      d = c'.record (c'.suspension m' p) := by
  refine Core.drive_induct (P := fun m c => ∃ Us, Trails H s i m c Us)
    (Q := fun r => ∀ m' p d, r = (.parked m' p, d) → ∃ m₀ c₀ Us c', Trails H s i m₀ c₀ Us ∧
      m₀.step c₀ = (.parked m' p, c') ∧ d = c'.record (c'.suspension m' p))
    (fun _ _ _ _ heq => by cases heq) (fun _ _ _ _ _ heq => by cases heq) (fun ⟨Us, h⟩ hs => ⟨_, .step h hs⟩)
    (fun ⟨Us, h⟩ hs m' p d heq => ?_) (fun ⟨Us, h⟩ hs hp hripe => ?_) n ⟨Ts, h⟩ m' p d hstop
  · cases heq
    exact ⟨_, _, Us, _, h, hs, rfl⟩
  · exact ⟨_, .settle h hs hp hripe (Machine.resume_waiting (Machine.control_of_step hs) _)⟩

theorem flight_settleStop_ne {j : Nat} (hij : i ≠ j) (loan : Loan) (stop : Core.Stop) (c : Core) :
    ((s.settleStop i loan stop c).2.station j).flight = (s.station j).flight := by
  cases stop <;>
    exact congrArg Station.flight (station_modifyStation_ne (s := { s with heap := _ }) hij _)

/-- What is parked by a drive of a machine with trails. -/
theorem Trails.settleStop {u : Session} {j n : Nat} {loan : Loan} {f : Flight}
    (h : Trails H s j m c Ts)
    (hparked : (u.station i).flight = some f → ∃ s₀ m₀ c₀ Us c', Trails H s₀ i m₀ c₀ Us ∧
      m₀.step c₀ = (.parked f.machine f.pending, c'))
    (hf : ((u.settleStop j loan (c.drive n m).1 (c.drive n m).2).2.station i).flight = some f) :
    ∃ s₀ m₀ c₀ Us c', Trails H s₀ i m₀ c₀ Us ∧ m₀.step c₀ = (.parked f.machine f.pending, c') := by
  by_cases hij : j = i
  · subst hij
    rcases flight_settleStop hf with hf | ⟨hstop, -⟩
    · exact hparked hf
    · obtain ⟨m₀, c₀, Us, c', hrun, hstep, -⟩ := h.drive n (Prod.ext hstop rfl)
      exact ⟨s, m₀, c₀, Us, c', hrun, hstep⟩
  · exact hparked ((flight_settleStop_ne hij _ _ _).symm.trans hf)

/-- **What is parked** stood after a step of a machine with trails. -/
theorem Trails.of_flight (hs : Live H s) : ∀ i f, (s.station i).flight = some f →
    ∃ s₀ m₀ c₀ Ts c', Trails H s₀ i m₀ c₀ Ts ∧ m₀.step c₀ = (.parked f.machine f.pending, c') := by
  induction hs with
  | empty fuel =>
    intro i f hf
    simp [Session.station] at hf
  | @step s t hs hstep ih =>
    intro i f hf
    cases hstep with
    | edit hedit => exact ih i f (flight_edit hedit hf)
    | @evaluate j act loan answer _ hj hact heq _ =>
      have ht := congrArg Prod.snd heq
      dsimp only at ht
      rw [← ht] at hf
      unfold Session.evaluate at hf
      split at hf
      · exact ih i f hf
      · rename_i hidle
        exact (Trails.start hs hj (Bool.eq_false_iff.mpr hidle) hact).settleStop (ih i f) hf
    | @poll j answer _ hj heq _ =>
      have ht := congrArg Prod.snd heq
      dsimp only at ht
      rw [← ht] at hf
      have harrived : ((s.arrive j).station i).flight = some f → _ := fun hf =>
        ih i f (by rwa [station_arrive] at hf)
      unfold Session.poll goOn at hf
      split at hf
      next => exact harrived hf
      next g hg =>
        rw [station_arrive] at hg
        split at hf
        next => exact harrived hf
        next settlement hsettled =>
          obtain ⟨s₀, m₀, c₀, Us, c', hrun, hstep⟩ := ih _ g hg
          cases hres : g.machine.resume settlement with
          | ok m =>
            rw [hres] at hf
            exact (hrun.resume hstep hs hj hg hsettled hres).settleStop harrived hf
          | error fault =>
            rw [hres] at hf
            rcases flight_settleStop hf with hf | ⟨hstop, -⟩
            · exact harrived hf
            · cases hstop

/-- **Every machine of an evaluation has trails.** -/
theorem Running.exists_trails (hs : Live H s) (hi : i < s.stations.size) (h : Running H s i m c) :
    ∃ Ts, Trails H s i m c Ts := by
  induction h with
  | start hidle hact => exact ⟨_, .start hs hi hidle hact⟩
  | resume hf hsettled hresume =>
    obtain ⟨s₀, m₀, c₀, Ts, c', hrun, hstep⟩ := Trails.of_flight hs _ _ hf
    exact ⟨Ts, hrun.resume hstep hs hi hf hsettled hresume⟩
  | step _ hstep ih =>
    obtain ⟨Ts, hrun⟩ := ih
    exact ⟨_, .step hrun hstep⟩
  | settle _ hstep hp hripe hresume ih =>
    obtain ⟨Ts, hrun⟩ := ih
    exact ⟨Ts, .settle hrun hstep hp hripe hresume⟩

end Session

/-! ## Trails of compiled code -/

/-- Compiled units everywhere, with the nodes of their bodies. -/
def Regime.bodies : Regime .compiling :=
  { Regime.sited with
    atlas := .bodies
    lone := false
    covers := fun _ _ h => Provenance.covers (fun u _ id fn hfn t ht => by
      refine .of_mem (List.mem_map_of_mem ?_)
      rw [hfn]
      exact ht) h.code
    place := fun _ _ ht => .of_mem (List.mem_map_of_mem ht) }

theorem Machine.Traced.length {m : Machine} {Ts : List Trail} (h : m.Traced Ts) :
    Ts.length = m.stack.length := by
  cases h with
  | ended => rfl
  | live _ hcallers => exact congrArg (· + 1) hcallers.length_eq.symm

/-- What a call starts has an empty trail. -/
theorem Machine.Traced.start {act : Act Move} {c : Core} (hcalls : Moves Move.Calls act)
    (hplaced : (Machine.start act c).1.Placed .bodies) :
    (Machine.start act c).1.Traced ((Machine.start act c).1.stack.map fun _ => []) := by
  unfold Machine.start at hplaced ⊢
  cases hact : act c with
  | error x d => exact .ended _
  | ok move d =>
    rw [hact] at hplaced
    have hmove := hcalls c move d hact
    cases move with
    | go push control => exact .ended _
    | linked frame v => exact hmove.elim
    | enter push a control =>
      exact .live (Activation.traced_start hmove.2 ⟨hplaced.1 a List.mem_cons_self, hplaced.2⟩) .nil

namespace Session

variable {s t : Session} {i : Nat} {m m' : Machine} {c d : Core} {Ts : List Trail} {p : PendingId}
  {q : Suspension}

theorem Request.calls {act : Act Move} {loan : Loan} (h : Request .compiling s i act loan) :
    Moves Move.Calls act := by
  cases h with
  | unit hu => exact openUnit_calls hu _
  | code _ hu => exact callUnit_calls ⟨_, _, hu⟩ 0 _
  | call fn this args => exact callValue_calls 0 _ fn this args

/-- Units of a machine with trails are compiled, and its code is in its place. -/
theorem Trails.runs (h : Trails .compiling s i m c Ts) : Invariant.sited.Runs .bodies m c :=
  Regime.running (R := .bodies) (Regime.live h.running.1 nofun) h.running.2.1 h.running.2.2

/-- **Trails and continuations fit in every evaluation of compiled code.** -/
theorem Trails.traced (h : Trails .compiling s i m c Ts) : m.Traced Ts := by
  have hparked : ∀ {m₀ : Machine} {c₀ c₁ : Core} {m₁ m₂ : Machine} {Us : List Trail} {p : PendingId}
      {τ : Settlement}, m₀.Traced Us → m₀.step c₀ = (.parked m₁ p, c₁) → m₁.resume τ = .ok m₂ →
      m₂.Traced Us := by
    intro m₀ c₀ c₁ m₁ m₂ Us p τ htraced hstep hresume
    obtain ⟨hstands, hwaits, -⟩ := htraced.parked hstep
    rw [Machine.resume_waiting hwaits] at hresume
    cases hresume
    exact hstands.resume hwaits τ
  induction h with
  | start hs hi hidle hact =>
    exact .start hact.calls (Trails.start hs hi hidle hact).runs.placed
  | step hrun hstep ih => exact ih.step (Regime.bodies.covers _ _ hrun.runs.holds) hstep
  | settle _ hstep _ _ hresume ih => exact hparked ih hstep hresume
  | resume _ hstep _ _ _ _ hresume ih => exact hparked ih hstep hresume

/-- **Whatever is recorded** has a position for each activation, up to the limit of the engine. -/
theorem Suspends.located (hs : Suspends .compiling s i m Ts q) :
    q.positions.length = min m.stack.length (s.engine i).settings.stackTraceLimit ∧
      Ts.length = m.stack.length ∧ m.Locates Ts q.positions := by
  obtain ⟨m₀, c₀, c, hrun, hstep, hq⟩ := hs
  obtain ⟨htraced, hwaits, -⟩ := hrun.traced.parked hstep
  have hsettings : c.engine.settings = (s.engine i).settings :=
    ((Running.shallow (hrun.running.1.shallow i) (hrun.running.1.below_armed i)
      hrun.running.2.2).parked hstep).settings
  have hholds := (hrun.runs.parked Regime.bodies.covers hstep).1
  rw [hq, ← hsettings]
  refine ⟨?_, htraced.length, htraced.locates hwaits (fun a ha => ?_) _⟩
  · unfold Machine.positions
    rw [List.length_map, List.length_take, Nat.min_comm]
  · exact hholds.code.1 a.frame (List.mem_map_of_mem ha)

/-- With no activations below, what is recorded is that of the machine. -/
theorem positions_suspension (hbelow : c.engine.below = []) :
    (c.suspension m p).positions = m.positions c.engine.settings.stackTraceLimit := by
  simp only [Core.suspension, hbelow, List.append_nil]
  refine List.take_of_length_le ?_
  unfold Machine.positions
  rw [List.length_map]
  exact List.length_take_le ..

/-- What the host is told, and what is parked, where a drive of a machine with trails stands. -/
theorem Trails.told {H : Host} {u : Session} {n k : Nat} {loan : Loan} (h : Trails H s i m c Ts)
    (hi : i < u.stations.size)
    (htold : u.settleStop i loan (c.drive n m).1 (c.drive n m).2 = (.suspended q k, t)) :
    ∃ f Us, Suspends H s i f.machine Us q ∧ (t.station i).flight = some f ∧ f.pending = q.pending ∧
      f.loan = loan := by
  cases hdrive : c.drive n m with
  | mk stop d =>
    rw [hdrive] at htold
    cases stop with
    | done | outOfFuel => cases htold
    | parked m' p =>
      obtain ⟨m₀, c₀, Us, c', hrun, hstep, rfl⟩ := h.drive n hdrive
      obtain ⟨hlive, -, hrunning⟩ := hrun.running
      have hbelow := ((hrunning.shallow (hlive.shallow i) (hlive.below_armed i)).parked hstep).below
      cases htold
      refine ⟨_, Us, ?_, congrArg Station.flight (station_parkedAt hi), rfl, rfl⟩
      exact ⟨m₀, c₀, c', hrun, hstep, positions_suspension hbelow⟩

/-- **Positions of suspensions describe the live stack.** Every machine of an evaluation of compiled code
has trails. Wherever it stands, one position is recorded for each activation, innermost first, up to the
limit of the engine, and each is that of a node of the code which the activation evaluates. That is what the
host is told by the evaluation, and by the poll that goes on with it. -/
theorem positions_located (hs : Live .compiling s) (hi : i < s.stations.size) :
    (∀ m c, Running .compiling s i m c → ∃ Ts, Trails .compiling s i m c Ts) ∧
      (∀ m Ts q, Suspends .compiling s i m Ts q →
        q.positions.length = min m.stack.length (s.engine i).settings.stackTraceLimit ∧
          Ts.length = m.stack.length ∧ m.Locates Ts q.positions) ∧
      (∀ act loan, Request .compiling s i act loan → ∀ q n t,
        s.evaluate i act loan = (.suspended q n, t) → ∃ g Ts, Suspends .compiling s i g.machine Ts q ∧
          (t.station i).flight = some g ∧ g.pending = q.pending ∧ g.loan = loan) ∧
      ∀ f τ, (s.station i).flight = some f →
        ((s.arrive i).heap.pendings.get f.pending).settlement? = some τ →
        ∀ q n t, s.poll i = (some (.suspended q n), t) → ∃ g Ts, Suspends .compiling s i g.machine Ts q ∧
          (t.station i).flight = some g ∧ g.pending = q.pending ∧ g.loan = f.loan := by
  refine ⟨fun m c hm => hm.exists_trails hs hi, fun m Ts q hq => hq.located,
    fun act loan hact q n t htold => ?_, fun f τ hf hset q n t htold => ?_⟩
  · unfold evaluate at htold
    split at htold
    · cases htold
    · rename_i hidle
      exact (Trails.start hs hi (Bool.eq_false_iff.mpr hidle) hact).told hi htold
  · obtain ⟨s₀, m₀, c₀, Ts, c', hrun, hstep⟩ := Trails.of_flight hs i f hf
    have hwaits := (hrun.traced.parked hstep).2.1
    rw [poll, goOn_flight (by rwa [station_arrive]) hset hwaits] at htold
    obtain ⟨hanswer, ht⟩ := Prod.ext_iff.mp htold
    exact (hrun.resume hstep hs hi hf hset (Machine.resume_waiting hwaits τ)).told
      (by rwa [stations_arrive]) (Prod.ext (Option.some.inj hanswer) ht)

end Session

/-- A function that meets a pending value. -/
def CodeUnit.awaitingInside : CodeUnit := .ofSource "function f() { return answer; } f()"

namespace Session

/-- A function waits for a value: it stands at the name, and the program at the call. -/
theorem positions_located_inside :
    CodeUnit.compile "function f() { return answer; } f()" [] = .ok .awaitingInside ∧
      ∃ m Ts q n t, awaitingAnswer.runUnit 0 .awaitingInside = (.suspended q n, t) ∧
        Suspends .compiling awaitingAnswer 0 m Ts q ∧ q.pending = ⟨0, 0⟩ ∧
        q.positions = [⟨"f", 1, 23⟩, ⟨programName, 1, 33⟩] ∧ m.stack.length = 2 ∧
        m.Locates Ts q.positions := by
  have hcompiled : CodeUnit.compile "function f() { return answer; } f()" [] = .ok .awaitingInside :=
    CodeUnit.compile_ofSource (by decide +kernel)
  have hunit : Request .compiling awaitingAnswer 0
      (Act.openUnit .awaitingInside (awaitingAnswer.engine 0).root) {} := .unit ⟨_, _, hcompiled⟩
  obtain ⟨-, hlocated, hanswers, -⟩ :=
    positions_located (i := 0) live_awaitingAnswer (by decide +kernel)
  have htold : (awaitingAnswer.runUnit 0 .awaitingInside).1.suspension?.any fun q =>
      q.pending = ⟨0, 0⟩ && q.positions = [⟨"f", 1, 23⟩, ⟨programName, 1, 33⟩] := by
    decide +kernel
  obtain ⟨q, hq, hseen⟩ := (Option.any_eq_true ..).mp htold
  simp only [Bool.and_eq_true, decide_eq_true_eq] at hseen
  obtain ⟨n, hn⟩ := Answer.eq_of_suspension? hq
  have hanswer : awaitingAnswer.runUnit 0 .awaitingInside =
      (.suspended q n, (awaitingAnswer.runUnit 0 .awaitingInside).2) := by
    rw [← hn]
  obtain ⟨⟨m, _, _, _, _⟩, Ts, hsuspends, -⟩ := hanswers _ _ hunit q n _ hanswer
  obtain ⟨hlength, -, hlocates⟩ := hlocated m Ts q hsuspends
  have hlimit : (awaitingAnswer.engine 0).settings.stackTraceLimit = 100 := by decide +kernel
  rw [hseen.2, hlimit] at hlength
  have hstack : m.stack.length = 2 := by
    simp only [List.length_cons, List.length_nil] at hlength
    omega
  exact ⟨hcompiled, m, Ts, q, n, _, hanswer, hsuspends, hseen.1, hseen.2, hstack, hlocates⟩

end Session

end Fermata
