import Fermata.Proofs.Custody.Tolerance

/-!
# The depth of evaluations

A unit is opened on an empty stack, and everything else that opens an activation looks first how many
there are. So an evaluation never has more activations than the settings of its engine allow, and never
fewer than one are allowed. An engine keeps its settings, and an evaluation that is parked keeps its
activations; what unwinds only takes some away.

* `Law.shallow`: acts keep the depth within the settings.
* `Core.Shallow.step`, `Core.Shallow.drive`: steps and drives keep it there.
* `Session.Live.shallow`, `Session.Running.shallow`: it stays there for the life of a session.
-/

namespace Fermata

open Act

/-- The core has these settings, its evaluation begins with no activation, and this many are allowed. -/
structure Core.Shallow (c : Core) (σ : Settings) (n : Nat) : Prop where
  settings : c.engine.settings = σ
  below : c.engine.below = []
  depth : n ≤ max 1 σ.maxCallDepth

/-- One more activation is allowed where the depth was looked at. -/
theorem Core.Shallow.deeper {c : Core} {σ : Settings} {n : Nat} (h : c.Shallow σ n)
    (hn : n < c.engine.settings.maxCallDepth) : c.Shallow σ (n + 1) := by
  refine ⟨h.settings, h.below, ?_⟩
  rw [h.settings] at hn
  omega

/-- A drive stopped with the settings kept, and the depth of what is parked within them. -/
inductive Core.Shallow.Stops (σ : Settings) : Core.Stop × Core → Prop
  | done {outcome c} : c.engine.settings = σ → Stops σ (.done outcome, c)
  | parked {m p c} : c.Shallow σ m.stack.length → Stops σ (.parked m p, c)
  | outOfFuel {m c} : c.engine.settings = σ → Stops σ (.outOfFuel m, c)

/-- Acts keep the depth within the settings. -/
def Law.shallow (σ : Settings) : Law where
  rel fs c d := d = c ∧ c.Shallow σ fs.length
  apart := by
    rintro fs c d ⟨rfl, -⟩
    exact ⟨_, _, _, _, rfl⟩
  next := by
    rintro fs c d ⟨rfl, -⟩ region
    rfl
  objects := by
    rintro fs c d ⟨rfl, h⟩ S
    exact ⟨rfl, h.settings, h.below, h.depth⟩
  console := by
    rintro fs c d ⟨rfl, h⟩ lines
    exact ⟨rfl, h.settings, h.below, h.depth⟩
  pending := by
    rintro fs c d ⟨rfl, h⟩ s
    exact ⟨rfl, h.settings, h.below, h.depth⟩
  binding := by
    rintro fs c d ⟨rfl, h⟩ scope name v
    exact ⟨rfl, h.settings, h.below, h.depth⟩
  birth := by
    rintro f fs c d node fn ⟨rfl, h⟩ -
    exact ⟨rfl, h.settings, h.below, h.depth⟩
  link := by
    rintro f fs c d node fn r next ⟨rfl, h⟩ - - -
    exact ⟨rfl, h.settings, h.below, h.depth⟩
  capture := by
    rintro fs c d r defining bindings this id ⟨rfl, h⟩ hdepth - - - -
    have hmore := h.deeper hdepth
    exact ⟨rfl, hmore.settings, hmore.below, hmore.depth⟩
  share := by
    rintro fs c d r defining id ⟨rfl, h⟩ hdepth - - -
    exact ⟨rfl, h.deeper hdepth⟩
  code := by
    rintro f fs c d source unit ⟨rfl, h⟩ hdepth -
    exact ⟨rfl, h.deeper hdepth⟩
  mark := by
    rintro f fs c d ⟨rfl, h⟩ span
    exact ⟨rfl, h⟩
  close := by
    rintro f fs c d ⟨rfl, h⟩
    exact ⟨rfl, h.settings, h.below, Nat.le_of_succ_le h.depth⟩

/-! ## Machines -/

theorem Machine.length_frames (m : Machine) : m.frames.length = m.stack.length :=
  List.length_map _

theorem Machine.stack_resume {m m' : Machine} {τ : Settlement} (h : m.resume τ = .ok m') :
    m'.stack = m.stack := by
  unfold Machine.resume at h
  split at h <;> cases h <;> rfl

namespace Core.Shallow

variable {σ : Settings} {m m' : Machine} {c c' : Core}

/-- **A step keeps the depth within the settings.** -/
theorem step (h : c.Shallow σ m.stack.length) :
    (m.step c).2.Shallow σ (m.step c).1.frames.length := by
  by_cases hv : ∃ id, m.control = .checkpoint (.pending id)
  · obtain ⟨id, hv⟩ := hv
    obtain ⟨control, stack⟩ := m
    obtain rfl : control = .checkpoint (.pending id) := hv
    cases stack with
    | nil => exact ⟨h.settings, h.below, Nat.zero_le _⟩
    | cons a callers =>
      have hframes : ∀ control, (Progress.running ⟨control, a :: callers⟩).frames.length =
          (a :: callers).length := fun control => Machine.length_frames _
      unfold Machine.step
      dsimp only
      obtain ⟨w, ⟨control, hpass⟩ | ⟨x, hpass⟩⟩ := pass_watching (.pending id) c
      · rw [hpass]
        cases control <;> exact ⟨h.settings, h.below, (hframes _).symm ▸ h.depth⟩
      · rw [hpass]
        exact ⟨h.settings, h.below, (hframes _).symm ▸ h.depth⟩
  · have hrel : (Law.shallow σ).rel m.frames c c := ⟨rfl, m.length_frames.symm ▸ h⟩
    exact (Law.step hrel fun id hid => hv ⟨id, hid⟩).2.2

theorem running (h : c.Shallow σ m.stack.length) (hstep : m.step c = (.running m', c')) :
    c'.Shallow σ m'.stack.length := by
  have hnext := h.step
  rw [hstep] at hnext
  exact m'.length_frames ▸ hnext

theorem parked {p : PendingId} (h : c.Shallow σ m.stack.length)
    (hstep : m.step c = (.parked m' p, c')) : c'.Shallow σ m'.stack.length := by
  have hnext := h.step
  rw [hstep] at hnext
  exact m'.length_frames ▸ hnext

/-- **A drive keeps the depth within the settings.** -/
theorem drive (h : c.Shallow σ m.stack.length) (n : Nat) : Stops σ (c.drive n m) := by
  refine Core.drive_induct (P := fun m c => c.Shallow σ m.stack.length) (Q := Stops σ)
    (fun h => .outOfFuel h.settings) (fun {m c outcome d} h hstep => ?_) running (fun h hstep => ?_)
    (fun h hstep _ _ => ?_) n h
  · have hnext := h.step
    rw [hstep] at hnext
    exact .done hnext.settings
  · have hnext := h.parked hstep
    exact .parked ⟨hnext.settings, hnext.below, hnext.depth⟩
  · have hnext := h.parked hstep
    exact ⟨hnext.settings, hnext.below, hnext.depth⟩

end Core.Shallow

/-- The parked evaluation of an engine has no more activations than the settings allow. -/
def Station.Shallow (t : Station) : Prop :=
  ∀ f, t.flight = some f → f.machine.stack.length ≤ max 1 t.engine.settings.maxCallDepth

namespace Session

variable {H : Host} {s t : Session} {i j : Nat} {m : Machine} {c : Core}

/-- The core of an engine that begins to evaluate, or goes on, has its settings. -/
theorem shallow_armed (hb : (s.armed i).engine.below = []) {n : Nat}
    (hn : n ≤ max 1 (s.engine i).settings.maxCallDepth) :
    (s.armed i).Shallow (s.engine i).settings n :=
  ⟨rfl, hb, hn⟩

/-- What a host asks for begins with one activation or none. -/
theorem Request.shallow {act : Act Move} {loan : Loan} (h : Request H s i act loan)
    (hb : (s.armed i).engine.below = []) :
    let r := Machine.start act (s.armed i)
    r.2.Shallow (s.engine i).settings r.1.stack.length := by
  intro r
  have hone : (s.armed i).Shallow (s.engine i).settings 1 := shallow_armed hb (Nat.le_max_left ..)
  have hnone : (Law.shallow (s.engine i).settings).rel [] (s.armed i)
      (s.armed i) := ⟨rfl, shallow_armed hb (Nat.zero_le _)⟩
  have hstart := Law.start (L := .shallow (s.engine i).settings) (p := act)
    (c := s.armed i) (d := s.armed i) ?_
  · exact r.1.length_frames ▸ hstart.2.2
  · cases h with
    | unit hu => exact Law.openFrame _ _ _ _ _ ⟨rfl, hone⟩
    | @code scope _ u _ hu => exact Law.callUnit u scope hnone fun _ => ⟨rfl, hone⟩
    | call fn this args =>
      refine Law.callValue (s.engine i).root fn this args ?_ _ _ hnone
      rintro c d source u ⟨rfl, hc⟩ hdepth -
      exact ⟨rfl, hc.deeper hdepth⟩

/-- What goes on begins with the activations that were parked. -/
theorem shallow_resumed {f : Flight} {m : Machine} {τ : Settlement} (hs : (s.station i).Shallow)
    (hb : (s.armed i).engine.below = []) (hf : (s.station i).flight = some f)
    (hresume : f.machine.resume τ = .ok m) :
    (s.armed i).Shallow (s.engine i).settings m.stack.length :=
  shallow_armed hb (Machine.stack_resume hresume ▸ hs f hf)

/-- **In the course of an evaluation** the settings stay and allow all activations. -/
theorem Running.shallow (hs : (s.station i).Shallow) (hb : (s.armed i).engine.below = [])
    (hm : Running H s i m c) : c.Shallow (s.engine i).settings m.stack.length := by
  induction hm with
  | start _ hact => exact hact.shallow hb
  | resume hf _ hresume =>
    have harrived := shallow_resumed (s := s.arrive i) (i := i) (by rwa [station_arrive])
      (by simpa [armed, core, Core.starting] using hb) (by rwa [station_arrive]) hresume
    rwa [engine_arrive] at harrived
  | step _ hstep ih => exact ih.running hstep
  | settle _ hstep _ _ hresume ih =>
    have hparked := ih.parked hstep
    refine ⟨hparked.settings, hparked.below, ?_⟩
    rw [Machine.stack_resume hresume]
    exact hparked.depth

/-! ## The life of a session -/

/-- What an evaluation of engine `j` leaves of the stations. -/
theorem shallow_settleStop {loan : Loan} {r : Core.Stop × Core} (hs : (s.station i).Shallow)
    (hj : j < s.stations.size) (hstop : Core.Shallow.Stops (s.engine j).settings r) :
    ((s.settleStop j loan r.1 r.2).2.station i).Shallow := by
  by_cases hij : j = i
  · subst hij
    cases hstop with
    | done hsettings =>
      rw [settleStop_done, leaving, station_seat hj]
      exact fun f hf => by cases hf
    | parked hparked =>
      rw [settleStop_parked, station_parkedAt hj]
      intro f hf
      cases hf
      exact hparked.settings ▸ hparked.depth
    | outOfFuel hsettings =>
      rw [settleStop_outOfFuel, station_seat hj]
      intro f hf
      exact hsettings ▸ hs f hf
  · have hstation : (s.settleStop j loan r.1 r.2).2.station i = s.station i := by
      cases hstop with
      | done => exact station_seat_ne (Ne.symm hij) ..
      | parked => rw [settleStop_parked, parkedAt, station_seat_ne (Ne.symm hij)]
      | outOfFuel => exact station_seat_ne (Ne.symm hij) ..
    rw [hstation]
    exact hs

theorem shallow_evaluate {act : Act Move} {loan : Loan} (hs : (s.station i).Shallow)
    (hb : (s.armed j).engine.below = []) (hj : j < s.stations.size) (hact : Request H s j act loan) :
    ((s.evaluate j act loan).2.station i).Shallow := by
  unfold Session.evaluate
  split
  · exact hs
  · exact shallow_settleStop hs hj ((hact.shallow hb).drive s.fuel)

theorem shallow_goOn (hs : ∀ i, (s.station i).Shallow) (hb : (s.armed j).engine.below = [])
    (hj : j < s.stations.size) : ((s.goOn j).2.station i).Shallow := by
  unfold goOn
  split
  next => exact hs i
  next f hf =>
    split
    next => exact hs i
    next τ _ =>
      dsimp only
      cases hresume : f.machine.resume τ with
      | error fault =>
        exact shallow_settleStop (r := (.done (.error (.fault fault)), s.armed j)) (hs i) hj
          (.done rfl)
      | ok m => exact shallow_settleStop (hs i) hj ((shallow_resumed (hs j) hb hf hresume).drive s.fuel)

theorem shallow_poll (hs : ∀ i, (s.station i).Shallow) (hb : (s.armed j).engine.below = [])
    (hj : j < s.stations.size) : ((s.poll j).2.station i).Shallow := by
  refine shallow_goOn (fun i => ?_) ?_ ?_
  · rw [station_arrive]
    exact hs i
  · simpa [armed, core, Core.starting] using hb
  · rwa [stations_arrive]

/-- What a host does by itself leaves the settings of the engines that there are. -/
theorem settings_edit (h : Edit H s t) (hi : i < s.stations.size) :
    (t.engine i).settings = (s.engine i).settings := by
  have hmodify : ∀ (u : Session) (j : Nat) (g : Station → Station),
      (∀ st, (g st).engine.settings = st.engine.settings) →
      ((u.modifyStation j g).station i).engine.settings = (u.station i).engine.settings := by
    intro u j g hg
    rcases u.station_modifyStation_cases j i g with heq | heq <;> rw [heq]
    exact hg _
  cases h with
  | engine name settings host defines =>
    simp [addEngine, engine, station, Array.getElem?_push, Nat.ne_of_lt hi]
  | abandon j =>
    rcases s.abandon_cases j with ⟨heq, -⟩ | ⟨f, -, heq⟩ <;> rw [heq]
    exact hmodify _ j _ fun _ => rfl
  | console j => exact hmodify _ j _ fun _ => rfl
  | link _ => exact hmodify _ _ _ fun _ => rfl
  | compile hu =>
    rcases compile_cases hu with rfl | ⟨u, units, rfl⟩
    · rfl
    · exact hmodify _ _ _ fun _ => rfl
  | compileIn hu =>
    obtain ⟨u, rfl⟩ := compileIn_cases hu
    rfl
  | _ => rfl

/-- There is no evaluation without an engine. -/
theorem lt_size_of_flight {f : Flight} (hf : (s.station i).flight = some f) :
    i < s.stations.size := by
  by_contra hi
  rw [station, Array.getElem?_eq_none (Nat.le_of_not_lt hi)] at hf
  cases hf

/-- **In every session** that a host can get to, whatever is parked keeps within the settings. -/
theorem Live.shallow (hs : Live H s) (i : Nat) : (s.station i).Shallow := by
  induction hs generalizing i with
  | empty fuel => exact fun f hf => by cases hf
  | step hs hstep ih =>
    cases hstep with
    | edit hedit =>
      intro f hf
      have hold := flight_edit hedit hf
      have hsettings := settings_edit hedit (lt_size_of_flight hold)
      exact hsettings ▸ ih i f hold
    | @evaluate j _ _ _ _ hj hact heq _ =>
      have hleft := shallow_evaluate (ih i) (hs.below_armed j) hj hact
      rwa [heq] at hleft
    | @poll j _ _ hj heq _ =>
      have hleft := shallow_poll (i := i) ih (hs.below_armed j) hj
      rwa [heq] at hleft

end Session

end Fermata
