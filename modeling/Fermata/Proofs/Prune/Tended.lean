import Fermata.Proofs.Custody.Tolerance
import Fermata.Proofs.Prune.Effect
import Fermata.Proofs.Prune.Living
import Fermata.Proofs.Session.Provenance
import Fermata.Proofs.Suspension.Protocol

/-!
# Pruning is exact and safe

After an evaluation the table keeps the associations of the closures that are held from outside, and
no others. A host that holds on to what it uses, and makes up no references, never misses one: every
closure that it or a guest can get at is linked, so a call of it finds the defining scope.

* `Heap.Outlives`: what counts as held from outside.
* `Core.Prunes`: what is left after an evaluation.
* `Session.Tended`: sessions of a host that uses only what it has.
* `Session.pruning_exact`: the table is exact, and nothing that is still needed was pruned.
-/

namespace Fermata

open Act

/-! ## What is left after an evaluation -/

namespace Heap

/-- The cell is held from outside: it is a root, or a native function or pending value that is there at
all, or on a circle that the graph behind the table does not have, or behind one of these. -/
inductive Outlives (h : Heap) (links : Links) (roots : List Cell) : Cell → Prop
  | root {x} : x ∈ roots → h.contains x → Outlives h links roots x
  | hidden {x} : h.Present links roots x → x.isSealed → Outlives h links roots x
  | leaked {x} : h.OnCircle links x → ¬h.InGraph links roots x → Outlives h links roots x
  | held {x y} : Outlives h links roots x → y ∈ h.heldBy links x → h.contains y →
      Outlives h links roots y

theorem Reaches.outlives {h : Heap} {links : Links} {roots : List Cell} {x : Cell}
    (hx : h.Reaches links roots x) : h.Outlives links roots x := by
  induction hx with
  | root hx hin => exact .root hx hin
  | held _ hy hin ih => exact .held ih hy hin

/-- What is there and not in the graph is held from outside: the way to it leaves the graph through a
native function or a pending value. -/
theorem Present.outlives {h : Heap} {links : Links} {roots : List Cell} {x : Cell}
    (hx : h.Present links roots x) : h.InGraph links roots x ∨ h.Outlives links roots x := by
  have hstep : ∀ x y, h.Present links roots y → y ∈ h.heldBy links x → h.contains y →
      h.InGraph links roots x ∨ h.Outlives links roots x →
      h.InGraph links roots y ∨ h.Outlives links roots y := by
    rintro x y hthere hy hin (hx | hx)
    · cases hs : y.isSealed with
      | true => exact .inr (.hidden hthere hs)
      | false => exact .inl (.held hx hy hin hs)
    · exact .inr (.held hx hy hin)
  induction hx with
  | reached hr =>
    rcases hr.append with hx | hx
    · exact .inr hx.outlives
    · clear hr
      induction hx with
      | root hx hin => exact .inl (.scope hx hin)
      | held hx hy hin ih =>
        have hthere := (Reaches.held hx hy hin).trans fun _ hr hin =>
          Reaches.root (List.mem_append_right roots hr) hin
        exact hstep _ _ (.reached hthere) hy hin ih
  | @circle x hx =>
    by_cases hin : h.InGraph links roots x
    · exact .inl hin
    · exact .inr (.leaked hx hin)
  | held hx hy hin ih => exact hstep _ _ (.held hx hy hin) hy hin ih

theorem kept_iff_outlives {h : Heap} {links : Links} {roots : List Cell} {x : Cell} :
    h.Kept links roots x ↔ h.Outlives links roots x := by
  constructor
  · intro hx
    induction hx with
    | root hx hin =>
      rcases (h.mem_outer links roots _).mp hx with hx | ⟨hx, hout⟩
      · exact .root hx hin
      · exact hx.outlives.resolve_left hout
    | held _ hy hin ih => exact .held ih hy hin
  · intro hx
    induction hx with
    | root hx hin => exact .root ((h.mem_outer links roots _).mpr (.inl hx)) hin
    | hidden hx hsealed => exact hx.kept_sealed hsealed
    | leaked hx hout =>
      exact .root ((h.mem_outer links roots _).mpr (.inr ⟨.circle hx, hout⟩)) hx.back.contains
    | held _ hy hin ih => exact .held ih hy hin

end Heap

/-- What an evaluation that ended with the core `c` leaves of it, where `roots` were held. -/
structure Core.Prunes (c : Core) (roots : List Cell) (d : Core) : Prop where
  /-- An association is kept, as it was, exactly if its closure is held from outside. -/
  table (n : Nat) (a : Association) : d.engine.links[n]? = some a ↔
    c.engine.links[n]? = some a ∧ c.heap.Outlives c.engine.links roots (.closure a.closure)
  /-- A scope that is held from outside keeps its bindings. -/
  scope {id} : c.heap.Outlives c.engine.links roots (.scope id) →
    d.heap.scopes.get? id = c.heap.scopes.get? id
  rest : d.heap = { c.heap with scopes := d.heap.scopes }

theorem Core.prunes_ended (c : Core) (roots : List Cell) : c.Prunes roots (c.ended roots) := by
  refine ⟨fun n a => ?_, fun {id} hid => ?_, Heap.prune_eq ..⟩
  · rw [← Heap.kept_iff_outlives]
    exact Heap.getElem?_prune ..
  · exact Heap.get?_prune_kept (Heap.kept_iff_outlives.mpr hid)

/-! ## Numbers of closures -/

/-- An engine that is alone gives out numbers in order, whatever its host does. -/
def Regime.counted (H : Host) : Regime H where
  invariant := .counted
  atlas := .any
  lone := true
  covers _ c _ := Atlas.covers_any c
  place _ _ _ := trivial
  unit h _ := h
  code h _ := h
  ended h held := h.ended held
  child h _ _ _ _ := ⟨h.free, h.given⟩
  link {s scope id i _} _ h := by
    rcases s.core_link scope id i with heq | ⟨-, heq⟩
    · rw [heq]
      exact h
    · rw [heq]
      exact h.associate (h.given id) _
  first {h} hfresh name settings host defines := by
    refine ⟨fun n _ => Std.TreeMap.getElem?_emptyc, fun id => ?_⟩
    have hclosures := (Engine.create_heap h (engineRegion 0) name settings host defines).closures
    unfold Store.get
    rw [hclosures, hfresh.closures id]
    exact Nat.one_pos
  further hlone := by cases hlone
  others hlone := by cases hlone

/-- What an answer hands over. -/
def Answer.held : Answer → List Cell
  | .finished (.ok v) => Cell.ofValues [v]
  | _ => []

/-! ## Edits -/

namespace Session

variable {H : Host} {s t : Session}

/-- A host makes no closures. -/
theorem closures_edit (h : Edit H s t) : t.heap.closures = s.heap.closures := by
  cases h with
  | abandon i =>
    rcases s.abandon_cases i with ⟨heq, -⟩ | ⟨f, -, heq⟩
    · rw [heq]
    · rw [heq]
      rfl
  | engine name settings host defines =>
    simp only [addEngine]
    exact (Engine.create_heap ..).closures
  | compile hu =>
    rcases compile_cases hu with rfl | ⟨u, units, rfl⟩
    · rfl
    · rfl
  | compileIn hu =>
    obtain ⟨u, rfl⟩ := compileIn_cases hu
    rfl
  | _ => rfl

/-- A host takes no association away. -/
theorem links_edit (h : Edit H s t) {i n : Nat} {a : Association} (hi : i < s.stations.size)
    (ha : (s.engine i).links[n]? = some a) : (t.engine i).links[n]? = some a := by
  have hmodify : ∀ (k : Nat) (g : Station → Station),
      (∀ st, (g st).engine.links = st.engine.links) →
        ((s.modifyStation k g).engine i).links[n]? = some a := by
    intro k g hg
    unfold engine
    rcases s.station_modifyStation_cases k i g with heq | heq
    · rw [heq]
      exact ha
    · rw [heq, hg]
      exact ha
  cases h with
  | engine name settings host defines =>
    have hne : i ≠ s.stations.size := Nat.ne_of_lt hi
    simpa [addEngine, engine, station, Array.getElem?_push, hne] using ha
  | abandon k =>
    rcases s.abandon_cases k with ⟨heq, -⟩ | ⟨f, -, heq⟩ <;> rw [heq]
    · exact ha
    · exact hmodify k _ fun _ => rfl
  | console k => exact hmodify k _ fun _ => rfl
  | compile hu =>
    rcases compile_cases hu with rfl | ⟨u, units, rfl⟩
    · exact ha
    · exact hmodify _ _ fun _ => rfl
  | compileIn hu =>
    obtain ⟨u, rfl⟩ := compileIn_cases hu
    exact ha
  | @link scope id _ =>
    rcases s.core_link scope id i with heq | ⟨-, heq⟩
    · rw [show (s.link scope id).2.engine i = s.engine i from congrArg Core.engine heq]
      exact ha
    · rw [show (s.link scope id).2.engine i = _ from congrArg Core.engine heq]
      change ((s.engine i).links.associate _ _).2[n]? = some a
      rw [Links.getElem?_associate, if_neg]
      · exact ha
      · rintro ⟨rfl, hnot⟩
        rw [Std.TreeMap.contains_eq_isSome_getElem?, ha] at hnot
        exact hnot rfl
  | _ => exact ha

theorem definingScope?_edit (h : Edit H s t) {i : Nat} (hi : i < s.stations.size) {id : ClosureId}
    (hid : ((s.engine i).links.definingScope? s.heap id).isSome) :
    ((t.engine i).links.definingScope? t.heap id).isSome := by
  obtain ⟨scope, hscope⟩ := Option.isSome_iff_exists.mp hid
  obtain ⟨a, ha, hclosure, -⟩ := Links.definingScope?_eq_some hscope
  unfold Links.definingScope?
  rw [closures_edit h, links_edit h hi ha]
  dsimp only
  rw [if_pos hclosure]
  rfl

/-! ## A host that uses what it has -/

/-- What the host holds, with what is `hand` at hand, and what its engine holds. -/
def grasp (s : Session) (hand : List Cell) : List Cell :=
  s.roots 0 ++ (s.station 0).inFlight ++ hand

/-- The host or a guest can get at the cell. -/
def Behind (s : Session) (hand : List Cell) (x : Cell) : Prop :=
  s.heap.Reaches (s.engine 0).links (s.grasp hand) x

/-- What a host does by itself makes up no reference: whatever it can get at afterwards is there, and
is new or was within its reach. -/
structure Sincere (s : Session) (hand : List Cell) (t : Session) (hand' : List Cell) : Prop where
  there : ∀ x ∈ t.grasp hand', t.heap.contains x = true
  content : ∀ x, t.Behind hand' x → ∀ y ∈ t.heap.heldBy (t.engine 0).links x,
    t.heap.contains y = true
  known : ∀ x, t.Behind hand' x → s.heap.contains x = true → s.Behind hand x

/-- The sessions of a host that uses only what it can get at. Between two evaluations it has the
result at hand; what it needs for longer it keeps in its slots. -/
inductive Tended : Session → List Cell → Prop
  | empty (fuel : Nat) : Tended { fuel } []
  | edit {s t hand hand'} : Tended s hand → Edit .any s t → s.Sincere hand t hand' → Tended t hand'
  | evaluate {s t hand act loan answer} : Tended s hand → 0 < s.stations.size →
      Request .any s 0 act loan → (∀ x ∈ loan.held, s.Behind hand x) →
      s.evaluate 0 act loan = (answer, t) → answer ≠ .outOfFuel → Tended t answer.held
  | poll {s t hand answer} : Tended s hand → 0 < s.stations.size →
      s.poll 0 = (answer, t) → answer ≠ some .outOfFuel → Tended t (answer.elim [] Answer.held)

variable {hand : List Cell}

theorem Tended.live (h : Tended s hand) : Live .any s := by
  induction h with
  | empty fuel => exact .empty fuel
  | edit _ hedit _ ih => exact .step ih (.edit hedit)
  | evaluate _ hi hact _ heq hanswer ih => exact .step ih (.evaluate hi hact heq hanswer)
  | poll _ hi heq hanswer ih => exact .step ih (.poll hi heq hanswer)

/-- What can be got at is there, and closures among it are linked. -/
structure Tidy (s : Session) (hand : List Cell) : Prop where
  there : ∀ x ∈ s.grasp hand, s.heap.contains x = true
  content : ∀ x, s.Behind hand x → ∀ y ∈ s.heap.heldBy (s.engine 0).links x,
    s.heap.contains y = true
  linked : ∀ id, s.Behind hand (.closure id) →
    ((s.engine 0).links.definingScope? s.heap id).isSome

/-- The cells that are beyond reach. -/
def Lost (s : Session) (hand : List Cell) (x : Cell) : Prop :=
  s.heap.contains x = true ∧ ¬s.Behind hand x

/-- The custody of an evaluation that begins, or goes on, now. -/
abbrev care (s : Session) (hand : List Cell) : Custody :=
  .living (s.Lost hand) (s.engine 0).own

namespace Tidy

theorem lives_iff (h : s.Tidy hand) (x : Cell) :
    (s.core 0).Lives (s.Lost hand) x ↔ s.Behind hand x := by
  constructor
  · intro hx
    by_contra hnot
    exact hx.spared ⟨hx.there, hnot⟩
  · intro hx
    refine ⟨hx.contains, fun hlost => hlost.2 hx, fun id heq => ?_⟩
    subst heq
    exact h.linked id hx

theorem behind_grasp (h : s.Tidy hand) {x : Cell} (hx : x ∈ s.grasp hand) : s.Behind hand x :=
  .root hx (h.there x hx)

theorem mem_own (hi : 0 < s.stations.size) {x : Cell} (hx : x ∈ (s.engine 0).own) :
    x ∈ s.grasp hand := by
  have hstation : s.station 0 ∈ s.stations.toList := by
    have hget : s.station 0 = s.stations[0] := by
      simp [station, Array.getElem?_eq_getElem hi]
    rw [hget]
    exact Array.getElem_mem_toList hi
  have hown : x ∈ s.stations.toList.flatMap Station.own :=
    List.mem_flatMap.mpr ⟨s.station 0, hstation, hx⟩
  simp only [grasp, roots, List.mem_append]
  exact .inl (.inl (.inl (.inr hown)))

/-- The core of a tidy session spares what is within reach. -/
theorem spared (h : s.Tidy hand) (hi : 0 < s.stations.size) (hcounted : (s.core 0).Counted)
    {fs : List Frame} (hfs : ∀ f ∈ fs, s.Behind hand (.scope f.scope)) :
    (s.care hand).good fs (s.core 0) := by
  refine ⟨fun x hx y hy => ?_, fun x hx => hx.1, hcounted.free, rfl, fun x hx => ?_, fun f hf => ?_⟩
  · have hbehind := (h.lives_iff x).mp hx
    exact (h.lives_iff y).mpr (.held hbehind hy (h.content x hbehind y hy))
  · exact (h.lives_iff x).mpr (h.behind_grasp (mem_own hi hx))
  · exact (h.lives_iff _).mpr (hfs f hf)

/-- What the machine holds lives. -/
theorem lives_machine {D : Cell → Prop} {own : List Cell} {m : Machine} {c : Core}
    (h : (Custody.living D own).Safe m c) : ∀ x ∈ m.held, c.Lives D x := by
  intro x hx
  rcases List.mem_append.mp hx with hx | hx
  · have hcontrol := h.control
    cases hm : m.control with
    | abrupt y =>
      rw [hm] at hx hcontrol
      cases y with
      | thrown v | ret v =>
        exact Cell.forall_ofValues.mpr (fun w hw => List.mem_singleton.mp hw ▸ hcontrol) x hx
      | _ => cases hx
    | _ =>
      rw [hm] at hx hcontrol
      exact Cell.forall_ofValues.mpr hcontrol x hx
  · obtain ⟨a, ha, hx⟩ := List.mem_flatMap.mp hx
    rcases List.mem_cons.mp hx with rfl | hx
    · exact h.good.scopes a.frame (List.mem_map_of_mem ha)
    · exact Cell.forall_ofValues.mpr (h.stack a ha).1 x hx

/-- A host may let go of what it has at hand. -/
theorem drop (h : s.Tidy hand) : s.Tidy [] := by
  have hsub : ∀ x ∈ s.grasp [], x ∈ s.grasp hand := fun x hx => by
    rw [grasp, List.append_nil] at hx
    exact List.mem_append_left hand hx
  have hbehind : ∀ x, s.Behind [] x → s.Behind hand x := fun x hx =>
    Heap.Reaches.mono (fun _ hin => hin) (fun y hy hin => .root (hsub y hy) hin)
      (fun _ _ _ hy => hy) hx
  exact ⟨fun x hx => h.there x (hsub x hx), fun x hx => h.content x (hbehind x hx),
    fun id hid => h.linked id (hbehind _ hid)⟩

/-- A session whose host holds living cells of a core is tidy, if the core was left to it with at
least the associations of the closures within reach. -/
theorem of_core {D : Cell → Prop} {own : List Cell} {fs : List Frame} {c : Core}
    (hc : c.Spared D own fs) (hgrasp : ∀ x ∈ s.grasp hand, c.Lives D x)
    (hthere : ∀ x, s.heap.contains x = c.heap.contains x)
    (hheld : ∀ x y, y ∈ s.heap.heldBy (s.engine 0).links x → y ∈ c.heap.heldBy c.engine.links x)
    (hlinked : ∀ id, c.Lives D (.closure id) →
      c.heap.Reaches c.engine.links (s.grasp hand) (.closure id) →
      ((s.engine 0).links.definingScope? s.heap id).isSome) : s.Tidy hand := by
  have hlives : ∀ x, s.Behind hand x →
      c.Lives D x ∧ c.heap.Reaches c.engine.links (s.grasp hand) x := by
    intro x hx
    induction hx with
    | root hx hin => exact ⟨hgrasp _ hx, .root hx (hthere _ ▸ hin)⟩
    | held _ hy hin ih =>
      exact ⟨hc.content _ ih.1 _ (hheld _ _ hy), .held ih.2 (hheld _ _ hy) (hthere _ ▸ hin)⟩
  refine ⟨fun x hx => hthere x ▸ (hgrasp x hx).there, fun x hx y hy => ?_, fun id hid => ?_⟩
  · exact hthere y ▸ (hc.content x (hlives x hx).1 y (hheld x y hy)).there
  · exact hlinked id (hlives _ hid).1 (hlives _ hid).2

/-! ## Evaluations -/

theorem charted (s : Session) (hand : List Cell) :
    (s.care hand).Charted (Regime.any .any).atlas :=
  ⟨fun _ => Atlas.covers_any _, fun _ => trivial, fun _ => trivial⟩

/-- What a host asks for with cells within reach begins with living cells. -/
theorem guards_request (h : s.Tidy hand) (hi : 0 < s.stations.size)
    (hcounted : (s.core 0).Counted) {act : Act Move} {loan : Loan}
    (hact : Request .any s 0 act loan) (hheld : ∀ x ∈ loan.held, s.Behind hand x) :
    (s.care hand).Guards (Regime.any .any).atlas
        (Machine.start act (s.armed 0)).1
        (Machine.start act (s.armed 0)).2 ∧
      Grows (s.care hand).held (s.core 0) (Machine.start act (s.armed 0)).2 := by
  have hgood : (s.care hand).good [] (s.core 0) :=
    h.spared hi hcounted fun _ hf => absurd hf List.not_mem_nil
  obtain ⟨hwatch, hgrow⟩ := (s.care hand).starting hgood ((s.station 0).base.map Frame.position)
  have hlives : ∀ x, s.Behind hand x → (s.armed 0).Lives (s.Lost hand) x :=
    fun x hx => hgrow x ((h.lives_iff x).mpr hx)
  have hroot : (s.armed 0).Lives (s.Lost hand) (.scope (s.engine 0).root) :=
    hlives _ (h.behind_grasp (mem_own hi (List.mem_cons_of_mem _ List.mem_cons_self)))
  have hmoves : (s.care hand).Moves [] act (s.armed 0) := by
    cases hact with
    | @unit u hu =>
      have hframe := hwatch.cons (f := unitFrame u (s.engine 0).root) hroot
      exact Custody.openFrame hframe (fun _ => rfl) _
    | @code scope _ u _ hu =>
      have hframe := hwatch.cons (f := unitFrame u scope) (hlives _ (hheld _ List.mem_cons_self))
      exact Custody.callUnit hwatch hframe
    | call fn this args kept =>
      have hgiven := Cell.forall_ofValues.mp fun x hx => hlives x (hheld x (List.mem_append_left _ hx))
      have hlent := Cell.forall_ofValues.mp fun x hx => hlives x (hheld x (List.mem_append_right _ hx))
      exact Custody.callValue hwatch (hlent fn List.mem_cons_self) (hgiven this List.mem_cons_self)
        (fun v hv => hgiven v (List.mem_cons_of_mem _ hv)) fun source u _ => hwatch.cons (f := unitFrame u (s.engine 0).root) hroot
  obtain ⟨hsafe, hl⟩ := Custody.start hmoves
  have hplaced := (Regime.runs_request (R := Regime.any .any) trivial hact).placed
  exact ⟨⟨hsafe, hplaced, hl.watch⟩, fun x hx => hl.held x (hgrow x hx)⟩

/-- A parked evaluation waits with living cells. -/
theorem safe_flight (h : s.Tidy hand) (hi : 0 < s.stations.size) (hcounted : (s.core 0).Counted)
    {f : Flight} (hf : (s.station 0).flight = some f)
    (hcontrol : f.machine.control = .waiting f.pending) (hrooted : f.machine.Rooted) :
    (s.care hand).Safe f.machine (s.core 0) := by
  have hmachine : ∀ x ∈ f.machine.held, s.Behind hand x := fun x hx => by
    refine h.behind_grasp ?_
    simp only [grasp, Station.inFlight, hf, List.mem_append]
    exact .inl (.inr (.inl (.inl hx)))
  have hlives : ∀ x ∈ f.machine.held, (s.core 0).Lives (s.Lost hand) x := fun x hx =>
    (h.lives_iff x).mpr (hmachine x hx)
  have hstack : ∀ a ∈ f.machine.stack, ∀ x ∈ a.held, x ∈ f.machine.held := fun a ha x hx =>
    List.mem_append_right _ (List.mem_flatMap.mpr ⟨a, ha, hx⟩)
  refine ⟨h.spared hi hcounted fun g hg => ?_, fun a ha => ⟨?_, hrooted a ha⟩, ?_⟩
  · obtain ⟨a, ha, rfl⟩ := List.mem_map.mp hg
    exact hmachine _ (hstack a ha _ List.mem_cons_self)
  · exact Cell.forall_ofValues.mp fun x hx => hlives x (hstack a ha x (List.mem_cons_of_mem _ hx))
  · have hheld : ∀ x ∈ Cell.ofValues f.machine.control.held, (s.core 0).Lives (s.Lost hand) x :=
      fun x hx => hlives x (List.mem_append_left _ hx)
    rw [hcontrol] at hheld ⊢
    exact Cell.forall_ofValues.mp hheld

/-- **An evaluation that answers leaves a tidy session**, with its result at hand. -/
theorem settleStop (h : s.Tidy hand) (hi : 0 < s.stations.size) {loan : Loan}
    (hheld : ∀ x ∈ loan.held, s.Behind hand x) {stop : Core.Stop} {c : Core}
    (hstop : (s.care hand).Stops (Regime.any .any).atlas (stop, c))
    (hgrow : Grows (s.care hand).held (s.core 0) c)
    (hanswer : (s.settleStop 0 loan stop c).1 ≠ .outOfFuel) :
    (s.settleStop 0 loan stop c).2.Tidy (s.settleStop 0 loan stop c).1.held := by
  have hlives : ∀ x, s.Behind hand x → c.Lives (s.Lost hand) x := fun x hx =>
    hgrow x ((h.lives_iff x).mpr hx)
  have hroots : ∀ x ∈ s.roots 0, s.Behind hand x := fun x hx =>
    h.behind_grasp (List.mem_append_left _ (List.mem_append_left _ hx))
  cases hstop with
  | @done outcome _ hgood hv hx =>
    rw [settleStop_done, Core.finish_eq]
    dsimp only
    generalize hpruned : Cell.ofValues (Core.heldByOutcome outcome) ++ (loan.lent ++ s.roots 0) = pruned
    have hown : (c.ended pruned).engine.own = (s.engine 0).own := hgood.own_eq
    have hflight : ((s.leaving 0 (c.ended pruned)).station 0).inFlight = [] :=
      congrArg Station.inFlight (station_seat hi (c.ended pruned) _)
    have hengine := engine_leaving hi (c.ended pruned)
    have hresult : ∀ x ∈ (Answer.finished (Core.report (c.ended pruned).heap outcome)).held,
        c.Lives (s.Lost hand) x ∧ x ∈ pruned := by
      intro x hx
      cases outcome with
      | ok v =>
        rw [← hpruned]
        exact ⟨Cell.forall_ofValues.mpr (fun w hw => List.mem_singleton.mp hw ▸ hv v rfl) x hx,
          List.mem_append_left _ hx⟩
      | error y => cases y <;> cases hx
    have hgrasp : ∀ x ∈ (s.leaving 0 (c.ended pruned)).grasp
        (Answer.finished (Core.report (c.ended pruned).heap outcome)).held,
        c.Lives (s.Lost hand) x ∧ x ∈ pruned := by
      intro x hx
      rw [grasp, roots_leaving hown, hflight, List.append_nil] at hx
      rcases List.mem_append.mp hx with hx | hx
      · rw [← hpruned]
        exact ⟨hlives x (hroots x hx), List.mem_append_right _ (List.mem_append_right _ hx)⟩
      · exact hresult x hx
    refine of_core hgood (fun x hx => (hgrasp x hx).1) (fun x => Heap.contains_prune ..)
      (fun x y hy => ?_) fun id hid hreach => ?_
    · rw [hengine] at hy
      exact Heap.heldBy_prune _ _ _ x y hy
    · obtain ⟨scope, hscope⟩ := Option.isSome_iff_exists.mp (hid.linked id rfl)
      have hkept : c.heap.Kept c.engine.links pruned (.closure id) :=
        Heap.Reaches.kept (hreach.mono (fun _ hin => hin)
          (fun x hx hin => .root (hgrasp x hx).2 hin) fun _ _ _ hy => hy)
      have hstays := (Heap.definingScope?_prune ..).mpr ⟨hscope, hkept⟩
      rw [hengine]
      exact Option.isSome_of_eq_some hstays
  | @parked m p _ hsafe hparked =>
    rw [settleStop_parked]
    obtain ⟨hgood, hgrows⟩ := (s.care hand).take hsafe.good p
    have hengine : (s.parkedAt 0 c m p loan).engine 0 = (c.taken p).engine :=
      congrArg Core.engine (core_parkedAt hi)
    have hcontrol := hsafe.control
    rw [hparked.2.2] at hcontrol
    have hp : (s.care hand).held c (.pending p) :=
      (Value.within_pending _).mp (hcontrol (.pending p) List.mem_cons_self)
    -- what is taken along was held by the value
    have htaken : ∀ x ∈ Cell.ofValues ((c.heap.take p).1.map (·.value)).toList,
        c.Lives (s.Lost hand) x := fun x hx => by
      cases hdue : (c.heap.take p).1 with
      | none =>
        rw [hdue] at hx
        cases hx
      | some τ =>
        rw [hdue] at hx
        have hvalue : (s.care hand).Has c τ.value :=
          Custody.has_settlement hsafe.good hp (Pending.due_mem_held hdue)
        exact Cell.forall_ofValues.mpr (fun w hw => List.mem_singleton.mp hw ▸ hvalue) x hx
    refine of_core hgood (fun x hx => hgrows x ?_) (fun _ => rfl) (fun x y hy => ?_) fun id hid _ => ?_
    · have hflight : ((s.parkedAt 0 c m p loan).station 0).inFlight =
          ({ (s.station 0).parking m p (c.heap.take p).1 loan with engine := c.engine } : Station).inFlight :=
        congrArg Station.inFlight (station_parkedAt hi)
      have hown : (c.taken p).engine.own = (s.engine 0).own := hsafe.good.own_eq
      rw [grasp, parkedAt, roots_seat hown, ← parkedAt, hflight,
        show (Answer.suspended _ _).held = [] from rfl, List.append_nil] at hx
      rcases List.mem_append.mp hx with hx | hx
      · exact hlives x (hroots x hx)
      · rcases List.mem_append.mp hx with hx | hx
        · exact (List.mem_append.mp hx).elim (lives_machine hsafe x) (htaken x)
        · exact hlives x (hheld x hx)
    · rw [hengine] at hy
      exact hy
    · rw [hengine]
      exact hid.linked id rfl
  | outOfFuel hruns => exact absurd rfl hanswer

/-- A settlement with what is within reach. -/
theorem settle (h : s.Tidy hand) {p : PendingId} {τ : Settlement}
    (hτ : ∀ x ∈ Cell.ofValues [τ.value], x ∈ s.grasp hand) : (s.settle p τ).2.Tidy hand := by
  have hthere : ∀ x, (s.settle p τ).2.heap.contains x = s.heap.contains x := fun x => by
    cases x with
    | pending q =>
      change ((s.heap.pendings.modify p (·.settle τ)).get? q).isSome = (s.heap.pendings.get? q).isSome
      rw [Store.get?_modify]
      split
      · rw [Option.isSome_map]
      · rfl
    | _ => rfl
  have hheld : ∀ x, ∀ y ∈ (s.settle p τ).2.heap.heldBy (s.engine 0).links x,
      y ∈ s.heap.heldBy (s.engine 0).links x ∨ y ∈ s.grasp hand := fun x y hy => by
    cases x with
    | pending q =>
      change y ∈ Cell.ofValues ((s.heap.pendings.modify p (·.settle τ)).get q).held at hy
      rw [Store.get, Store.get?_modify] at hy
      split at hy
      · cases hq : s.heap.pendings.get? q with
        | none =>
          rw [hq] at hy
          cases hy
        | some r =>
          rw [hq] at hy
          cases r with
          | settled σ =>
            rw [Heap.heldBy, Store.get, hq]
            exact .inl hy
          | unsettled | scheduled => exact .inr (hτ y hy)
      · exact .inl hy
    | _ => exact .inl hy
  have hbehind : ∀ x, (s.settle p τ).2.Behind hand x → s.Behind hand x := fun x hx => by
    induction hx with
    | root hx hin => exact .root hx (hthere _ ▸ hin)
    | held _ hy hin ih =>
      exact (hheld _ _ hy).elim (.held ih · (hthere _ ▸ hin)) (.root · (hthere _ ▸ hin))
  refine ⟨fun x hx => hthere x ▸ h.there x hx, fun x hx y hy => ?_, fun id hid => ?_⟩
  · rw [hthere]
    exact (hheld x y hy).elim (h.content x (hbehind x hx) y) (h.there y)
  · exact h.linked id (hbehind _ hid)

/-- What was taken along was within reach. -/
theorem arrive (h : s.Tidy hand) : (s.arrive 0).Tidy hand := by
  rcases s.arrive_cases 0 with heq | ⟨f, τ, hf, htaken, -, heq⟩ <;> rw [heq]
  · exact h
  · refine h.settle fun x hx => ?_
    simp only [grasp, Station.inFlight, hf, htaken, List.mem_append]
    exact .inl (.inr (.inl (.inr hx)))

end Tidy

/-! ## Lives -/

/-- What every session with one engine has. -/
structure Sound (s : Session) : Prop where
  counted : 0 < s.stations.size → (s.core 0).Counted
  unused : s.stations.size = 0 → ∀ id, s.heap.closures.get? id = none
  waits : ∀ f, 0 < s.stations.size → (s.station 0).flight = some f →
    f.machine.Parked (Regime.any .any).atlas f.pending ∧ f.machine.Rooted

theorem Live.sound (h : Live .any s) (hsize : s.stations.size ≤ 1) : s.Sound := by
  have hrules : (Regime.counted .any).Rules s := Regime.live h fun _ => hsize
  have hkeeps := h.keeps
  exact ⟨fun hi => hrules.core 0 hi, fun hzero => (hrules.unused hzero).closures,
    fun f hi hf => ⟨hkeeps.rules.parked 0 hi f hf, hkeeps.rooted 0 f hf⟩⟩

theorem Sound.arrive (hs : s.Sound) : (s.arrive 0).Sound := by
  have hcore : ∀ p τ, (s.settle p τ).2.Sound := fun p τ =>
    ⟨fun hi => ⟨(hs.counted hi).free, (hs.counted hi).given⟩, hs.unused, hs.waits⟩
  rcases s.arrive_cases 0 with heq | ⟨f, τ, -, -, -, heq⟩ <;> rw [heq]
  · exact hs
  · exact hcore _ _

/-- Where an evaluation within reach stops. -/
theorem Tidy.stops_request (h : s.Tidy hand) (hs : s.Sound) (hi : 0 < s.stations.size)
    {act : Act Move} {loan : Loan} (hact : Request .any s 0 act loan)
    (hheld : ∀ x ∈ loan.held, s.Behind hand x) :
    let start := Machine.start act (s.armed 0)
    (s.care hand).Stops (Regime.any .any).atlas (start.2.drive s.fuel start.1) ∧
      Grows (s.care hand).held (s.core 0) (start.2.drive s.fuel start.1).2 := by
  obtain ⟨hguards, hgrow⟩ := h.guards_request hi (hs.counted hi) hact hheld
  obtain ⟨hstops, hgrows⟩ := Custody.drive (charted s hand) s.fuel hguards
  exact ⟨hstops, fun x hx => hgrows x (hgrow x hx)⟩

/-- Where an evaluation that goes on stops. -/
theorem Tidy.stops_flight (h : s.Tidy hand) (hs : s.Sound) (hi : 0 < s.stations.size)
    {f : Flight} (hf : (s.station 0).flight = some f) {τ : Settlement}
    (hset : (s.heap.pendings.get f.pending).settlement? = some τ) :
    let r := (s.armed 0).drive s.fuel { f.machine with control := τ.control }
    (s.care hand).Stops (Regime.any .any).atlas r ∧ Grows (s.care hand).held (s.core 0) r.2 := by
  obtain ⟨hparked, hrooted⟩ := hs.waits f hi hf
  have hsafe := h.safe_flight hi (hs.counted hi) hf hparked.2.2 hrooted
  have hcontrol := hsafe.control
  rw [hparked.2.2] at hcontrol
  have hp : (s.care hand).held (s.core 0) (.pending f.pending) :=
    (Value.within_pending _).mp (hcontrol (.pending f.pending) List.mem_cons_self)
  have hvalue : (s.care hand).Has (s.core 0) τ.value :=
    Custody.has_settlement hsafe.good hp (Pending.value_mem_held hset)
  obtain ⟨hstops, hgrows⟩ :=
    Custody.drive (charted s hand) s.fuel (Custody.guards_goOn hsafe hparked hvalue _)
  obtain ⟨-, hgrow⟩ := (s.care hand).starting hsafe.good ((s.station 0).base.map Frame.position)
  exact ⟨hstops, fun x hx => hgrows x (hgrow x hx)⟩

/-- **Everything within reach is linked**, in every session of a host that uses what it has. -/
theorem Tended.tidy (h : Tended s hand) (hsize : s.stations.size ≤ 1) : s.Tidy hand := by
  induction h with
  | empty fuel =>
    have hnone : ∀ x, ¬Behind { fuel } [] x := by
      intro x hx
      induction hx with
      | root hx _ => cases hx
      | held _ _ _ ih => exact ih
    exact ⟨nofun, fun x hx => absurd hx (hnone x), fun id hid => absurd hid (hnone _)⟩
  | @edit s t hand hand' hs hedit hsincere ih =>
    have hle : s.stations.size ≤ 1 := Nat.le_trans (size_edit hedit) hsize
    have htidy := ih hle
    have hsound := hs.live.sound hle
    refine ⟨hsincere.there, hsincere.content, fun id hid => ?_⟩
    have hin : s.heap.contains (.closure id) = true := by
      have hthere := hid.contains
      unfold Heap.contains at hthere ⊢
      rwa [closures_edit hedit] at hthere
    have hpos : 0 < s.stations.size := by
      refine Nat.pos_of_ne_zero fun hzero => ?_
      rw [Heap.contains, hsound.unused hzero id] at hin
      cases hin
    exact definingScope?_edit hedit hpos (htidy.linked id (hsincere.known _ hid hin))
  | @evaluate s t hand act loan answer hs hi hact hheld heq hanswer ih =>
    have hle : s.stations.size ≤ 1 :=
      Nat.le_trans (size_step (.evaluate hi hact heq hanswer)) hsize
    have htidy := ih hle
    unfold Session.evaluate at heq
    cases hb : (s.station 0).isBusy with
    | true =>
      rw [hb, if_pos rfl] at heq
      cases heq
      exact htidy.drop
    | false =>
      rw [hb, if_neg Bool.false_ne_true] at heq
      obtain ⟨hstops, hgrows⟩ := htidy.stops_request (hs.live.sound hle) hi hact hheld
      have hend := htidy.settleStop hi hheld hstops hgrows
      dsimp only at heq hend
      rw [heq] at hend
      exact hend hanswer
  | @poll s t hand answer hs hi heq hanswer ih =>
    have hle : s.stations.size ≤ 1 :=
      Nat.le_trans (size_step (H := .any) (.poll hi heq hanswer)) hsize
    have hgoes := hs.live.keeps.rules.goesOn hi
    have htidy := (ih hle).arrive
    have hsound := (hs.live.sound hle).arrive
    have hi' : 0 < (s.arrive 0).stations.size := by rwa [stations_arrive]
    rw [heq] at hgoes
    generalize s.arrive 0 = u at hgoes htidy hsound hi'
    generalize hr : (answer, t) = r at hgoes
    cases hgoes with
    | idle =>
      cases hr
      exact htidy.drop
    | waits =>
      cases hr
      exact htidy.drop
    | @resumes f τ r hf hset hdrive =>
      obtain ⟨rfl, rfl⟩ := Prod.mk.inj hr
      obtain ⟨hstops, hgrows⟩ := htidy.stops_flight hsound hi' hf hset
      have hheld : ∀ x ∈ f.loan.held, u.Behind hand x := fun x hx => by
        refine htidy.behind_grasp ?_
        simp only [grasp, Station.inFlight, hf, List.mem_append]
        exact .inl (.inr (.inr hx))
      subst hdrive
      exact htidy.settleStop hi' hheld hstops hgrows fun hfuel => hanswer (congrArg some hfuel)

/-- The machine's evaluation is over, and `t` was left of it. The arguments that were passed to it are gone
by then, what the host lent to it is not. -/
def LeavesPruned (s : Session) (loan : Loan) (m : Machine) (c : Core) (t : Session) : Prop :=
  ∃ outcome d, c.drive s.fuel m = (.done outcome, d) ∧
    d.Prunes (Cell.ofValues (Core.heldByOutcome outcome) ++ (loan.lent ++ s.roots 0)) (t.core 0)

theorem leavesPruned (hi : 0 < s.stations.size) {loan : Loan} {m : Machine} {c : Core}
    {result : Except EngineError Value} {t : Session}
    (h : s.settleStop 0 loan (c.drive s.fuel m).1 (c.drive s.fuel m).2 = (.finished result, t)) :
    s.LeavesPruned loan m c t := by
  cases hdrive : c.drive s.fuel m with
  | mk stop d =>
    rw [hdrive] at h
    cases stop with
    | done outcome =>
      rw [settleStop_done, Core.finish_eq] at h
      cases h
      refine ⟨outcome, d, hdrive, ?_⟩
      rw [leaving, core_seat hi]
      exact Core.prunes_ended d _
    | parked m p => cases h
    | outOfFuel m => cases h

/-- **Pruning is exact and safe.** While a host uses what it has, every closure that it or a guest can
get at is linked. No evaluation misses a defining scope, and after each one the table has the
associations of the closures that are held from outside. -/
theorem pruning_exact (h : Tended s hand) (hsize : s.stations.size = 1) :
    (∀ id, s.Behind hand (.closure id) →
        ((s.engine 0).links.definingScope? s.heap id).isSome) ∧
      (∀ act loan, Request .any s 0 act loan → (∀ x ∈ loan.held, s.Behind hand x) →
        (s.evaluate 0 act loan).1.Tolerates Fault.IsLinked ∧
          ∀ result t, (s.station 0).isBusy = false →
            s.evaluate 0 act loan = (.finished result, t) →
            s.LeavesPruned loan (Machine.start act (s.armed 0)).1
              (Machine.start act (s.armed 0)).2 t) ∧
      ∀ f τ, (s.station 0).flight = some f →
        ((s.arrive 0).heap.pendings.get f.pending).settlement? = some τ →
        (∀ answer, (s.poll 0).1 = some answer → answer.Tolerates Fault.IsLinked) ∧
          ∀ result t, s.poll 0 = (some (.finished result), t) →
            (s.arrive 0).LeavesPruned f.loan { f.machine with control := τ.control }
              ((s.arrive 0).armed 0) t := by
  have hi : 0 < s.stations.size := Nat.lt_of_lt_of_eq Nat.one_pos hsize.symm
  have htidy := h.tidy (Nat.le_of_eq hsize)
  have hsound := h.live.sound (Nat.le_of_eq hsize)
  refine ⟨htidy.linked, fun act loan hact hheld => ?_, fun f τ hf hset => ?_⟩
  · obtain ⟨hstops, -⟩ := htidy.stops_request hsound hi hact hheld
    unfold Session.evaluate
    refine ⟨?_, fun result t hidle heq => ?_⟩
    · split
      · trivial
      · exact Custody.settleStop loan hstops
    · rw [hidle, if_neg Bool.false_ne_true] at heq
      exact leavesPruned hi heq
  · have hf' : ((s.arrive 0).station 0).flight = some f := by rwa [station_arrive]
    have hi' : 0 < (s.arrive 0).stations.size := by rwa [stations_arrive]
    obtain ⟨hstops, -⟩ := htidy.arrive.stops_flight hsound.arrive hi' hf' hset
    rw [poll, goOn_flight hf' hset (hsound.waits f hi hf).1.2.2]
    refine ⟨fun answer hanswer => ?_, fun result t heq => ?_⟩
    · cases hanswer
      exact Custody.settleStop f.loan hstops
    · obtain ⟨hfirst, hsecond⟩ := Prod.mk.inj heq
      exact leavesPruned hi' (Prod.ext (Option.some.inj hfirst) hsecond)

theorem bare_closed : ∀ x ∈ bare.grasp [] ++ [.object ⟨1, 2⟩],
    bare.heap.contains x = true ∧ ∀ y ∈ bare.heap.heldBy (bare.engine 0).links x,
      y ∈ bare.grasp [] ++ [.object ⟨1, 2⟩] := by
  decide

theorem tended_bare : Tended bare [] := by
  have hbehind : ∀ x, bare.Behind [] x → x ∈ bare.grasp [] ++ [.object ⟨1, 2⟩] := by
    intro x hx
    induction hx with
    | root hx _ => exact List.mem_append_left _ hx
    | held _ hy _ ih => exact (bare_closed _ ih).2 _ hy
  refine .edit (.empty 100) (.engine _ none { installStdlib := false } none [])
    ⟨fun x hx => (bare_closed x (List.mem_append_left _ hx)).1, fun x hx y hy => ?_, fun x _ hin => ?_⟩
  · exact (bare_closed y ((bare_closed x (hbehind x hx)).2 y hy)).1
  · cases x <;> cases hin

end Session

/-- A function that the global object keeps, and one that is gone after its call. -/
def CodeUnit.keepingOne : CodeUnit :=
  .ofSource "f = function () { return true; }; (function () { return true; })(); true"

namespace Session

/-- The session after that unit. -/
def keptOne : Session := (bare.runUnit 0 .keepingOne).2

/-- The first closure that the engine made. -/
def firstClosure : ClosureId := ⟨engineRegion 0, 0⟩

/-- Of two closures the one is linked that can still be got at, and a call of it finds its scope. -/
theorem pruning_exact_one :
    CodeUnit.compile "f = function () { return true; }; (function () { return true; })(); true" [] =
        .ok .keepingOne ∧
      bare.LeavesPruned {} (Machine.start (Act.openUnit .keepingOne (bare.engine 0).root) (bare.armed 0)).1
        (Machine.start (Act.openUnit .keepingOne (bare.engine 0).root) (bare.armed 0)).2 keptOne ∧
      (∀ id ∈ keptOne.heap.closures.addresses,
        ((keptOne.engine 0).links.definingScope? keptOne.heap id).isSome = (id == firstClosure)) ∧
      keptOne.heap.closures.addresses.length = 2 ∧ keptOne.Behind [] (.closure firstClosure) ∧
      (keptOne.call 0 (.function firstClosure) .undefined [] []).1 = .finished (.ok (.bool true)) := by
  have hseen : (bare.runUnit 0 .keepingOne).1.tells true = true ∧ keptOne.stations.size = 1 ∧
      (∀ id ∈ keptOne.heap.closures.addresses,
        ((keptOne.engine 0).links.definingScope? keptOne.heap id).isSome = (id == firstClosure)) ∧
      keptOne.heap.closures.addresses.length = 2 ∧
      .closure firstClosure ∈ keptOne.heap.reach (keptOne.engine 0).links (keptOne.grasp []) ∧
      (keptOne.call 0 (.function firstClosure) .undefined [] []).1.tells true = true := by
    decide +kernel
  obtain ⟨htells, hsize, hlinked, htwo, hreach, hcalled⟩ := hseen
  have hunit : Request .any bare 0 (Act.openUnit .keepingOne (bare.engine 0).root) {} := .unit trivial
  have hrun : bare.runUnit 0 .keepingOne = (.finished (.ok (.bool true)), keptOne) :=
    Answer.run_of_tells htells rfl
  have hkept : Tended keptOne [] := .evaluate tended_bare (by decide) hunit nofun hrun nofun
  obtain ⟨-, hevaluate, -⟩ := pruning_exact tended_bare (by decide)
  obtain ⟨hbehind, hcalls, -⟩ := pruning_exact hkept hsize
  refine ⟨CodeUnit.compile_ofSource (by decide +kernel),
    (hevaluate _ _ hunit nofun).2 _ _ (by decide) hrun, hlinked, htwo, ?_, Answer.eq_of_tells hcalled⟩
  exact (Heap.mem_reach ..).mp hreach

end Session

/-- A function of which both the global object and a circle that is gone have a hold. -/
def CodeUnit.ringing : CodeUnit := .ofSource
  "H = function () { return true; }; (function () { function F() {} F.h = H; F.me = F; })(); true"

/-- The global object lets go of it. -/
def CodeUnit.lettingGo : CodeUnit := .ofSource "H = true"

namespace Session

/-- The session after both units. -/
def ringed : Session := ((bare.runUnit 0 .ringing).2.runUnit 0 .lettingGo).2

/-- The table keeps an association of a closure that nothing reaches any more. What has a hold of the
closure is a circle of a function and its own object. No object holds another one, so the circle is not of
objects alone. -/
theorem pruning_leaks :
    CodeUnit.compile
        "H = function () { return true; }; (function () { function F() {} F.h = H; F.me = F; })(); true" [] =
        .ok .ringing ∧
      CodeUnit.compile "H = true" [] = .ok .lettingGo ∧ Live .any ringed ∧
      (bare.runUnit 0 .ringing).1 = .finished (.ok (.bool true)) ∧
      ((bare.runUnit 0 .ringing).2.runUnit 0 .lettingGo).1 = .finished (.ok (.bool true)) ∧
      (∃ (n : Nat) (a : Association), (ringed.engine 0).links[n]? = some a ∧
        ¬ringed.heap.Reaches (ringed.engine 0).links
          (ringed.roots 0 ++ ringed.heap.cells.filter Cell.isSealed) (.closure a.closure)) ∧
      ∀ x ∈ ringed.heap.objects.addresses, ∀ y ∈ ringed.heap.objects.addresses,
        .object y ∉ ringed.heap.heldBy (ringed.engine 0).links (.object x) := by
  have hseen : (bare.runUnit 0 .ringing).1.tells true = true ∧
      0 < (bare.runUnit 0 .ringing).2.stations.size ∧
      ((bare.runUnit 0 .ringing).2.runUnit 0 .lettingGo).1.tells true = true ∧
      ((ringed.engine 0).links[1]?).any (fun a => decide (.closure a.closure ∉
        ringed.heap.reach (ringed.engine 0).links
          (ringed.roots 0 ++ ringed.heap.cells.filter Cell.isSealed))) = true ∧
      ∀ x ∈ ringed.heap.objects.addresses, ∀ y ∈ ringed.heap.objects.addresses,
        .object y ∉ ringed.heap.heldBy (ringed.engine 0).links (.object x) := by
    decide +kernel
  obtain ⟨hfirst, hsize, hsecond, hlinked, hplain⟩ := hseen
  have hunit : ∀ (s : Session) u, Request .any s 0 (Act.openUnit u (s.engine 0).root) {} :=
    fun s u => .unit trivial
  have hringing : Live .any (bare.runUnit 0 .ringing).2 :=
    live_bare.evaluate (by decide) (hunit _ _) (Answer.isReply_of_tells hfirst)
  have hringed : Live .any ringed :=
    hringing.evaluate hsize (hunit _ _) (Answer.isReply_of_tells hsecond)
  refine ⟨CodeUnit.compile_ofSource (by decide +kernel), CodeUnit.compile_ofSource (by decide +kernel),
    hringed, Answer.eq_of_tells hfirst, Answer.eq_of_tells hsecond, ?_, hplain⟩
  obtain ⟨a, ha, hout⟩ := (Option.any_eq_true ..).mp hlinked
  exact ⟨1, a, ha, fun hreach => of_decide_eq_true hout ((Heap.mem_reach ..).mpr hreach)⟩

end Session

end Fermata
