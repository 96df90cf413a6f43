import Fermata.Proofs.Prune.Effect
import Fermata.Proofs.Realm.Basic
import Fermata.Proofs.Session.Life
import Fermata.Proofs.Zone.Tied

/-!
# Evaluations confined to a zone

An engine seated in a zone holds cells of the zone: its global object, its root scope, its methods, the
scopes of its table. Every act of it keeps two heaps tied, so there is a realm of such engines
(`Zone.realm`): what is held, put into cells and met is all the same, namely what exists in the zone.

The scopes behind its table lie in the zone, so pruning its associations clears nothing outside. What it
keeps and what it clears is the same on two cores if they keep the same cells of the zone, and they do if
nothing outside of the zone leads into it.

* `Zone.Seats`: the engine works in the zone.
* `Zone.Rel`: cores of such an engine on heaps that are tied.
* `Zone.Rel.ended`: two cores after their associations were pruned.
* `Zone.kept_iff`: what is kept, where only the zone leads into the zone.
-/

namespace Fermata

namespace Links

variable {links L : Links}

theorem associate_equiv (h : links.Equiv L) (serial : Nat) (a : Association) :
    (links.associate serial a).2.Equiv (L.associate serial a).2 := by
  unfold associate
  rw [h.contains_eq]
  split
  · exact h
  · exact h.insert serial a

theorem scope?_eq_some {n : Nat} {s : ScopeId} (h : links.scope? n = some s) :
    ∃ a, links[n]? = some a ∧ a.scope = s :=
  Option.map_eq_some_iff.mp h

end Links

namespace Zone

variable {Z : Zone} {h k h₀ k₀ : Heap} {c d : Core}

/-- What an evaluation in the zone sees. -/
def sight (Z : Zone) (h : Heap) : Sight where
  held := Z.Has h
  stored := Z.Has h
  listed := Z.Has h
  met := Z.Has h
  shown := Z.shown
  stored_of_held := id
  listed_of_stored := id
  met_of_listed := id
  held_of_met := fun hx _ => hx
  shown_of_held := fun hx => Z.shown_of_cells hx.1

theorem widens_sight (hk : Lasts h k) : (Z.sight h).Widens (Z.sight k) where
  held _ hx := hx.mono hk
  stored _ hx := hx.mono hk
  listed _ hx := hx.mono hk
  met _ hx := hx.mono hk
  shown _ hid := hid

/-- Heaps that are tied agree on what is seen from the zone. -/
theorem Ties.agree (h' : Z.Ties h₀ k₀ h k) : h.Agree (Z.sight h) k where
  object hid := h'.objects.same _ (Z.seen_of_shown hid)
  closure hid := h'.closures.same _ (Z.seen_of_cells hid.1)
  native hid := h'.natives.same _ (Z.seen_of_cells hid.1)
  scope hid := h'.scopes.same _ (Z.seen_of_cells hid.1)
  pending hid := h'.pendings.same _ (Z.seen_of_cells hid.1)
  numbering hid := h'.numbers.same _ (.inl hid.1)
  stores hid := h'.closed.object hid
  proto hid hp := h'.closed.proto hid hp
  closureBag hid := h'.closed.closure hid
  nativeBag hid := h'.closed.native hid
  parent hid hp := (h'.closed.scope hid).1 _ hp
  values hid := (h'.closed.scope hid).2
  settlement hid := h'.closed.pending hid

/-- The engine works in the zone. -/
structure Seats (Z : Zone) (h : Heap) (e : Engine) : Prop where
  region : Z.own e.region
  global : Z.Has h (.object e.global)
  root : Z.Has h (.scope e.root)
  methods : Z.Has h (.object e.arrayMethods)
  evalFunction : Z.Has h (.native e.evalFunction)
  table {n : Nat} {a : Association} : e.links[n]? = some a → Z.Has h (.scope a.scope) ∧ Z.cells (.closure a.closure)

theorem Seats.mono {e : Engine} (he : Z.Seats h e) (hk : Lasts h k) : Z.Seats k e :=
  ⟨he.region, he.global.mono hk, he.root.mono hk, he.methods.mono hk, he.evalFunction.mono hk,
    fun ha => ⟨(he.table ha).1.mono hk, (he.table ha).2⟩⟩

/-- Cores that an evaluation in the zone cannot tell apart, since these starts. -/
structure Rel (Z : Zone) (h₀ k₀ : Heap) (c d : Core) : Prop where
  ties : Z.Ties h₀ k₀ c.heap d.heap
  seats : Z.Seats c.heap c.engine
  like : c.engine.Like d.engine

namespace Rel

/-- The second engine differs from the first one by its table alone. -/
theorem cases (h : Z.Rel h₀ k₀ c d) :
    ∃ k L, d = ⟨k, { c.engine with links := L }⟩ ∧ c.engine.links.Equiv L ∧ Z.Ties h₀ k₀ c.heap k := by
  obtain ⟨k, f⟩ := d
  exact ⟨k, f.links, congrArg (Core.mk k) h.like.rest, h.like.links, h.ties⟩

/-- The heaps changed, and nothing was lost. -/
theorem of_ties (h : Z.Rel h₀ k₀ c d) {e : Core} (hties : Z.Ties h₀ k₀ e.heap k)
    (hengine : e.engine = c.engine) (hlasts : Lasts c.heap e.heap) :
    Z.Rel h₀ k₀ e ⟨k, d.engine⟩ ∧ (Z.sight c.heap).Widens (Z.sight e.heap) :=
  ⟨⟨hties, hengine ▸ h.seats.mono hlasts, hengine ▸ h.like⟩, widens_sight hlasts⟩

theorem adding (h : Z.Rel h₀ k₀ c d) {o : Object} (ho : o.Stores (Z.Has c.heap))
    (hp : ∀ p, o.proto = some p → Z.shown p) :
    Z.Rel h₀ k₀ (c.adding o) (d.adding o) ∧ (Z.sight c.heap).Widens (Z.sight (c.adding o).heap) ∧
      Z.Has (c.adding o).heap (.object (c.heap.objects.next c.engine.region)) := by
  obtain ⟨k, L, rfl, hL, ht⟩ := h.cases
  have hnew := h.of_ties (e := c.adding o) (ht.pushObject h.seats.region ho hp) rfl
    (lasts_objects fun _ => Store.isSome_push _)
  exact ⟨hnew.1, hnew.2, ht.objects.fresh_next h.seats.region, Store.isSome_next_push ..⟩

theorem editing (h : Z.Rel h₀ k₀ c d) {id : ObjectId} {f : Object → Object}
    (hid : Z.Has c.heap (.object id))
    (hf : ∀ o : Object, o.Stores (Z.Has c.heap) → (f o).Stores (Z.Has c.heap))
    (hproto : ∀ o : Object, (f o).proto = o.proto) :
    Z.Rel h₀ k₀ (c.editing id f) (d.editing id f) ∧
      (Z.sight c.heap).Widens (Z.sight (c.editing id f).heap) :=
  h.of_ties (e := c.editing id f) (h.ties.editObject hid.1 hf hproto) rfl
    (lasts_objects fun _ => Store.isSome_modify _)

theorem expecting (h : Z.Rel h₀ k₀ c d) {q : Pending} (hq : ∀ v ∈ q.held, v.Within (Z.Has c.heap)) :
    Z.Rel h₀ k₀ (c.expecting q) (d.expecting q) ∧
      (Z.sight c.heap).Widens (Z.sight (c.expecting q).heap) ∧
      Z.Has (c.expecting q).heap (.pending (c.heap.pendings.next c.engine.region)) := by
  obtain ⟨k, L, rfl, hL, ht⟩ := h.cases
  have hnew := h.of_ties (e := c.expecting q) (ht.pushPending h.seats.region hq) rfl
    (lasts_pendings fun _ => Store.isSome_push _)
  exact ⟨hnew.1, hnew.2, ht.pendings.fresh_next h.seats.region, Store.isSome_next_push ..⟩

theorem settle (h : Z.Rel h₀ k₀ c d) {p : PendingId} {s : Settlement}
    (hp : Z.cells (.pending p)) (hs : s.value.Within (Z.Has c.heap)) :
    Z.Rel h₀ k₀ (c.settle p s) (d.settle p s) ∧
      (Z.sight c.heap).Widens (Z.sight (c.settle p s).heap) := by
  refine h.of_ties (e := c.settle p s) (h.ties.editPending hp fun q hq v hv => ?_) rfl
    (lasts_pendings fun _ => Store.isSome_modify _)
  cases q with
  | settled t => exact hq v hv
  | _ => exact List.mem_singleton.mp hv ▸ hs

/-- Somebody watches, and there are activations below. -/
theorem starting (h : Z.Rel h₀ k₀ c d) (below : List StackPosition) :
    Z.Rel h₀ k₀ (c.starting below) (d.starting below) := by
  obtain ⟨k, L, rfl, hL, ht⟩ := h.cases
  have hs := h.seats
  exact ⟨ht, ⟨hs.region, hs.global, hs.root, hs.methods, hs.evalFunction, hs.table⟩, ⟨rfl, hL⟩⟩

/-- What is taken along from a pending value is the same on both heaps. -/
theorem taken (h : Z.Rel h₀ k₀ c d) {p : PendingId} (hp : Z.cells (.pending p)) :
    Z.Rel h₀ k₀ (c.taken p) (d.taken p) ∧ Lasts c.heap (c.taken p).heap ∧
      (c.heap.take p).1 = (d.heap.take p).1 := by
  have hlasts : Lasts c.heap (c.taken p).heap := lasts_pendings fun _ => Store.isSome_modify _
  refine ⟨(h.of_ties (e := c.taken p) (h.ties.editPending hp fun q hq v hv => ?_) rfl hlasts).1, hlasts, ?_⟩
  · cases q with
    | scheduled τ => cases hv
    | unsettled | settled => exact hq v hv
  · unfold Heap.take
    dsimp only
    rw [Store.get, Store.get, h.ties.pendings.same p (Z.seen_of_cells hp)]

theorem storing (h : Z.Rel h₀ k₀ c d) {s : ScopeId} {v : Value} (hs : Z.cells (.scope s))
    (hv : v.Within (Z.Has c.heap)) (name : String) :
    Z.Rel h₀ k₀ (c.storing s name v) (d.storing s name v) ∧
      (Z.sight c.heap).Widens (Z.sight (c.storing s name v).heap) :=
  h.of_ties (e := c.storing s name v)
    (h.ties.editScope hs fun _ ht => ht.setLocal hv name) rfl
    (lasts_scopes fun _ => Store.isSome_modify _)

theorem under (h : Z.Rel h₀ k₀ c d) {parent : ScopeId} {bindings : List Binding} {this : Value}
    (hparent : Z.Has c.heap (.scope parent)) (hbindings : ∀ b ∈ bindings, b.value.Within (Z.Has c.heap))
    (hthis : this.Within (Z.Has c.heap)) (owner : String) :
    Z.Rel h₀ k₀ (c.under parent owner bindings this) (d.under parent owner bindings this) ∧
      (Z.sight c.heap).Widens (Z.sight (c.under parent owner bindings this).heap) ∧
      Z.Has (c.under parent owner bindings this).heap
        (.scope (c.heap.scopes.next parent.region)) := by
  have hregion := h.ties.closed.region hparent
  have hwithin : (⟨some parent, owner, .locals bindings, this⟩ : Scope).Within (Z.Has c.heap) := by
    refine ⟨fun p hp => Option.some.inj hp ▸ hparent, fun w hw => ?_⟩
    rcases List.mem_cons.mp hw with rfl | hw
    · exact hthis
    · obtain ⟨b, hb, rfl⟩ := List.mem_map.mp hw
      exact hbindings b hb
  have hnew := h.of_ties (e := c.under parent owner bindings this) (h.ties.pushScope hregion hwithin)
    rfl (lasts_scopes fun _ => Store.isSome_push _)
  exact ⟨hnew.1, hnew.2, h.ties.scopes.fresh_next hregion, Store.isSome_next_push ..⟩

theorem bearing (h : Z.Rel h₀ k₀ c d) (fn : FunctionNode) (u : CodeUnit) :
    Z.Rel h₀ k₀ (c.bearing fn u) (d.bearing fn u) ∧
      Lasts c.heap (c.bearing fn u).heap ∧
      Z.Has (c.bearing fn u).heap (.closure (c.heap.closures.next c.engine.region)) := by
  obtain ⟨k, L, rfl, hL, ht⟩ := h.cases
  have hbag := ht.pushObject h.seats.region (o := .ofFunction) Object.stores_ofFunction fun _ hp => by
    cases hp
  have hlasts : Lasts c.heap (c.bearing fn u).heap := fun x hx =>
    lasts_closures (fun _ => Store.isSome_push _) x
      (lasts_objects (fun _ => Store.isSome_push _) x hx)
  have hties := hbag.pushClosure h.seats.region (f := c.nextClosure fn u)
    ⟨ht.objects.fresh_next h.seats.region, Store.isSome_next_push ..⟩
  have hnext := ht.objects.next h.seats.region
  refine ⟨⟨?_, ?_, ⟨rfl, hL⟩⟩, hlasts, ht.closures.fresh_next h.seats.region,
    Store.isSome_next_push ..⟩
  · unfold Core.nextClosure at hties
    unfold Core.bearing Core.nextClosure
    dsimp only
    rw [← hnext]
    exact hties
  · have hseats := h.seats.mono hlasts
    exact ⟨hseats.region, hseats.global, hseats.root, hseats.methods, hseats.evalFunction, hseats.table⟩

theorem linking (h : Z.Rel h₀ k₀ c d) {s : ScopeId} (hs : Z.Has c.heap (.scope s))
    (fn : FunctionNode) (u : CodeUnit) :
    Z.Rel h₀ k₀ (c.linking fn u s) (d.linking fn u s) ∧
      Lasts c.heap (c.linking fn u s).heap ∧
      Z.Has (c.linking fn u s).heap (.closure (c.heap.closures.next c.engine.region)) := by
  obtain ⟨hborn, hlasts, hid⟩ := h.bearing fn u
  have hnext := h.ties.closures.next h.seats.region
  obtain ⟨k, L, rfl, hL, ht⟩ := h.cases
  refine ⟨⟨hborn.ties, ⟨hborn.seats.region, hborn.seats.global, hborn.seats.root, hborn.seats.methods,
    hborn.seats.evalFunction, fun {n a} ha => ?_⟩, ?_⟩, hlasts, hid⟩
  · unfold Core.linking at ha
    dsimp only at ha
    rw [Links.getElem?_associate] at ha
    split at ha
    · cases ha
      exact ⟨hs.mono hlasts, hid.1⟩
    · exact ⟨(h.seats.table ha).1.mono hlasts, (h.seats.table ha).2⟩
  · unfold Core.linking Core.bearing
    dsimp only
    rw [← hnext]
    exact ⟨rfl, Links.associate_equiv hL ..⟩

end Rel

/-- The realm of evaluations in the zone, since these starts. -/
def realm (Z : Zone) (h₀ k₀ : Heap) : Realm where
  sight c := Z.sight c.heap
  rel := Z.Rel h₀ k₀
  agree h := h.ties.agree
  engine h := h.like
  global h := h.seats.global
  methods h := Z.shown_of_cells h.seats.methods.1
  defining h hs := by
    obtain ⟨a, ha, rfl⟩ := Links.scope?_eq_some hs
    exact (h.seats.table ha).1
  nextObject h := h.ties.objects.next h.seats.region
  nextClosure h := h.ties.closures.next h.seats.region
  nextPending h := h.ties.pendings.next h.seats.region
  nextScope h hs := h.ties.scopes.next (h.ties.closed.region hs)
  process h := h.ties.process
  object h ho hp := h.adding ho fun p hproto => Z.shown_of_cells (hp p hproto).1
  edit h hid hf hproto := h.editing hid (hf _ fun _ hx => hx) hproto
  console h line := by
    obtain ⟨k, L, rfl, hL, ht⟩ := h.cases
    have hs := h.seats
    exact ⟨⟨ht, ⟨hs.region, hs.global, hs.root, hs.methods, hs.evalFunction, hs.table⟩, ⟨rfl, hL⟩⟩,
      .refl _⟩
  pending h hs := h.expecting fun _ hv => List.mem_singleton.mp hv ▸ hs
  binding h hs hv name := h.storing hs.1 hv name
  birth h fn u := ⟨(h.bearing fn u).1, widens_sight (h.bearing fn u).2.1⟩
  link h hs fn u := ⟨(h.linking hs fn u).1, widens_sight (h.linking hs fn u).2.1, (h.linking hs fn u).2.2⟩
  scope h hparent hbindings hthis owner := h.under hparent hbindings hthis owner
  apart h w n l := by
    obtain ⟨k, L, rfl, hL, ht⟩ := h.cases
    have hs := h.seats
    exact ⟨⟨ht, ⟨hs.region, hs.global, hs.root, hs.methods, hs.evalFunction, hs.table⟩, ⟨rfl, hL⟩⟩,
      .refl _⟩
  settle {c d p s} h hp hs := by
    refine h.settle hp.1 (h.ties.closed.pending hp _ ?_)
    rw [hs]
    exact List.mem_singleton_self _

end Zone

namespace Heap

variable {h k : Heap} {links L : Links} {roots roots' : List Cell}

/-- What is behind the roots of a part into which nothing else leads, if the other heap has the same
there. -/
theorem Reaches.transfer {V : Cell → Prop}
    (hback : ∀ x y, h.contains x → V y → h.contains y → y ∈ h.heldBy links x → V x)
    (hin : ∀ x, V x → h.contains x → k.contains x)
    (hheld : ∀ x, V x → h.heldBy links x = k.heldBy L x)
    (hroots : ∀ x, V x → x ∈ roots → k.contains x → k.Reaches L roots' x) {x : Cell} (hx : V x)
    (h' : h.Reaches links roots x) : k.Reaches L roots' x := by
  induction h' with
  | root hr hc => exact hroots _ hx hr (hin _ hx hc)
  | @held y z hy hz hc ih =>
    have hVy := hback y z hy.contains hx hc hz
    exact .held (ih hVy) (hheld y hVy ▸ hz) (hin z hx hc)

theorem mem_tableCells_equiv (hL : links.Equiv L) {f : Association → Cell} {x : Cell} :
    x ∈ tableCells links f ↔ x ∈ tableCells L f := by
  simp only [mem_tableCells, hL.getElem?_eq]

/-- What is there in such a part. -/
theorem Present.transfer {V : Cell → Prop} (hL : links.Equiv L)
    (hback : ∀ x y, h.contains x → V y → h.contains y → y ∈ h.heldBy links x → V x)
    (hin : ∀ x, V x → h.contains x → k.contains x)
    (hheld : ∀ x, V x → h.heldBy links x = k.heldBy L x)
    (hroots : ∀ x, V x → x ∈ roots → x ∈ roots') {x : Cell} (hx : V x)
    (h' : h.Present links roots x) : k.Present L roots' x := by
  induction h' with
  | reached h' =>
    refine .reached (h'.transfer hback hin hheld (fun y hy hr hc => .root ?_ hc) hx)
    simp only [List.mem_append, tableScopes, ← mem_tableCells_equiv hL] at hr ⊢
    exact hr.imp_left (hroots y hy)
  | circle h' =>
    refine .circle ⟨h'.noScope, h'.back.transfer hback hin hheld (fun y _ hr hc => .root ?_ hc) hx⟩
    exact hheld _ hx ▸ hr
  | @held y z hy hz hc ih =>
    have hVy := hback y z hy.contains hx hc hz
    exact .held (ih hVy) (hheld y hVy ▸ hz) (hin z hx hc)

/-- What of such a part is in the graph behind the table. -/
theorem InGraph.transfer {V : Cell → Prop} (hL : links.Equiv L)
    (hback : ∀ x y, h.contains x → V y → h.contains y → y ∈ h.heldBy links x → V x)
    (hin : ∀ x, V x → h.contains x → k.contains x)
    (hheld : ∀ x, V x → h.heldBy links x = k.heldBy L x)
    (hroots : ∀ x, V x → x ∈ roots → x ∈ roots') {x : Cell} (hx : V x)
    (h' : h.InGraph links roots x) : k.InGraph L roots' x := by
  induction h' with
  | scope ht hc => exact .scope ((mem_tableCells_equiv hL).mp ht) (hin _ hx hc)
  | closure ht h' =>
    exact .closure ((mem_tableCells_equiv hL).mp ht) (h'.transfer hL hback hin hheld hroots hx)
  | @held y z hy hz hc hopen ih =>
    have hVy := hback y z hy.contains hx hc hz
    exact .held (ih hVy) (hheld y hVy ▸ hz) (hin z hx hc) hopen

end Heap

namespace Zone

variable {Z : Zone} {h k h₀ k₀ : Heap} {c d : Core} {links L : Links} {roots roots' : List Cell}

/-- The cell is in the zone, or an object that is looked into from there. -/
def View (Z : Zone) : Cell → Prop
  | .object id => Z.shown id
  | x => Z.cells x

theorem view_of_cells {x : Cell} (hx : Z.cells x) : Z.View x := by
  cases x with
  | object id => exact Z.shown_of_cells hx
  | _ => exact hx

theorem seen_of_view {x : Cell} (hx : Z.View x) : Z.seen x := by
  cases x with
  | object id => exact Z.seen_of_shown hx
  | _ => exact Z.seen_of_cells hx

/-- What is in view leads to nothing else, if the table associates no closure of the zone with a scope
outside. -/
theorem Closed.view_heldBy (hc : Z.Closed h)
    (hlinks : ∀ (n : Nat) (a : Association), links[n]? = some a → Z.cells (.closure a.closure) →
      Z.cells (.scope a.scope))
    {x y : Cell} (hx : Z.View x) (hin : h.contains x) (hy : y ∈ h.heldBy links x) : Z.View y := by
  cases x with
  | object id =>
    obtain ⟨v, hv, hcell⟩ := List.mem_filterMap.mp hy
    simp only [Object.held, List.mem_append, List.mem_map, Option.mem_toList, Option.map_eq_some_iff,
      Array.mem_toList_iff] at hv
    rcases hv with (hv | ⟨p, hp, rfl⟩) | ⟨p, hp, rfl⟩
    · exact view_of_cells ((hc.object hx).elements v hv y hcell).1
    · exact view_of_cells ((hc.object hx).properties p hp y hcell).1
    · cases hcell
      exact hc.proto hx hp
  | closure id =>
    simp only [Heap.heldBy, List.mem_cons, Option.mem_toList, Option.map_eq_some_iff] at hy
    rcases hy with rfl | ⟨s, hs, rfl⟩
    · exact view_of_cells (hc.closure ⟨hx, hin⟩).1
    · obtain ⟨a, ha, rfl, rfl⟩ := Links.definingScope?_eq_some hs
      exact hlinks _ a ha hx
  | native id => exact List.mem_singleton.mp hy ▸ view_of_cells (hc.native ⟨hx, hin⟩).1
  | scope id => exact view_of_cells ((Scope.within_iff.mp (hc.scope ⟨hx, hin⟩)) y hy).1
  | pending id => exact view_of_cells ((Cell.forall_ofValues.mpr (hc.pending ⟨hx, hin⟩)) y hy).1

/-- What is in view reaches only what is in view. -/
theorem Closed.view_reaches (hc : Z.Closed h)
    (hlinks : ∀ (n : Nat) (a : Association), links[n]? = some a → Z.cells (.closure a.closure) →
      Z.cells (.scope a.scope))
    (hroots : ∀ x ∈ roots, Z.View x) {x : Cell} (hx : h.Reaches links roots x) : Z.View x := by
  induction hx with
  | root hr _ => exact hroots _ hr
  | held hy hz _ ih => exact hc.view_heldBy hlinks ih hy.contains hz

namespace Ties

theorem contains_eq (ht : Z.Ties h₀ k₀ h k) {x : Cell} (hx : Z.seen x) :
    h.contains x = k.contains x := by
  cases x with
  | object id => exact congrArg Option.isSome (ht.objects.same id hx)
  | closure id => exact congrArg Option.isSome (ht.closures.same id hx)
  | native id => exact congrArg Option.isSome (ht.natives.same id hx)
  | scope id => exact congrArg Option.isSome (ht.scopes.same id hx)
  | pending id => exact congrArg Option.isSome (ht.pendings.same id hx)

/-- Tied heaps hold the same where they are seen. -/
theorem heldBy_eq (ht : Z.Ties h₀ k₀ h k) (hL : links.Equiv L) {x : Cell} (hx : Z.seen x) :
    h.heldBy links x = k.heldBy L x := by
  cases x with
  | object id => simp only [Heap.heldBy, Store.get, ht.objects.same id hx]
  | closure id =>
    simp only [Heap.heldBy, Links.definingScope?, Store.get, ht.closures.same id hx, hL.getElem?_eq]
  | native id => simp only [Heap.heldBy, Store.get, ht.natives.same id hx]
  | scope id => simp only [Heap.heldBy, Store.get, ht.scopes.same id hx]
  | pending id => simp only [Heap.heldBy, Store.get, ht.pendings.same id hx]

end Ties

/-! ## What is kept -/

/-- Only what is seen leads to what is seen. -/
def Behind (Z : Zone) (h : Heap) (links : Links) : Prop :=
  ∀ x y, h.contains x → Z.seen y → h.contains y → y ∈ h.heldBy links x → Z.seen x

/-- What is behind the roots where it is seen, and only what is seen leads there. -/
theorem Ties.reaches_iff (ht : Z.Ties h₀ k₀ h k) (hL : links.Equiv L) (hh : Z.Behind h links)
    (hk : Z.Behind k L) (hroots : ∀ x, Z.seen x → (x ∈ roots ↔ x ∈ roots')) {x : Cell}
    (hx : Z.seen x) : h.Reaches links roots x ↔ k.Reaches L roots' x :=
  ⟨Heap.Reaches.transfer hh (fun _ hy hin => ht.contains_eq hy ▸ hin) (fun _ hy => ht.heldBy_eq hL hy)
      (fun y hy hr hin => .root ((hroots y hy).mp hr) hin) hx,
    Heap.Reaches.transfer hk (fun _ hy hin => (ht.contains_eq hy).symm ▸ hin)
      (fun _ hy => (ht.heldBy_eq hL hy).symm) (fun y hy hr hin => .root ((hroots y hy).mpr hr) hin) hx⟩

/-- **Two heaps keep the same where they are seen**, if only what is seen leads there. -/
theorem Ties.kept_iff (ht : Z.Ties h₀ k₀ h k) (hL : links.Equiv L) (hh : Z.Behind h links)
    (hk : Z.Behind k L) (hroots : ∀ x, Z.seen x → (x ∈ roots ↔ x ∈ roots')) {x : Cell}
    (hx : Z.seen x) : h.Kept links roots x ↔ k.Kept L roots' x := by
  have hto : ∀ y, Z.seen y → h.contains y → k.contains y := fun y hy hin => ht.contains_eq hy ▸ hin
  have hfrom : ∀ y, Z.seen y → k.contains y → h.contains y := fun y hy hin => (ht.contains_eq hy).symm ▸ hin
  have hheld : ∀ y, Z.seen y → h.heldBy links y = k.heldBy L y := fun _ hy => ht.heldBy_eq hL hy
  refine ht.reaches_iff hL hh hk (fun y hy => ?_) hx
  have hpresent : h.Present links roots y ↔ k.Present L roots' y :=
    ⟨.transfer hL hh hto hheld (fun z hz => (hroots z hz).mp) hy,
      .transfer hL.symm hk hfrom (fun z hz => (hheld z hz).symm) (fun z hz => (hroots z hz).mpr) hy⟩
  have hgraph : h.InGraph links roots y ↔ k.InGraph L roots' y :=
    ⟨.transfer hL hh hto hheld (fun z hz => (hroots z hz).mp) hy,
      .transfer hL.symm hk hfrom (fun z hz => (hheld z hz).symm) (fun z hz => (hroots z hz).mpr) hy⟩
  rw [Heap.mem_outer, Heap.mem_outer, hroots y hy, hpresent, hgraph]

/-! ## What pruning leaves -/

theorem Seats.view_table {e : Engine} (he : Z.Seats h e) {x : Cell}
    (hx : x ∈ Heap.tableScopes e.links) : Z.View x := by
  obtain ⟨n, a, ha, rfl⟩ := Heap.mem_tableScopes.mp hx
  exact (he.table ha).1.1

/-- What is behind the table of an engine in the zone is in view. -/
theorem Seats.view_behind {e : Engine} (he : Z.Seats h e) (hc : Z.Closed h) {x : Cell}
    (hx : h.Reaches e.links (Heap.tableScopes e.links) x) : Z.View x :=
  hc.view_reaches (fun _ _ ha _ => (he.table ha).1.1) (fun _ hr => he.view_table hr) hx

theorem lasts_prune (h : Heap) (links : Links) (roots : List Cell) :
    Lasts h (h.prune links roots).2 := fun x hx => (h.contains_prune links roots x).trans hx

theorem within_cleared {P : Cell → Prop} {s : Scope} (hs : s.Within P) : s.cleared.Within P := by
  refine ⟨fun p hp => hs.1 p ?_, Cell.forall_ofValues.mp fun x hx => ?_⟩
  · obtain ⟨parent, owner, storage, this⟩ := s
    cases storage <;> exact hp
  · exact Cell.forall_ofValues.mpr hs.2 x (Heap.ofValues_held_cleared s x hx)

/-- Pruning leaves the zone closed. -/
theorem Closed.prune (hc : Z.Closed h) (links : Links) (roots : List Cell) :
    Z.Closed (h.prune links roots).2 := by
  have hlasts := lasts_prune h links roots
  have heq := h.prune_eq links roots
  refine hc.of hlasts ?_ ?_ ?_ ?_ ?_
  case refine_4 =>
    intro id hid
    have hhas : Z.Has h (.scope id) := ⟨hid.1, (h.contains_prune links roots _).symm.trans hid.2⟩
    rcases h.get?_prune links roots id with ⟨-, hget⟩ | ⟨-, hget⟩
    · right
      obtain ⟨s, hs⟩ := Option.isSome_iff_exists.mp hhas.2
      have hcleared : (h.prune links roots).2.scopes.get id = s.cleared := by
        rw [Store.get, hget, hs]
        rfl
      rw [hcleared]
      have hwithin := within_cleared (hc.scope hhas)
      rw [Store.get_of_get? hs] at hwithin
      exact ⟨⟨fun p hp => (hwithin.1 p hp).mono hlasts, fun v hv => hlasts.within (hwithin.2 v hv)⟩,
        hc.region hhas⟩
    · exact .inl ⟨hhas, by rw [Store.get, hget, Store.get]⟩
  all_goals
    rw [heq]
    exact .refl fun _ hx => hx

/-- Tied heaps have the same behind the table. -/
theorem Rel.behind_iff (h' : Z.Rel h₀ k₀ c d) {x : Cell} :
    c.heap.Reaches c.engine.links (Heap.tableScopes c.engine.links) x ↔
      d.heap.Reaches d.engine.links (Heap.tableScopes d.engine.links) x := by
  have hlinks := h'.like.links
  have htable : ∀ y, y ∈ Heap.tableScopes c.engine.links ↔ y ∈ Heap.tableScopes d.engine.links :=
    fun y => by simp only [Heap.mem_tableScopes, hlinks.getElem?_eq]
  have hview : ∀ y, c.heap.Reaches c.engine.links (Heap.tableScopes c.engine.links) y → Z.View y :=
    fun y hy => h'.seats.view_behind h'.ties.closed hy
  constructor
  · intro hx
    induction hx with
    | @root y hr hin =>
      exact .root ((htable y).mp hr) (h'.ties.contains_eq (seen_of_view (h'.seats.view_table hr)) ▸ hin)
    | @held y z hy hz hin ih =>
      exact .held ih (h'.ties.heldBy_eq hlinks (seen_of_view (hview y hy)) ▸ hz)
        (h'.ties.contains_eq (seen_of_view (hview z (.held hy hz hin))) ▸ hin)
  · intro hx
    induction hx with
    | @root y hr hin =>
      have hr' := (htable y).mpr hr
      exact .root hr' ((h'.ties.contains_eq (seen_of_view (h'.seats.view_table hr'))).symm ▸ hin)
    | @held y z _ hz hin ih =>
      have hz' : z ∈ c.heap.heldBy c.engine.links y := h'.ties.heldBy_eq hlinks (seen_of_view (hview y ih)) ▸ hz
      have hviewz := h'.ties.closed.view_heldBy (fun _ _ ha _ => (h'.seats.table ha).1.1)
        (hview y ih) ih.contains hz'
      exact .held ih hz' ((h'.ties.contains_eq (seen_of_view hviewz)).symm ▸ hin)

/-- Two prunings that keep the same of the zone do the same in it. -/
theorem Rel.get?_prune (h' : Z.Rel h₀ k₀ c d)
    (hkept : ∀ x, Z.seen x →
      (c.heap.Kept c.engine.links roots x ↔ d.heap.Kept d.engine.links roots' x))
    {id : ScopeId} (hid : Z.seen (.scope id)) :
    (c.heap.prune c.engine.links roots).2.scopes.get? id =
      (d.heap.prune d.engine.links roots').2.scopes.get? id := by
  have hsame := h'.ties.scopes.same id hid
  rcases c.heap.get?_prune c.engine.links roots id with ⟨⟨hb, hk⟩, hget⟩ | ⟨hb, hget⟩
  · rcases d.heap.get?_prune d.engine.links roots' id with ⟨-, hget'⟩ | ⟨hb', -⟩
    · rw [hget, hget', hsame]
    · exact absurd ((hkept _ hid).mpr (hb' (h'.behind_iff.mp hb))) hk
  · rcases d.heap.get?_prune d.engine.links roots' id with ⟨⟨hb', hk'⟩, -⟩ | ⟨-, hget'⟩
    · exact absurd ((hkept _ hid).mp (hb (h'.behind_iff.mpr hb'))) hk'
    · rw [hget, hget', hsame]

/-- A scope outside of the zone is not behind the table. -/
theorem get?_prune_outside {e : Engine} (hc : Z.Closed h) (he : Z.Seats h e)
    (hbehind : k.Reaches L (Heap.tableScopes L) = h.Reaches e.links (Heap.tableScopes e.links))
    {id : ScopeId} (hid : ¬Z.cells (.scope id)) :
    (k.prune L roots).2.scopes.get? id = k.scopes.get? id := by
  rcases k.get?_prune L roots id with ⟨⟨hb, -⟩, -⟩ | ⟨-, hget⟩
  · rw [hbehind] at hb
    exact absurd (he.view_behind hc hb) hid
  · exact hget

/-- **The end of an evaluation** does the same on both cores, if both keep the same of the zone. -/
theorem Rel.ended (h' : Z.Rel h₀ k₀ c d)
    (hkept : ∀ x, Z.seen x →
      (c.heap.Kept c.engine.links roots x ↔ d.heap.Kept d.engine.links roots' x)) :
    Z.Rel h₀ k₀ (c.ended roots) (d.ended roots') ∧ Lasts c.heap (c.ended roots).heap := by
  have hlasts : Lasts c.heap (c.ended roots).heap := lasts_prune c.heap c.engine.links roots
  have hbehind : d.heap.Reaches d.engine.links (Heap.tableScopes d.engine.links) =
      c.heap.Reaches c.engine.links (Heap.tableScopes c.engine.links) :=
    funext fun _ => propext h'.behind_iff.symm
  have hnone : ∀ (e : Core) held id, (e.heap.prune e.engine.links held).2.scopes.get? id = none →
      e.heap.scopes.get? id = none := by
    intro e held id hn
    have hin : ((e.heap.prune e.engine.links held).2.scopes.get? id).isSome =
        (e.heap.scopes.get? id).isSome := e.heap.contains_prune e.engine.links held (.scope id)
    rw [hn] at hin
    exact Option.isNone_iff_eq_none.mp (Option.isSome_eq_false_iff.mp hin.symm)
  have hscopes : Store.Tied (Z.cells ∘ .scope) (Z.seen ∘ .scope) Z.own h₀.scopes k₀.scopes
      (c.ended roots).heap.scopes (d.ended roots').heap.scopes := by
    have ht := h'.ties.scopes
    refine ⟨ht.sub, fun id hid => h'.get?_prune hkept hid, fun id hid => ?_, fun id hid => ?_,
      fun id hid hn => ht.fresh id hid (hnone _ _ id hn),
      fun id hid hn => ht.fresh' id hid (hnone _ _ id hn), fun id hid => hlasts (.scope id) (ht.grown id hid),
      fun id hid => lasts_prune d.heap d.engine.links roots' (.scope id) (ht.grown' id hid)⟩
    · exact (get?_prune_outside h'.ties.closed h'.seats rfl hid).trans (ht.frozen id hid)
    · exact (get?_prune_outside h'.ties.closed h'.seats hbehind hid).trans (ht.frozen' id hid)
  have hheap : ∀ (e : Core) held, (e.ended held).heap =
      { e.heap with scopes := (e.ended held).heap.scopes } := fun e held => e.heap.prune_eq ..
  refine ⟨⟨?_, ?_, ?_⟩, hlasts⟩
  · have hclosed : Z.Closed (c.ended roots).heap := h'.ties.closed.prune ..
    rw [hheap c, hheap d]
    exact { h'.ties with scopes := hscopes, closed := hheap c roots ▸ hclosed }
  · have hs := h'.seats.mono hlasts
    refine ⟨hs.region, hs.global, hs.root, hs.methods, hs.evalFunction, fun {n a} ha => ?_⟩
    exact hs.table ((c.heap.getElem?_prune c.engine.links roots n a).mp ha).1
  · obtain ⟨k, L, rfl, hL, ht⟩ := h'.cases
    refine ⟨rfl, .of_forall_constGet?_eq fun n => Option.ext fun a => ?_⟩
    refine ((c.heap.getElem?_prune c.engine.links roots n a).trans ?_).trans
      (k.getElem?_prune L roots' n a).symm
    rw [hL.getElem?_eq]
    exact and_congr_right fun ha => hkept _ (Z.seen_of_cells (h'.seats.table (hL.getElem?_eq.trans ha)).2)

end Zone

/-!
## What lies outside of a zone

Whoever works in a zone leaves the rest of the heap as it is (`Zone.Leaves`). So another zone, apart from
the first one, stays as it is: closed, and tied to whatever it was tied to.

* `Zone.Ties.leaves`: tied heaps leave what was outside at their starts.
* `Zone.Closed.frame`, `Zone.Ties.frame`: another zone after that.
* `Zone.behind`: what leads into one of two zones, if the other one is closed.
-/

namespace Zone

variable {Y Z : Zone} {h k l h' k' h₀ k₀ : Heap}

/-- Outside of the zone nothing changed, and everything that existed still does. -/
structure Leaves (Y : Zone) (h k : Heap) : Prop where
  object : ∀ id, ¬Y.cells (.object id) → k.objects.get? id = h.objects.get? id
  closure : ∀ id, ¬Y.cells (.closure id) → k.closures.get? id = h.closures.get? id
  native : ∀ id, ¬Y.cells (.native id) → k.natives.get? id = h.natives.get? id
  scope : ∀ id, ¬Y.cells (.scope id) → k.scopes.get? id = h.scopes.get? id
  pending : ∀ id, ¬Y.cells (.pending id) → k.pendings.get? id = h.pendings.get? id
  number : ∀ id : PendingId, ¬Y.own id.region → k.numbers.get? id = h.numbers.get? id
  numbered : ∀ id, (h.numbers.get? id).isSome → (k.numbers.get? id).isSome
  lasts : Lasts h k
  kin : Kin h k

namespace Leaves

theorem refl (h : Heap) : Y.Leaves h h :=
  ⟨fun _ _ => rfl, fun _ _ => rfl, fun _ _ => rfl, fun _ _ => rfl, fun _ _ => rfl, fun _ _ => rfl,
    fun _ => id, fun _ => id, .refl h⟩

theorem trans (h₁ : Y.Leaves h k) (h₂ : Y.Leaves k l) : Y.Leaves h l where
  object id hid := (h₂.object id hid).trans (h₁.object id hid)
  closure id hid := (h₂.closure id hid).trans (h₁.closure id hid)
  native id hid := (h₂.native id hid).trans (h₁.native id hid)
  scope id hid := (h₂.scope id hid).trans (h₁.scope id hid)
  pending id hid := (h₂.pending id hid).trans (h₁.pending id hid)
  number id hid := (h₂.number id hid).trans (h₁.number id hid)
  numbered id hid := h₂.numbered id (h₁.numbered id hid)
  lasts x hx := h₂.lasts x (h₁.lasts x hx)
  kin := h₁.kin.trans h₁.lasts h₂.kin

theorem contains_eq (hl : Y.Leaves h k) {x : Cell} (hx : ¬Y.cells x) : k.contains x = h.contains x := by
  cases x with
  | object id => exact congrArg Option.isSome (hl.object id hx)
  | closure id => exact congrArg Option.isSome (hl.closure id hx)
  | native id => exact congrArg Option.isSome (hl.native id hx)
  | scope id => exact congrArg Option.isSome (hl.scope id hx)
  | pending id => exact congrArg Option.isSome (hl.pending id hx)

end Leaves

theorem Ties.leaves (ht : Z.Ties h₀ k₀ h k) : Z.Leaves h₀ h where
  object := ht.objects.frozen
  closure := ht.closures.frozen
  native := ht.natives.frozen
  scope := ht.scopes.frozen
  pending := ht.pendings.frozen
  number := ht.numbers.frozen
  numbered := ht.numbers.grown
  lasts := ht.lasts
  kin := ht.kin

theorem Ties.leaves' (ht : Z.Ties h₀ k₀ h k) : Z.Leaves k₀ k where
  object := ht.objects.frozen'
  closure := ht.closures.frozen'
  native := ht.natives.frozen'
  scope := ht.scopes.frozen'
  pending := ht.pendings.frozen'
  number := ht.numbers.frozen'
  numbered := ht.numbers.grown'
  lasts x hx := by
    cases x with
    | object id => exact ht.objects.grown' id hx
    | closure id => exact ht.closures.grown' id hx
    | native id => exact ht.natives.grown' id hx
    | scope id => exact ht.scopes.grown' id hx
    | pending id => exact ht.pendings.grown' id hx
  kin := ht.kin'

/-- The process went on elsewhere. -/
theorem Leaves.elsewhere (h : Heap) (process : Process) : Y.Leaves h { h with process } :=
  { Leaves.refl h with lasts := fun x hx => by cases x <;> exact hx }

/-- Nothing that is in view of one zone is in the other one. -/
def Apart (Y Z : Zone) : Prop := ∀ x, Z.View x → ¬Y.cells x

/-- **A zone stays closed** while somebody works apart from it. -/
theorem Closed.frame (hc : Z.Closed h) (hl : Y.Leaves h k) (hapart : Y.Apart Z) : Z.Closed k := by
  have hhas : ∀ {x}, Z.Has k x → Z.Has h x := fun {x} hx =>
    ⟨hx.1, (hl.contains_eq (hapart x (view_of_cells hx.1))).symm.trans hx.2⟩
  refine hc.of hl.lasts ?_ ?_ ?_ ?_ ?_
  · exact fun id hid => .inl ⟨hid, by rw [Store.get, hl.object id (hapart (.object id) hid), Store.get]⟩
  · exact fun id hid => .inl ⟨hhas hid,
      by rw [Store.get, hl.closure id (hapart _ hid.1), Store.get]⟩
  · exact fun id hid => .inl ⟨hhas hid, by rw [Store.get, hl.native id (hapart _ hid.1), Store.get]⟩
  · exact fun id hid => .inl ⟨hhas hid, by rw [Store.get, hl.scope id (hapart _ hid.1), Store.get]⟩
  · exact fun id hid => .inl ⟨hhas hid, by rw [Store.get, hl.pending id (hapart _ hid.1), Store.get]⟩

end Zone

namespace Store.Tied

variable {k : Kind} {α : Type} {s t s' t' : Store k α} {P Q R : Addr k → Prop} {own : Nat → Prop}

theorem none_of_lasts {a : Addr k} (hlasts : (s.get? a).isSome → (t.get? a).isSome)
    (hn : t.get? a = none) : s.get? a = none :=
  Option.not_isSome_iff_eq_none.mp fun hin => by
    have ht := hlasts hin
    rw [hn] at ht
    cases ht

/-- Tied stores stay tied when something out of sight changes in both. -/
theorem frame (h : Tied P Q own s t s t) (hs : ∀ a, ¬R a → s'.get? a = s.get? a)
    (ht : ∀ a, ¬R a → t'.get? a = t.get? a) (hlasts : ∀ a, (s.get? a).isSome → (s'.get? a).isSome)
    (hlasts' : ∀ a, (t.get? a).isSome → (t'.get? a).isSome) (hapart : ∀ a, Q a → ¬R a) :
    Tied P Q own s' t' s' t' where
  sub := h.sub
  same a ha := (hs a (hapart a ha)).trans ((h.same a ha).trans (ht a (hapart a ha)).symm)
  frozen _ _ := rfl
  frozen' _ _ := rfl
  fresh a ha hn := h.fresh a ha (none_of_lasts (hlasts a) hn)
  fresh' a ha hn := h.fresh' a ha (none_of_lasts (hlasts' a) hn)
  grown _ ha := ha
  grown' _ ha := ha

/-- What was tied since a later start is tied since an earlier one. -/
theorem since {s₀ t₀ : Store k α} (h : Tied P Q own s₀ t₀ s t) (hs : ∀ a, ¬P a → s₀.get? a = s'.get? a)
    (ht : ∀ a, ¬P a → t₀.get? a = t'.get? a) (hgrown : ∀ a, (s'.get? a).isSome → (s₀.get? a).isSome)
    (hgrown' : ∀ a, (t'.get? a).isSome → (t₀.get? a).isSome) : Tied P Q own s' t' s t where
  sub := h.sub
  same := h.same
  frozen a ha := (h.frozen a ha).trans (hs a ha)
  frozen' a ha := (h.frozen' a ha).trans (ht a ha)
  fresh := h.fresh
  fresh' := h.fresh'
  grown a ha := h.grown a (hgrown a ha)
  grown' a ha := h.grown' a (hgrown' a ha)

/-- Stores that are tied may start anew. -/
theorem anew {s₀ t₀ : Store k α} (h : Tied P Q own s₀ t₀ s t) : Tied P Q own s t s t where
  sub := h.sub
  same := h.same
  frozen _ _ := rfl
  frozen' _ _ := rfl
  fresh := h.fresh
  fresh' := h.fresh'
  grown _ ha := ha
  grown' _ ha := ha

end Store.Tied

namespace Zone

variable {Y Z : Zone} {h k h' k' h₀ k₀ : Heap} {links : Links}

/-- Heaps that are tied may start anew. -/
theorem Ties.anew (ht : Z.Ties h₀ k₀ h k) : Z.Ties h k h k :=
  ⟨ht.objects.anew, ht.closures.anew, ht.natives.anew, ht.scopes.anew, ht.pendings.anew,
    ht.numbers.anew, ht.process, ht.closed, .refl h, .refl k⟩

/-- What was tied since later starts is tied since earlier ones. -/
theorem Ties.since (ht : Z.Ties h' k' h k) (hl : Z.Leaves h₀ h') (hl' : Z.Leaves k₀ k') :
    Z.Ties h₀ k₀ h k where
  objects := ht.objects.since hl.object hl'.object (fun id => hl.lasts (.object id))
    fun id => hl'.lasts (.object id)
  closures := ht.closures.since hl.closure hl'.closure (fun id => hl.lasts (.closure id))
    fun id => hl'.lasts (.closure id)
  natives := ht.natives.since hl.native hl'.native (fun id => hl.lasts (.native id))
    fun id => hl'.lasts (.native id)
  scopes := ht.scopes.since hl.scope hl'.scope (fun id => hl.lasts (.scope id))
    fun id => hl'.lasts (.scope id)
  pendings := ht.pendings.since hl.pending hl'.pending (fun id => hl.lasts (.pending id))
    fun id => hl'.lasts (.pending id)
  numbers := ht.numbers.since hl.number hl'.number hl.numbered hl'.numbered
  process := ht.process
  closed := ht.closed
  kin := hl.kin.trans hl.lasts ht.kin
  kin' := hl'.kin.trans hl'.lasts ht.kin'

/-- The process went on elsewhere. -/
theorem Ties.elsewhere (ht : Z.Ties h₀ k₀ h k) (process : Process) :
    Z.Ties h₀ k₀ { h with process } { k with process } := by
  have hlasts : Lasts h { h with process } := (Leaves.elsewhere (Y := Z) h process).lasts
  refine { ht with process := rfl, closed := ht.closed.of hlasts ?_ ?_ ?_ ?_ ?_ }
  all_goals exact .refl fun _ hx => hx

/-- Everything that is seen from one zone lies outside of the other one, and so do the numbers of its
pending values. -/
structure Beyond (Y Z : Zone) : Prop where
  cells : ∀ x, Z.seen x → ¬Y.cells x
  numbers : ∀ p : PendingId, Z.cells (.pending p) ∨ Z.own p.region → ¬Y.own p.region

theorem Beyond.apart (hb : Y.Beyond Z) : Y.Apart Z := fun x hx => hb.cells x (seen_of_view hx)

/-- **Heaps stay tied by a zone** while somebody works out of its sight, on both or one of them, as long as
they are of the same process. -/
theorem Ties.frame (ht : Z.Ties h k h k) (hl : Y.Leaves h h') (hl' : Y.Leaves k k')
    (hb : Y.Beyond Z) (hprocess : h'.process = k'.process) : Z.Ties h' k' h' k' where
  objects := ht.objects.frame (R := Y.cells ∘ .object) hl.object hl'.object
    (fun id => hl.lasts (.object id)) (fun id => hl'.lasts (.object id)) fun id => hb.cells (.object id)
  closures := ht.closures.frame (R := Y.cells ∘ .closure) hl.closure hl'.closure
    (fun id => hl.lasts (.closure id)) (fun id => hl'.lasts (.closure id)) fun id => hb.cells (.closure id)
  natives := ht.natives.frame (R := Y.cells ∘ .native) hl.native hl'.native
    (fun id => hl.lasts (.native id)) (fun id => hl'.lasts (.native id)) fun id => hb.cells (.native id)
  scopes := ht.scopes.frame (R := Y.cells ∘ .scope) hl.scope hl'.scope
    (fun id => hl.lasts (.scope id)) (fun id => hl'.lasts (.scope id)) fun id => hb.cells (.scope id)
  pendings := ht.pendings.frame (R := Y.cells ∘ .pending) hl.pending hl'.pending
    (fun id => hl.lasts (.pending id)) (fun id => hl'.lasts (.pending id)) fun id => hb.cells (.pending id)
  numbers := ht.numbers.frame (R := fun p => Y.own p.region) hl.number hl'.number hl.numbered hl'.numbered
    hb.numbers
  process := hprocess
  closed := ht.closed.frame hl hb.apart
  kin := .refl h'
  kin' := .refl k'

/-- Only what is seen leads to what is seen, if all the rest is a closed zone, apart from which the table
keeps its closures. -/
theorem behind (hc : Y.Closed h) (hrest : ∀ x, ¬Z.seen x → Y.View x) (hseen : ∀ x, Y.View x → ¬Z.seen x)
    (htable : ∀ (n : Nat) (a : Association), links[n]? = some a → ¬Y.cells (.closure a.closure)) :
    Z.Behind h links := by
  intro x y hx hy _ hxy
  by_contra hn
  refine hseen y (hc.view_heldBy (fun n a ha hcells => absurd hcells (htable n a ha)) (hrest x hn) hx hxy) hy

end Zone

end Fermata
