import Fermata.Proofs.Session.Create
import Fermata.Proofs.Zone.During
import Fermata.Proofs.Zone.Found

/-!
# Prototype chains are finite

A host sets a session up on a heap of its own, on which every object has a lineage, and hands over nothing
but what exists. Then every object has a lineage on every heap that the session comes by: an object is made
with its prototype, which exists by then, and never gets another one. Whatever a guest writes to the
properties of a function decides only what the objects that are made later inherit from.

* `Realm.founding`: every act of an evaluation leaves every object a lineage.
* `Zone.whole`: all cells as one zone, in which every engine works.
* `Deed`: what a host does, be it a turn or not.
* `Session.chains_finite`: the result.
-/

namespace Fermata

namespace Realm

variable {K : Realm}

/-- Related cores, on whose first heap every object has a lineage. -/
def founding (K : Realm)
    (hheld : ∀ {c d p}, K.rel c d → (K.sight c).held (.object p) → (c.heap.objects.get? p).isSome) :
    Realm where
  sight := K.sight
  rel c d := K.rel c d ∧ c.heap.Founded
  agree h := K.agree h.1
  engine h := K.engine h.1
  global h := K.global h.1
  methods h := K.methods h.1
  defining h := K.defining h.1
  nextObject h := K.nextObject h.1
  nextClosure h := K.nextClosure h.1
  nextPending h := K.nextPending h.1
  nextScope h := K.nextScope h.1
  process h := K.process h.1
  object h ho hp :=
    have ⟨hrel, hrest⟩ := K.object h.1 ho hp
    ⟨⟨hrel, h.2.push (fun p hproto => hheld h.1 (hp p hproto)) _⟩, hrest⟩
  edit h hid hf hproto :=
    have ⟨hrel, hrest⟩ := K.edit h.1 hid hf hproto
    ⟨⟨hrel, h.2.modify _ hproto⟩, hrest⟩
  console h line :=
    have ⟨hrel, hrest⟩ := K.console h.1 line
    ⟨⟨hrel, h.2⟩, hrest⟩
  pending h hs :=
    have ⟨hrel, hrest⟩ := K.pending h.1 hs
    ⟨⟨hrel, h.2.of_objects rfl⟩, hrest⟩
  binding h hs hv name :=
    have ⟨hrel, hrest⟩ := K.binding h.1 hs hv name
    ⟨⟨hrel, h.2.of_objects rfl⟩, hrest⟩
  -- a closure comes with an object of its own, which inherits from nothing
  birth h fn u :=
    have ⟨hrel, hrest⟩ := K.birth h.1 fn u
    ⟨⟨hrel, (h.2.push (o := .ofFunction) nofun _).of_objects rfl⟩, hrest⟩
  link h hs fn u :=
    have ⟨hrel, hrest⟩ := K.link h.1 hs fn u
    ⟨⟨hrel, (h.2.push (o := .ofFunction) nofun _).of_objects rfl⟩, hrest⟩
  scope h hparent hbindings hthis owner :=
    have ⟨hrel, hrest⟩ := K.scope h.1 hparent hbindings hthis owner
    ⟨⟨hrel, h.2.of_objects rfl⟩, hrest⟩
  apart h w n l :=
    have ⟨hrel, hrest⟩ := K.apart h.1 w n l
    ⟨⟨hrel, h.2.of_objects rfl⟩, hrest⟩
  settle h hp hs :=
    have ⟨hrel, hrest⟩ := K.settle h.1 hp hs
    ⟨⟨hrel, h.2.of_objects rfl⟩, hrest⟩

end Realm

/-! ## Writes of the host -/

namespace Heap.Founded

variable {h : Heap}

theorem set (hf : h.Founded) (id : ObjectId) (key : String) (v : Value) : (h.set id key v).Founded :=
  hf.modify id fun o => Object.proto_put o key v _ true

theorem setAt (hf : h.Founded) (p : Place) (name : String) (v : Value) : (h.setAt p name v).Founded := by
  cases p with
  | binding s => exact hf.of_objects rfl
  | global o =>
    unfold Heap.setAt
    dsimp only
    split
    · exact hf
    · exact hf.set o name v
  | nowhere => exact hf

theorem setOwn (hf : h.Founded) (scope : ScopeId) (name : String) (v : Value) :
    (h.setOwn scope name v).2.Founded := by
  unfold Heap.setOwn
  split <;> split
  · exact hf.set _ name v
  · exact hf
  · exact hf.of_objects rfl
  · exact hf

end Heap.Founded

/-! ## The whole heap -/

namespace Zone

variable {Z : Zone} {mine : Nat → Prop} {h k h₀ k₀ : Heap} {s : Session} {turn : Turn} {m : Machine}
  {c : Core}

/-- Objects keep their prototypes. -/
theorem Leaves.keepsProtos (hl : Z.Leaves h k) : h.KeepsProtos k := fun id o ho => by
  have hin : (h.objects.get? id).isSome := Option.isSome_of_eq_some ho
  obtain ⟨o', ho'⟩ := Option.isSome_iff_exists.mp (hl.lasts (.object id) hin)
  have hproto := hl.kin id hin
  rw [Store.get_of_get? ho', Store.get_of_get? ho] at hproto
  exact ⟨o', ho', hproto⟩

namespace Alike

/-- An admitted turn begins where every object has a lineage. -/
theorem admits_founding (hA : Z.Alike mine s s) (hturn : Z.Admits mine s turn) (hf : s.heap.Founded) :
    ((Z.realm s.heap s.heap).founding fun _ hp => hp.2).Admits s turn :=
  hA.admits hturn (fun _ => rfl) (fun _ hrel heq => ⟨hrel, hf.of_objects heq⟩) fun hm =>
    hm.widen (.refl _)

/-- **In the course of an admitted turn** every object has a lineage. -/
theorem founded_during (hA : Z.Alike mine s s) (hturn : Z.Admits mine s turn) (hf : s.heap.Founded)
    (hd : s.During turn m c) : c.heap.Founded :=
  ((hA.admits_founding hturn hf).during hd).rel.2

/-- **After an admitted turn** every object has a lineage. -/
theorem founded_perform (hA : Z.Alike mine s s) (hturn : Z.Admits mine s turn) (hf : s.heap.Founded) :
    (s.perform turn).2.heap.Founded := by
  have hevaluates : (s.ask? turn).isSome ∨ (∃ i, turn = .poll i) → (s.perform turn).2.heap.Founded := by
    intro h
    have hleaves := (hA.admits_founding hturn hf).leaves (i := turn.engine?.getD 0)
      (h.imp id fun ⟨i, hi⟩ => hi ▸ rfl)
    rcases hleaves with heq | ⟨c, hc, heq⟩
    · exact hf.of_objects heq
    · exact hc.2.of_objects heq
  cases hask : s.ask? turn with
  | some a => exact hevaluates (.inl (hask ▸ rfl))
  | none =>
    cases Session.unasked hask with
    | refused heq => exact heq ▸ hf
    | poll i => exact hevaluates (.inr ⟨i, rfl⟩)
    | setName scope name v =>
      change (s.assign scope name v).2.heap.Founded
      unfold Session.assign Heap.setName
      cases s.heap.target scope name with
      | error cause => exact hf
      | ok place => exact hf.setAt place name v
    | setEnvironment scope env =>
      exact Heap.setEnvironment_induction (P := Heap.Founded) (fun k name v hk => hk.setOwn scope name v)
        env hf
    | settle p settlement => exact hf.of_objects rfl
    | abandon i =>
      rcases s.abandon_cases i with ⟨heq, -⟩ | ⟨f, -, heq⟩ <;> rw [Session.perform, heq] <;> exact hf
    | elsewhere process => exact hf.of_objects rfl
    | console | keep | forget | hold | release => exact hf

end Alike

/-- How a host names pending values is nothing to the engines. -/
theorem Alike.withPendings (hA : Z.Alike mine s s) (names : List (String × PendingId)) :
    Z.Alike mine { s with pendings := names } { s with pendings := names } :=
  ⟨hA.ties, rfl, rfl, hA.there, hA.seats, hA.like, hA.abreast, hA.parked, hA.compiled, hA.cached,
    hA.cached'⟩

/-- All cells. -/
def whole : Zone :=
  ⟨fun _ => True, fun _ => True, fun _ => True, fun _ => True, fun _ => trivial, fun _ => trivial,
    fun _ => trivial⟩

theorem whole_tied {κ : Kind} {α : Type} (S : Store κ α) :
    Store.Tied (fun _ => True) (fun _ => True) (fun _ => True) S S S S :=
  ⟨fun _ _ => trivial, fun _ _ => rfl, fun _ _ => rfl, fun _ _ => rfl, fun _ _ _ => trivial,
    fun _ _ _ => trivial, fun _ hin => hin, fun _ hin => hin⟩

/-- A heap on which nothing refers to what does not exist. -/
theorem whole_ties (hc : whole.Closed h) : whole.Ties h h h h :=
  ⟨whole_tied _, whole_tied _, whole_tied _, whole_tied _, whole_tied _,
    .regions (fun _ => .rfl) fun _ => .inr, rfl, hc, .refl h, .refl h⟩

theorem whole_closed : whole.Closed {} where
  object _ := Object.stores_empty none
  proto _ _ := trivial
  closure h := by cases h.2
  native h := by cases h.2
  scope h := by cases h.2
  pending h := by cases h.2
  region _ := trivial

/-- Everything is seen from the whole heap, so pruning keeps the same. -/
theorem whole_concurs (s : Session) (i : Nat) : whole.Concurs i s s where
  left _ _ _ _ _ _ _ := trivial
  right _ _ _ _ _ _ _ := trivial
  roots _ _ := Iff.rfl

end Zone

/-! ## What a host does -/

/-- What a host does to a session: it has turns, and it makes and changes what it wants besides. -/
inductive Deed where
  | turn (turn : Turn)
  /-- Set an engine up. -/
  | engine (name : Option String) (settings : Settings) (host : Option ObjectId)
    (defines : List (String × Value))
  | pending (name : String) (kind : PendingKind)
  | object (object : Object)
  /-- Change an object. Its prototype cannot be changed. -/
  | change (id : ObjectId) (object : Object)
  /-- Associate a function with a scope. -/
  | link (scope : ScopeId) (closure : ClosureId)

namespace Deed

/-- The engine that it is about. -/
def engine? : Deed → Option Nat
  | turn t => t.engine?
  | link scope _ => some (scope.region - 1)
  | _ => none

/-- What it hands over. -/
def supplied : Deed → List Cell
  | turn t => t.supplied
  | engine _ _ host defines =>
    host.toList.map Cell.object ++ Cell.ofValues (defines.map (·.2))
  | pending _ kind => Cell.ofValues kind.state.held
  | object o | change _ o => Cell.ofValues o.held
  | link scope closure => [.scope scope, .closure closure]

end Deed

namespace Session

variable {s t : Session} {d : Deed}

/-- The session after a deed. -/
def does (s : Session) : Deed → Session
  | .turn t => (s.perform t).2
  | .engine name settings host defines => s.addEngine name settings host defines
  | .pending name kind => s.addPending name kind
  | .object o => { s with heap := (s.heap.newObject hostRegion o).2 }
  | .change id o =>
    { s with heap :=
      { s.heap with objects := s.heap.objects.modify id fun old => { o with proto := old.proto } } }
  | .link scope closure => (s.link scope closure).2

/-- The session after all of these deeds. -/
def past (s : Session) : List Deed → Session
  | [] => s
  | d :: ds => (s.does d).past ds

/-- A deed is about an engine that is there, if about any, and hands over nothing but what exists. -/
structure Permits (s : Session) (d : Deed) : Prop where
  engine : ∀ i, d.engine? = some i → i < s.stations.size
  supplied : ∀ x ∈ d.supplied, s.heap.contains x = true

/-- All of these deeds are such. -/
def PermitsAll (s : Session) : List Deed → Prop
  | [] => True
  | d :: ds => s.Permits d ∧ (s.does d).PermitsAll ds

/-- Nothing refers to what does not exist, and every object has a lineage. -/
structure Orderly (s : Session) : Prop where
  alike : Zone.whole.Alike (· < s.stations.size) s s
  founded : s.heap.Founded

theorem Permits.admits {turn : Turn} (h : s.Permits (.turn turn)) :
    Zone.whole.Admits (· < s.stations.size) s turn :=
  ⟨h.engine, fun x hx => ⟨trivial, h.supplied x hx⟩⟩

namespace Orderly

/-- A session without engines, on a heap of the host. -/
theorem start (hnone : s.stations = #[]) (hclosed : Zone.whole.Closed s.heap)
    (hfounded : s.heap.Founded) : s.Orderly := by
  have hmine : (· < s.stations.size) = fun _ => False := by
    funext i
    simp [hnone]
  exact ⟨hmine ▸ (Zone.whole_ties hclosed).alike, hfounded⟩

/-- The session went on, and the same engines are there. -/
theorem passes (h : Zone.whole.Passes (· < s.stations.size) s s t t) (hf : t.heap.Founded) :
    t.Orderly ∧ s.heap.KeepsProtos t.heap := by
  have halike := h.alike
  rw [← h.left.size] at halike
  exact ⟨⟨halike, hf⟩, h.left.heap.keepsProtos⟩

/-- **A deed** leaves the session orderly, and objects their prototypes. -/
theorem does (h : s.Orderly) (hd : s.Permits d) :
    (s.does d).Orderly ∧ s.heap.KeepsProtos (s.does d).heap := by
  obtain ⟨hA, hf⟩ := h
  have hhas : ∀ x ∈ d.supplied, Zone.whole.Has s.heap x := fun x hx => ⟨trivial, hd.supplied x hx⟩
  cases d with
  | turn turn =>
    obtain ⟨⟨-, hpasses⟩, -⟩ := hA.perform hd.admits (fun i _ => Zone.whole_concurs s i)
      (fun _ _ => rfl) fun _ _ => rfl
    exact passes hpasses (hA.founded_perform hd.admits hf)
  | engine name settings host defines =>
    have hhost : ∀ p, host = some p → s.heap.contains (.object p) = true := fun p hp =>
      hd.supplied _ (by simp [Deed.supplied, hp])
    have hdefines : ∀ e ∈ defines, e.2.Within (Zone.whole.Has s.heap) := fun e he =>
      Cell.forall_ofValues.mp (fun x hx => hhas x (List.mem_append_right _ hx)) _
        (List.mem_map_of_mem he)
    obtain ⟨halike, hleaves⟩ : Zone.whole.Alike (fun j => j < s.stations.size ∨ j = s.stations.size)
          (s.addEngine name settings host defines) (s.addEngine name settings host defines) ∧
        Zone.whole.Leaves s.heap (s.addEngine name settings host defines).heap :=
      hA.founded trivial (fun _ _ => trivial) hdefines
    have hmine : (fun j => j < s.stations.size ∨ j = s.stations.size) =
        (· < (s.addEngine name settings host defines).stations.size) := by
      funext j
      rw [Session.size_addEngine, Nat.lt_succ_iff_lt_or_eq]
    obtain ⟨n, hheap, -⟩ := s.addEngine_founds name settings host defines
    refine ⟨⟨hmine ▸ halike, ?_⟩, hleaves.keepsProtos⟩
    change (s.addEngine name settings host defines).heap.Founded
    rw [hheap]
    exact Engine.create_founded hf _ n settings hhost defines
  | pending name kind =>
    have hpasses := hA.withHeap (hA.ties.pushPending (r := hostRegion) trivial
      (Cell.forall_ofValues.mp hhas))
    obtain ⟨⟨halike, hfounded⟩, hkeeps⟩ := passes hpasses (hf.of_objects rfl)
    exact ⟨⟨halike.withPendings _, hfounded⟩, hkeeps⟩
  | object o =>
    have ho : o.Within (Zone.whole.Has s.heap) := Object.within_iff.mpr hhas
    exact passes (hA.withHeap (hA.ties.pushObject (r := hostRegion) trivial ⟨ho.elements, ho.properties⟩
      fun _ _ => trivial)) (hf.push (fun p hp => (ho.proto p hp).2) _)
  | change id o =>
    have ho : o.Within (Zone.whole.Has s.heap) := Object.within_iff.mpr hhas
    let replace : Object → Object := fun old => { o with proto := old.proto }
    have hstores : ∀ old : Object, old.Stores (Zone.whole.Has s.heap) →
        (replace old).Stores (Zone.whole.Has s.heap) := fun _ _ => ⟨ho.elements, ho.properties⟩
    exact passes (hA.withHeap (hA.ties.editObject trivial hstores fun _ => rfl))
      (hf.modify id fun _ => rfl)
  | link scope closure =>
    have hi : scope.region - 1 < s.stations.size := hd.engine _ rfl
    have hscope : Zone.whole.Has s.heap (.scope scope) := hhas _ List.mem_cons_self
    have hseats := hA.seats hi
    obtain ⟨L, hL⟩ : ∃ L, L = ((s.engine (scope.region - 1)).links.associate
      (s.heap.closures.get closure).serial ⟨closure, scope, (s.heap.closures.get closure).node.id⟩).2 :=
      ⟨_, rfl⟩
    have heq : s.does (.link scope closure) = s.modifyStation (scope.region - 1) fun t =>
        { t with engine := { t.engine with links := L } } := hL ▸ rfl
    have htable : ∀ {n : Nat} {a : Association}, L[n]? = some a →
        Zone.whole.Has s.heap (.scope a.scope) ∧ Zone.whole.cells (.closure a.closure) := by
      intro n a ha
      rw [hL, Links.getElem?_associate] at ha
      split at ha
      · cases ha
        exact ⟨hscope, trivial⟩
      · exact hseats.table ha
    rw [heq]
    exact passes (hA.withEngine hi ⟨hseats.region, hseats.global, hseats.root, hseats.methods,
      hseats.evalFunction, htable⟩ ⟨rfl, .rfl⟩ (.refl _) (fun f => hA.parked hi)
      (fun _ => rfl) fun _ => rfl) hf

/-- **All deeds.** -/
theorem past {ds : List Deed} (h : s.Orderly) (hds : s.PermitsAll ds) :
    (s.past ds).Orderly ∧ s.heap.KeepsProtos (s.past ds).heap := by
  induction ds generalizing s with
  | nil => exact ⟨h, .refl _⟩
  | cons d ds ih =>
    obtain ⟨hnext, hkeeps⟩ := h.does hds.1
    obtain ⟨hend, hkeeps'⟩ := ih hnext hds.2
    exact ⟨hend, hkeeps.trans hkeeps'⟩

end Orderly

theorem past_append (s : Session) (before after : List Deed) :
    s.past (before ++ after) = (s.past before).past after := by
  induction before generalizing s with
  | nil => rfl
  | cons d before ih => exact ih _

theorem PermitsAll.split {before after : List Deed} (h : s.PermitsAll (before ++ after)) :
    s.PermitsAll before ∧ (s.past before).PermitsAll after := by
  induction before generalizing s with
  | nil => exact ⟨trivial, h⟩
  | cons d before ih =>
    obtain ⟨hbefore, hafter⟩ := ih h.2
    exact ⟨⟨h.1, hbefore⟩, hafter⟩

/-- The prototype chains after these deeds, and in the course of one more turn. -/
structure ChainsFinite (base : Session) (ds : List Deed) : Prop where
  /-- An object keeps the prototype with which it was made. -/
  fixed : ∀ before after, ds = before ++ after →
    (base.past before).heap.KeepsProtos (base.past ds).heap
  /-- Walks from every object end, and find what stands nearest. -/
  lineal : ∀ id, (base.past ds).heap.contains (.object id) = true →
    ∃ ids, (base.past ds).heap.Lineal id ids
  fixed_during : ∀ turn, (base.past ds).Permits (.turn turn) → ∀ m c, (base.past ds).During turn m c →
    (base.past ds).heap.KeepsProtos c.heap
  lineal_during : ∀ turn, (base.past ds).Permits (.turn turn) → ∀ m c, (base.past ds).During turn m c →
    ∀ id, c.heap.contains (.object id) = true → ∃ ids, c.heap.Lineal id ids

/-- **Prototype chains are finite.** If every object of the host has a lineage, then every object has one
on every heap that the session comes by, whatever its guests do. -/
theorem chains_finite {base : Session} (hnone : base.stations = #[])
    (hclosed : Zone.whole.Closed base.heap) (hfounded : base.heap.Founded) {ds : List Deed}
    (hds : base.PermitsAll ds) : base.ChainsFinite ds := by
  have hstart := Orderly.start hnone hclosed hfounded
  obtain ⟨⟨hA, hf⟩, -⟩ := hstart.past hds
  refine ⟨fun before after heq => ?_, fun id hid => hf.lineal hid, fun turn hturn m c hd => ?_,
    fun turn hturn m c hd id hid => ?_⟩
  · subst heq
    obtain ⟨hbefore, hafter⟩ := hds.split
    rw [past_append]
    exact ((hstart.past hbefore).1.past hafter).2
  · exact (hA.during hturn.admits hd).rel.ties.leaves.keepsProtos
  · exact (hA.founded_during hturn.admits hf hd).lineal hid

/-- A constructor that makes what its instances inherit from, on an engine with an object of the host. -/
theorem chains_finite_constructor :
    let base : Session := {}
    let ds : List Deed := [.object (.empty none), .engine none {} (some ⟨hostRegion, 0⟩) [],
      .turn (.run 0 "function F() \x7b\x7d F.prototype = new F(); F.prototype = new F();")]
    base.stations = #[] ∧ Zone.whole.Closed base.heap ∧ base.heap.Founded ∧ base.PermitsAll ds ∧
      base.ChainsFinite ds := by
  intro base ds
  have hfounded : base.heap.Founded := fun id hid => by cases hid
  have hds : base.PermitsAll ds := by
    refine ⟨⟨nofun, List.forall_mem_nil _⟩, ⟨nofun, fun x hx => ?_⟩,
      ⟨fun i hi => ?_, List.forall_mem_nil _⟩, trivial⟩
    · obtain rfl := List.mem_singleton.mp hx
      rfl
    · cases hi
      exact Nat.lt_of_lt_of_eq (Nat.succ_pos _) Session.size_addEngine.symm
  exact ⟨rfl, Zone.whole_closed, hfounded, hds, chains_finite rfl Zone.whole_closed hfounded hds⟩

end Session

end Fermata
