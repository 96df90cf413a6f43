import Fermata.Proofs.Zone.Found

/-!
# Two engines that share nothing

A host with some session makes two engines. It gives each of them an object to inherit from, values under
names, and what it has for it later: values to call it with, values in slots, pending values to settle. They
share nothing if nothing of this leads to one and the same cell (`Pair.Apart`). Then each has a zone of its
own: what it was given leads there, and so does its region (`Pair.Apart.zone`).

* `Pair.cells`: what belongs to an engine, now or later.
* `Pair.Apart.alike`: at the start each of the engines works in its zone.
-/

namespace Fermata

/-- The region where the cell was made. -/
def Cell.region : Cell → Nat
  | object id => id.region
  | closure id => id.region
  | native id => id.region
  | scope id => id.region
  | pending id => id.region

/-- Without associations only a scope holds a scope. -/
theorem Heap.eq_scope_of_scope_mem_heldBy {h : Heap} {x : Cell} {id : ScopeId}
    (hid : Cell.scope id ∈ h.heldBy {} x) : ∃ k, x = .scope k := by
  cases x with
  | scope k => exact ⟨k, rfl⟩
  | closure k =>
    have hnone : ({} : Links).definingScope? h k = none := by
      unfold Links.definingScope?
      rw [Links.getElem?_empty]
    unfold heldBy at hid
    dsimp only at hid
    rw [hnone] at hid
    cases List.mem_singleton.mp hid
  | native k => cases List.mem_singleton.mp hid
  | object k => exact absurd hid Cell.scope_notMem_ofValues
  | pending k => exact absurd hid Cell.scope_notMem_ofValues

/-- What a host makes an engine of, and what it has for it. -/
structure Setup where
  name : Option String := none
  settings : Settings := {}
  /-- The object that the global object inherits from. -/
  host : Option ObjectId := none
  defines : List (String × Value) := []
  /-- Values for later: arguments, pending values that the host settles. -/
  values : List Value := []

/-- Two engines that a host makes, one after the other. -/
structure Pair where
  /-- The session before. -/
  base : Session
  setup : Bool → Setup
  /-- The engine that a slot of the host is for, if it is for one of them. -/
  owner : String → Option Bool

/-- One more engine. -/
def Session.found (s : Session) (e : Setup) : Session := s.addEngine e.name e.settings e.host e.defines

namespace Pair

variable {P : Pair} {b c : Bool} {x y : Cell}

/-- The number of an engine. -/
def index (P : Pair) (b : Bool) : Nat := P.base.stations.size + b.toNat

/-- The session with both engines. -/
def start (P : Pair) : Session := (P.base.found (P.setup false)).found (P.setup true)

/-- What the host gives to an engine, or has for it. -/
def hosts (P : Pair) (b : Bool) : List Cell :=
  ((P.setup b).host.map Cell.object).toList ++ Cell.ofValues ((P.setup b).defines.map (·.2)) ++
    Cell.ofValues (P.setup b).values ++
    Cell.ofValues ((P.base.slots.filter fun e => P.owner e.1 == some b).map (·.2))

/-- What that leads to. No engine has linked a closure yet. -/
def Given (P : Pair) (b : Bool) : Cell → Prop := P.base.heap.Reaches {} (P.hosts b)

/-- What belongs to an engine: what it was given, and what is new in its region. -/
def cells (P : Pair) (b : Bool) (x : Cell) : Prop :=
  P.Given b x ∨ P.base.heap.contains x = false ∧ x.region = engineRegion (P.index b)

/-- **The engines share nothing**, and nothing that they were given is missing. -/
structure Apart (P : Pair) : Prop where
  disjoint : ∀ x, P.Given false x → ¬P.Given true x
  present : ∀ b, ∀ x ∈ P.hosts b, P.base.heap.contains x = true
  whole : ∀ b x, P.Given b x → ∀ y ∈ P.base.heap.heldBy {} x, P.base.heap.contains y = true
  /-- The engines are new, so no pending value was made by them before. -/
  outside : ∀ b c p, P.Given b (.pending p) → p.region ≠ engineRegion (P.index c)

/-! ## What belongs to an engine -/

theorem index_ne : P.index b ≠ P.index !b := by
  unfold index
  cases b <;> simp

theorem Given.contains (hx : P.Given b x) : P.base.heap.contains x = true := Heap.Reaches.contains hx

/-- Nothing that was given is a scope. -/
theorem Given.ne_scope {id : ScopeId} (hx : P.Given b x) : x ≠ .scope id := by
  have hroots : ∀ id, Cell.scope id ∉ P.hosts b := by
    intro id
    unfold hosts
    simp [Cell.scope_notMem_ofValues]
  induction hx generalizing id with
  | root hr _ => exact fun heq => hroots id (heq ▸ hr)
  | held _ hy _ ih =>
    rintro rfl
    obtain ⟨k, hk⟩ := Heap.eq_scope_of_scope_mem_heldBy hy
    exact ih hk

theorem cells_disjoint (hP : P.Apart) (hx : P.cells b x) : ¬P.cells (!b) x := by
  rintro (hy | ⟨hnew', hregion'⟩) <;> rcases hx with hx | ⟨hnew, hregion⟩
  · cases b
    · exact hP.disjoint x hx hy
    · exact hP.disjoint x hy hx
  · rw [hy.contains] at hnew
    cases hnew
  · rw [hx.contains] at hnew'
    cases hnew'
  · exact index_ne (Nat.succ.inj (hregion.symm.trans hregion'))

/-- What was given leads only to what was given. -/
theorem Apart.given_of_held (hP : P.Apart) (hx : P.Given b x) {y : Cell}
    (hy : y ∈ P.base.heap.heldBy {} x) : P.Given b y :=
  .held hx hy (hP.whole b x hx y hy)

/-! ## The zones -/

/-- The zone of an engine. The other engine sees nothing of it, and it sees everything but the zone of the
other engine. -/
def Apart.zone (hP : P.Apart) (b : Bool) : Zone where
  cells := P.cells b
  shown id := P.cells b (.object id)
  seen x := ¬P.cells (!b) x
  own r := r = engineRegion (P.index b)
  shown_of_cells := id
  seen_of_cells := cells_disjoint hP
  seen_of_shown := cells_disjoint hP

theorem Apart.beyond (hP : P.Apart) (b : Bool) : (hP.zone !b).Beyond (hP.zone b) where
  cells _ hx := hx
  numbers p := by
    have hne : engineRegion (P.index b) ≠ engineRegion (P.index !b) := fun heq => index_ne (Nat.succ.inj heq)
    rintro ((hp | ⟨-, hp⟩) | hp)
    · exact hP.outside b (!b) p hp
    · exact fun hp' => hne (hp.symm.trans hp')
    · exact fun hp' => hne (hp.symm.trans hp')

theorem Apart.beyond_other (hP : P.Apart) (b : Bool) : (hP.zone b).Beyond (hP.zone !b) := by
  have hbeyond := hP.beyond !b
  rwa [Bool.not_not] at hbeyond

theorem Apart.cells_of_view (hP : P.Apart) (hx : (hP.zone b).View x) : P.cells b x := by
  cases x <;> exact hx

/-- While the zone of the other engine is closed, only what does not belong to it leads to what does not. -/
theorem Apart.behind (hP : P.Apart) {h : Heap} {links : Links} (hc : (hP.zone !b).Closed h)
    (hlinks : ∀ (n : Nat) (a : Association), links[n]? = some a → P.cells b (.closure a.closure)) :
    (hP.zone b).Behind h links :=
  Zone.behind hc (fun _ hx => Zone.view_of_cells (Classical.not_not.mp hx))
    (fun _ hx => Classical.not_not.mpr (hP.cells_of_view hx))
    fun n a ha => cells_disjoint hP (hlinks n a ha)

theorem Given.has (hP : P.Apart) (hx : P.Given b x) : (hP.zone b).Has P.base.heap x :=
  ⟨.inl hx, hx.contains⟩

theorem Apart.given_of_has (hP : P.Apart) (hx : (hP.zone b).Has P.base.heap x) : P.Given b x :=
  hx.1.elim id fun hnew => by
    rw [hx.2] at hnew
    cases hnew.1

/-- Before the engines are made, the zones are closed. -/
theorem Apart.closed (hP : P.Apart) (b : Bool) : (hP.zone b).Closed P.base.heap := by
  have hwithin : ∀ {id}, P.Given b (.object id) →
      (P.base.heap.objects.get id).Within (P.Given b) := fun hid =>
    Object.within_iff.mpr fun y hy => hP.given_of_held hid hy
  have hnew : ∀ {id}, P.base.heap.contains (.object id) = false →
      P.base.heap.objects.get id = default := fun hid => by
    rw [Store.get, Option.isSome_eq_false_iff.mp hid |> Option.isNone_iff_eq_none.mp]
    rfl
  constructor
  case object =>
    rintro id (hid | hid)
    · exact (hwithin hid).stores.mono fun _ hx => hx.has hP
    · rw [hnew hid.1]
      exact ⟨fun _ hv => absurd hv (Array.not_mem_empty _), List.forall_mem_nil _⟩
  case proto =>
    rintro id p (hid | hid) hp
    · exact .inl ((hwithin hid).proto p hp)
    · rw [hnew hid.1] at hp
      cases hp
  case closure =>
    exact fun hid => (hP.given_of_held (hP.given_of_has hid) List.mem_cons_self).has hP
  case native =>
    exact fun hid => (hP.given_of_held (hP.given_of_has hid) (List.mem_singleton_self _)).has hP
  case scope => exact fun hid => absurd rfl (hP.given_of_has hid).ne_scope
  case pending =>
    exact fun hid => Cell.forall_ofValues.mp fun y hy =>
      (hP.given_of_held (hP.given_of_has hid) hy).has hP
  case region => exact fun hid => absurd rfl (hP.given_of_has hid).ne_scope

theorem Apart.ties (hP : P.Apart) (b : Bool) :
    (hP.zone b).Ties P.base.heap P.base.heap P.base.heap P.base.heap := by
  have htied : ∀ {k : Kind} {α : Type} (s : Store k α) (C : Addr k → Cell)
      (hC : ∀ a, (C a).region = a.region) (hs : ∀ a, P.base.heap.contains (C a) = (s.get? a).isSome),
      s.Tied (P.cells b ∘ C) ((hP.zone b).seen ∘ C) (hP.zone b).own s s s := by
    intro k α s C hC hs
    have hfresh : ∀ a, a.region = engineRegion (P.index b) → s.get? a = none → P.cells b (C a) :=
      fun a ha hn => .inr ⟨by rw [hs, hn]; rfl, (hC a).trans ha⟩
    exact ⟨fun _ => cells_disjoint hP, fun _ _ => rfl, fun _ _ => rfl, fun _ _ => rfl, hfresh, hfresh,
      fun _ ha => ha, fun _ ha => ha⟩
  exact ⟨htied _ .object (fun _ => rfl) fun _ => rfl, htied _ .closure (fun _ => rfl) fun _ => rfl,
    htied _ .native (fun _ => rfl) fun _ => rfl, htied _ .scope (fun _ => rfl) fun _ => rfl,
    htied _ .pending (fun _ => rfl) fun _ => rfl, .regions (fun _ => .rfl) fun _ => .inr, rfl, hP.closed b,
    .refl _, .refl _⟩

/-! ## The start -/

/-- The number of an engine that works in the zone. -/
def mine (P : Pair) (b : Bool) (i : Nat) : Prop := i = P.index b

theorem Apart.host_shown (hP : P.Apart) {p : ObjectId} (hp : (P.setup b).host = some p) :
    (hP.zone b).shown p := by
  have hmem : Cell.object p ∈ P.hosts b := by
    unfold hosts
    rw [hp]
    exact List.mem_append_left _ (List.mem_append_left _ (List.mem_append_left _ List.mem_cons_self))
  exact .inl (.root hmem (hP.present b _ hmem))

theorem Apart.defines_within (hP : P.Apart) {d : String × Value} (hd : d ∈ (P.setup b).defines) :
    d.2.Within ((hP.zone b).Has P.base.heap) := by
  intro x hx
  have hmem : x ∈ P.hosts b := by
    unfold hosts
    refine List.mem_append_left _ (List.mem_append_left _ (List.mem_append_right _ ?_))
    exact List.mem_filterMap.mpr ⟨d.2, List.mem_map_of_mem hd, hx⟩
  exact Given.has hP (.root hmem (hP.present b _ hmem))

/-- An engine is founded in its zone. -/
theorem Apart.founded (hP : P.Apart) {s : Session} (hA : (hP.zone b).Alike (fun _ => False) s s)
    (hsize : s.stations.size = P.index b) (hlasts : Zone.Lasts P.base.heap s.heap) :
    (hP.zone b).Alike (P.mine b) (s.found (P.setup b)) (s.found (P.setup b)) ∧
      (hP.zone b).Leaves s.heap (s.found (P.setup b)).heap := by
  have hmine : (fun j => False ∨ j = s.stations.size) = P.mine b :=
    funext fun j => propext (by rw [hsize, false_or, mine])
  rw [← hmine]
  exact hA.founded (congrArg engineRegion hsize) (fun p hp => hP.host_shown hp)
    fun d hd => hlasts.within (hP.defines_within hd)

/-- Both engines are founded, one after the other. -/
theorem Apart.starts (hP : P.Apart) : (hP.zone false).Alike (P.mine false) P.start P.start ∧
    (hP.zone true).Alike (P.mine true) P.start P.start ∧ Zone.Lasts P.base.heap P.start.heap := by
  have hfirst := hP.founded (b := false) (hP.ties false).alike rfl fun _ hx => hx
  have hsecond := hP.founded (b := true) ((hP.ties true).alike.beside hfirst.2 (hP.beyond true))
    Session.size_addEngine hfirst.2.lasts
  exact ⟨hfirst.1.beside hsecond.2 (hP.beyond false), hsecond.1,
    fun x hx => hsecond.2.lasts x (hfirst.2.lasts x hx)⟩

/-- **At the start each of the engines works in its zone.** -/
theorem Apart.alike (hP : P.Apart) (b : Bool) : (hP.zone b).Alike (P.mine b) P.start P.start := by
  cases b with
  | false => exact hP.starts.1
  | true => exact hP.starts.2.1

end Pair

end Fermata
