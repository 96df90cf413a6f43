import Fermata.Proofs.Zone.During
import Fermata.Proofs.Zone.Found

/-!
# What values give access to

Whoever holds an object gets at the values of its properties, of those too that it inherits, but not at the
objects that it inherits them from. So one can hold an object and not get at its prototype
(`Heap.Offers`, `Heap.Withholds`).

A zone may be widened by what somebody hands over, with all that this gives access to (`Zone.widen`). What
one cannot get at stays outside (`Zone.Alike.widen`).

* `Heap.Inherits`: an object and what is behind it.
* `Heap.Offers`: what somebody gets at.
* `Zone.Sole`: a zone with everything new in it, from which everything is seen.
-/

namespace Fermata

/-- The values of all properties, hidden ones included. -/
def Object.contents (o : Object) : List Value := o.elements.toList ++ o.properties.map (·.value)

theorem Object.stores_iff {P : Cell → Prop} {o : Object} :
    o.Stores P ↔ ∀ x ∈ Cell.ofValues o.contents, P x := by
  rw [Cell.forall_ofValues]
  unfold contents
  simp only [List.forall_mem_append, List.forall_mem_map, Array.mem_toList_iff]
  exact ⟨fun h => ⟨h.elements, h.properties⟩, fun h => ⟨h.1, h.2⟩⟩

namespace Heap

/-- The object, and what it inherits from. -/
inductive Inherits (h : Heap) (id : ObjectId) : ObjectId → Prop
  | refl : Inherits h id id
  | proto {q p} : Inherits h id q → (h.objects.get q).proto = some p → Inherits h id p

/-- The cell is in a property of the object, own or inherited. -/
def Exposes (h : Heap) (id : ObjectId) (x : Cell) : Prop :=
  ∃ q, h.Inherits id q ∧ x ∈ Cell.ofValues (h.objects.get q).contents

/-- What somebody gets at who starts with the cells of `R`. A function leads to no scope: those that an
engine can run in are its own. -/
inductive Offers (h : Heap) (R : Cell → Prop) : Cell → Prop
  | root {x} : R x → Offers h R x
  | property {id x} : Offers h R (.object id) → h.Exposes id x → Offers h R x
  | behind {x y} : Offers h R x → (∀ id, x ≠ .object id) → y ∈ h.heldBy {} x → Offers h R y

/-- Nobody who starts with the cells of `R` gets at the object, and nothing that one gets at is missing. -/
structure Withholds (h : Heap) (R : Cell → Prop) (p : ObjectId) : Prop where
  never : ¬h.Offers R (.object p)
  present : ∀ x, h.Offers R x → h.contains x = true

/-- Where there is no object, there is no property and no prototype. -/
theorem get_of_missing {h : Heap} {id : ObjectId} (hid : h.contains (.object id) = false) : h.objects.get id = default := by
  rw [Store.get, Option.isNone_iff_eq_none.mp (Option.isSome_eq_false_iff.mp hid)]
  rfl

end Heap

namespace Zone

variable {Y Z : Zone} {mine : Nat → Prop} {s : Session} {h : Heap} {R : Cell → Prop} {p : ObjectId}

/-! ## Closed zones -/

/-- A zone is closed if what it holds is in it, object by object and cell by cell. -/
theorem Closed.of_heldBy (hobject : ∀ {id}, Z.shown id → (h.objects.get id).Stores (Z.Has h))
    (hproto : ∀ {id p}, Z.shown id → (h.objects.get id).proto = some p → Z.shown p)
    (hheld : ∀ {x}, (∀ id, x ≠ .object id) → Z.Has h x → ∀ y ∈ h.heldBy {} x, Z.Has h y)
    (hregion : ∀ {id : ScopeId}, Z.Has h (.scope id) → Z.own id.region) : Z.Closed h where
  object := hobject
  proto := hproto
  closure hid := hheld (by rintro _ ⟨⟩) hid _ List.mem_cons_self
  native hid := hheld (by rintro _ ⟨⟩) hid _ List.mem_cons_self
  scope hid := Scope.within_iff.mpr (hheld (by rintro _ ⟨⟩) hid)
  pending hid := Cell.forall_ofValues.mp (hheld (by rintro _ ⟨⟩) hid)
  region := hregion

/-- What a cell of a closed zone leads to, objects apart, is in the zone. -/
theorem Closed.has_heldBy (hc : Z.Closed h) {x y : Cell} (hplain : ∀ id, x ≠ .object id)
    (hx : Z.Has h x) (hy : y ∈ h.heldBy {} x) : Z.Has h y := by
  cases x with
  | object id => exact absurd rfl (hplain id)
  | closure id =>
    have hnone : ({} : Links).definingScope? h id = none := by
      unfold Links.definingScope?
      rw [Links.getElem?_empty]
    unfold Heap.heldBy at hy
    dsimp only at hy
    rw [hnone] at hy
    exact List.mem_singleton.mp hy ▸ hc.closure hx
  | native id => exact List.mem_singleton.mp hy ▸ hc.native hx
  | scope id => exact Scope.within_iff.mp (hc.scope hx) y hy
  | pending id => exact Cell.forall_ofValues.mpr (hc.pending hx) y hy

/-! ## Zones that are alone -/

/-- Everything is seen from the zone, and everything new belongs to it. -/
structure Sole (Z : Zone) : Prop where
  own : ∀ r, Z.own r
  seen : ∀ x, Z.seen x

theorem Ties.cells_of_missing {h₀ k₀ k : Heap} (ht : Z.Ties h₀ k₀ h k) (hZ : Z.Sole) {x : Cell}
    (hx : h.contains x = false) : Z.cells x := by
  have hnone : ∀ {α : Type} {o : Option α}, o.isSome = false → o = none := fun ho =>
    Option.isNone_iff_eq_none.mp (Option.isSome_eq_false_iff.mp ho)
  cases x with
  | object id => exact ht.objects.fresh id (hZ.own _) (hnone hx)
  | closure id => exact ht.closures.fresh id (hZ.own _) (hnone hx)
  | native id => exact ht.natives.fresh id (hZ.own _) (hnone hx)
  | scope id => exact ht.scopes.fresh id (hZ.own _) (hnone hx)
  | pending id => exact ht.pendings.fresh id (hZ.own _) (hnone hx)

/-- A heap is tied to itself by a closed zone with everything new in it. -/
theorem Closed.ties (hc : Z.Closed h) (hnew : ∀ x, h.contains x = false → Z.cells x) :
    Z.Ties h h h h := by
  have htied : ∀ {k : Kind} {α : Type} (s : Store k α) (C : Addr k → Cell)
      (hs : ∀ a, h.contains (C a) = (s.get? a).isSome),
      s.Tied (Z.cells ∘ C) (Z.seen ∘ C) Z.own s s s := by
    intro k α s C hs
    have hfresh : ∀ a, Z.own a.region → s.get? a = none → Z.cells (C a) := fun a _ hn =>
      hnew _ (by rw [hs, hn]; rfl)
    exact ⟨fun _ => Z.seen_of_cells, fun _ _ => rfl, fun _ _ => rfl, fun _ _ => rfl, hfresh, hfresh,
      fun _ ha => ha, fun _ ha => ha⟩
  exact ⟨htied _ .object fun _ => rfl, htied _ .closure fun _ => rfl, htied _ .native fun _ => rfl,
    htied _ .scope fun _ => rfl, htied _ .pending fun _ => rfl, .regions (fun _ => .rfl) fun _ => .inr, rfl,
    hc, .refl h, .refl h⟩

/-! ## Wider zones -/

/-- The zone with what somebody gets at who starts with the cells of `R`. -/
def widen (Z : Zone) (h : Heap) (R : Cell → Prop) : Zone where
  cells x := Z.cells x ∨ h.Offers R x
  shown id := Z.shown id ∨ ∃ q, h.Offers R (.object q) ∧ h.Inherits q id
  seen _ := True
  own := Z.own
  shown_of_cells {id} hid := hid.imp Z.shown_of_cells fun hq => ⟨id, hq, .refl⟩
  seen_of_cells _ := trivial
  seen_of_shown _ := trivial

theorem Sole.widen (hZ : Z.Sole) (h : Heap) (R : Cell → Prop) : (Z.widen h R).Sole :=
  ⟨hZ.own, fun _ => trivial⟩

/-- What is handed over exists in the wider zone. -/
theorem has_widen (hpresent : ∀ x, h.Offers R x → h.contains x = true) {x : Cell} (hx : h.Offers R x) :
    (Z.widen h R).Has h x := ⟨.inr hx, hpresent x hx⟩

/-- The wider zone is closed, if that is so for the part that was there. -/
theorem closed_widen (hZ : Z.Sole) (hpresent : ∀ x, h.Offers R x → h.contains x = true)
    (hobject : ∀ {id}, Z.shown id → (h.objects.get id).Stores ((Z.widen h R).Has h))
    (hproto : ∀ {id p}, Z.shown id → (h.objects.get id).proto = some p → Z.shown p)
    (hheld : ∀ {x}, (∀ id, x ≠ .object id) → Z.Has h x → ∀ y ∈ h.heldBy {} x,
      (Z.widen h R).Has h y) : (Z.widen h R).Closed h := by
  refine .of_heldBy ?_ ?_ (fun {x} hplain hx y hy => ?_) fun _ => hZ.own _
  · rintro id (hid | ⟨q, hq, hid⟩)
    · exact hobject hid
    · exact Object.stores_iff.mpr fun x hx => has_widen hpresent (.property hq ⟨id, hid, hx⟩)
  · rintro id p (hid | ⟨q, hq, hid⟩) hp
    · exact .inl (hproto hid hp)
    · exact .inr ⟨q, hq, .proto hid hp⟩
  · rcases hx.1 with hcells | hoffers
    · exact hheld hplain ⟨hcells, hx.2⟩ y hy
    · exact has_widen hpresent (.behind hoffers hplain hy)

/-- Engines that work in a zone work in a wider one. -/
theorem Alike.into (hA : Z.Alike mine s s) (hcells : ∀ x, Z.cells x → Y.cells x)
    (hshown : ∀ id, Z.shown id → Y.shown id) (hown : ∀ r, Z.own r → Y.own r)
    (hties : Y.Ties s.heap s.heap s.heap s.heap) : Y.Alike mine s s := by
  have hhas : ∀ {x}, Z.Has s.heap x → Y.Has s.heap x := fun hx => ⟨hcells _ hx.1, hx.2⟩
  have hwidens : (Z.sight s.heap).Widens (Y.sight s.heap) :=
    ⟨fun _ => hhas, fun _ => hhas, fun _ => hhas, fun _ => hhas, hshown⟩
  exact
    { hA with
      ties := hties
      seats := fun hj =>
        have hs := hA.seats hj
        ⟨hown _ hs.region, hhas hs.global, hhas hs.root, hhas hs.methods, hhas hs.evalFunction,
          fun ha => ⟨hhas (hs.table ha).1, hcells _ (hs.table ha).2⟩⟩
      parked := fun hj hf =>
        have hp := hA.parked hj hf
        ⟨hp.safe.widen hwidens, hhas hp.pending, fun τ hτ => (hp.taken τ hτ).mono fun _ => hhas,
          fun x hx => hcells x (hp.held x hx)⟩ }

/-- **Something is handed over** to engines that work in a zone. -/
theorem Alike.widen (hA : Z.Alike mine s s) (hZ : Z.Sole)
    (hpresent : ∀ x, s.heap.Offers R x → s.heap.contains x = true) :
    (Z.widen s.heap R).Alike mine s s := by
  have hwiden : ∀ {x}, Z.Has s.heap x → (Z.widen s.heap R).Has s.heap x := fun hx => ⟨.inl hx.1, hx.2⟩
  have hclosed : (Z.widen s.heap R).Closed s.heap :=
    closed_widen hZ hpresent (fun hid => (hA.ties.closed.object hid).mono fun _ => hwiden)
      (fun hid => hA.ties.closed.proto hid) fun hplain hx _ hy => hwiden (hA.ties.closed.has_heldBy hplain hx hy)
  exact hA.into (fun _ => .inl) (fun _ => .inl) (fun _ hr => hr)
    (hclosed.ties fun _ hx => .inl (hA.ties.cells_of_missing hZ hx))

/-! ## The zone behind an object -/

/-- What does not exist yet, and what is looked into behind an object. -/
def unborn (h : Heap) (p : ObjectId) : Zone where
  cells x := h.contains x = false
  shown id := h.contains (.object id) = false ∨ h.Inherits p id
  seen _ := True
  own _ := True
  shown_of_cells := .inl
  seen_of_cells _ := trivial
  seen_of_shown _ := trivial

theorem sole_unborn (h : Heap) (p : ObjectId) : (unborn h p).Sole :=
  ⟨fun _ => trivial, fun _ => trivial⟩

/-- **A zone around what an object exposes.** -/
theorem ties_unborn (hexposes : ∀ x, h.Exposes p x → R x)
    (hpresent : ∀ x, h.Offers R x → h.contains x = true) :
    ((unborn h p).widen h R).Ties h h h h := by
  have hnever : ∀ {x}, ¬(unborn h p).Has h x := fun hx => by
    have hmissing : h.contains _ = false := hx.1
    rw [hx.2] at hmissing
    cases hmissing
  refine (closed_widen (sole_unborn h p) hpresent ?_ ?_ fun _ hx => absurd hx hnever).ties
    fun _ hx => .inl hx
  · rintro id (hid | hid)
    · rw [Heap.get_of_missing hid]
      exact ⟨fun _ hv => absurd hv (Array.not_mem_empty _), List.forall_mem_nil _⟩
    · exact Object.stores_iff.mpr fun x hx => has_widen hpresent (.root (hexposes x ⟨id, hid, hx⟩))
  · rintro id q (hid | hid) hq
    · rw [Heap.get_of_missing hid] at hq
      cases hq
    · exact .inr (.proto hid hq)

end Zone

end Fermata
