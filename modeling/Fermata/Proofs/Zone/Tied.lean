import Fermata.Proofs.Prune.Living
import Fermata.Proofs.Realm.Sight

/-!
# Zones of a heap

A `Zone` is a part of the heap that leads nowhere else. Whoever works in a zone holds cells of the zone,
makes cells in regions where everything new belongs to the zone, and changes nothing outside. Two heaps are
tied by a zone (`Zone.Ties`) if they have the same in it, each leaves what lies outside as it was at a
start, and the zone is closed.

* `Store.Tied`: two stores with the same in a zone give out the same addresses there (`Tied.next`).
* `Zone.Closed`: what exists in the zone holds only what exists in the zone.
* `Zone.Ties.pushObject`, `Zone.Ties.editObject` and so on: every change inside keeps two heaps tied.
-/

namespace Fermata

/-! ## Stores -/

namespace Store

variable {k : Kind} {α : Type} {s t s₀ t₀ : Store k α} {P Q : Addr k → Prop} {own : Nat → Prop}

/-- There is a value at an address exactly if its index was given out. -/
theorem isSome_get? (s : Store k α) (a : Addr k) :
    (s.get? a).isSome ↔ a.index < (s.next a.region).index := by
  rw [get?_eq, next_eq]
  cases s.regions[a.region]? with
  | none => simp
  | some r => simp

/-- A region in which the same addresses are taken gives out the same address next. -/
theorem next_congr {r : Nat} (h : ∀ a : Addr k, a.region = r → ((s.get? a).isSome ↔ (t.get? a).isSome)) :
    s.next r = t.next r := by
  have hlt : ∀ i, i < (s.next r).index ↔ i < (t.next r).index := fun i => by
    have hi := h ⟨r, i⟩ rfl
    rwa [isSome_get?, isSome_get?] at hi
  have hindex : (s.next r).index = (t.next r).index :=
    Nat.le_antisymm (Nat.le_of_not_lt fun hn => Nat.lt_irrefl _ ((hlt _).mp hn))
      (Nat.le_of_not_lt fun hn => Nat.lt_irrefl _ ((hlt _).mpr hn))
  rw [next_eq, next_eq] at hindex ⊢
  exact congrArg (Addr.mk r) hindex

theorem region_next (s : Store k α) (r : Nat) : (s.next r).region = r := by
  rw [next_eq]

/-- What is there after something was put elsewhere was there before. -/
theorem isSome_of_push {r : Nat} {x : α} {a : Addr k} (ha : a ≠ s.next r)
    (h : ((s.push r x).get? a).isSome) : (s.get? a).isSome := by
  rwa [get?_push, if_neg ha] at h

theorem isSome_of_modify {f : α → α} {a b : Addr k} (h : ((s.modify b f).get? a).isSome) :
    (s.get? a).isSome := by
  rw [get?_modify] at h
  split at h
  · rwa [Option.isSome_map] at h
  · exact h

theorem isSome_next_push (s : Store k α) (r : Nat) (x : α) : ((s.push r x).get? (s.next r)).isSome := by
  rw [get?_push, if_pos rfl, Option.isSome_some]

/-- Stores that have the same at the addresses of `Q`. Outside of `P` each is as it was at its start, and
what is new in one of the regions `own` is of `P`. -/
structure Tied (P Q : Addr k → Prop) (own : Nat → Prop) (s₀ t₀ s t : Store k α) : Prop where
  sub : ∀ a, P a → Q a
  same : ∀ a, Q a → s.get? a = t.get? a
  frozen : ∀ a, ¬P a → s.get? a = s₀.get? a
  frozen' : ∀ a, ¬P a → t.get? a = t₀.get? a
  fresh : ∀ a, own a.region → s.get? a = none → P a
  fresh' : ∀ a, own a.region → t.get? a = none → P a
  grown : ∀ a, (s₀.get? a).isSome → (s.get? a).isSome
  grown' : ∀ a, (t₀.get? a).isSome → (t.get? a).isSome

namespace Tied

/-- Both stores give out the same address. -/
theorem next (h : Tied P Q own s₀ t₀ s t) {r : Nat} (hr : own r) : s.next r = t.next r := by
  refine next_congr fun a ha => ?_
  by_cases hP : P a
  · rw [h.same a (h.sub a hP)]
  · have hs : s.get? a ≠ none := fun hn => hP (h.fresh a (ha ▸ hr) hn)
    have ht : t.get? a ≠ none := fun hn => hP (h.fresh' a (ha ▸ hr) hn)
    simp only [Option.isSome_iff_ne_none, hs, ht, ne_eq, not_false_eq_true]

theorem fresh_next (h : Tied P Q own s₀ t₀ s t) {r : Nat} (hr : own r) : P (s.next r) :=
  h.fresh _ (by rwa [region_next]) (get?_next s r)

/-- Everything in the regions is tied to itself. -/
theorem regions (hown : ∀ a, P a ↔ own a.region) (hsub : ∀ a, P a → Q a) : Tied P Q own s s s s where
  sub := hsub
  same _ _ := rfl
  frozen _ _ := rfl
  frozen' _ _ := rfl
  fresh a ha _ := (hown a).mpr ha
  fresh' a ha _ := (hown a).mpr ha
  grown _ ha := ha
  grown' _ ha := ha

/-- What is new in one of the regions is the same in both stores. -/
theorem push (h : Tied P Q own s₀ t₀ s t) {r : Nat} (hr : own r) (x : α) :
    Tied P Q own s₀ t₀ (s.push r x) (t.push r x) := by
  have hold : ∀ a, ¬P a → a ≠ s.next r := fun a ha heq => ha (heq ▸ h.fresh_next hr)
  have hnone : ∀ (u : Store k α) (a : Addr k), (u.push r x).get? a = none → u.get? a = none := by
    intro u a hn
    rw [get?_push] at hn
    split at hn
    · cases hn
    · exact hn
  refine ⟨h.sub, fun a ha => ?_, fun a ha => ?_, fun a ha => ?_, fun a ha hn => ?_, fun a ha hn => ?_,
    fun a ha => isSome_push r (h.grown a ha), fun a ha => isSome_push r (h.grown' a ha)⟩
  · rw [get?_push, get?_push, ← h.next hr, h.same a ha]
  · rw [get?_push, if_neg (hold a ha), h.frozen a ha]
  · rw [get?_push, ← h.next hr, if_neg (hold a ha), h.frozen' a ha]
  · exact h.fresh a ha (hnone s a hn)
  · exact h.fresh' a ha (hnone t a hn)

/-- What is changed at an address of `P` is changed in both stores. -/
theorem modify (h : Tied P Q own s₀ t₀ s t) {a : Addr k} (ha : P a) (f : α → α) :
    Tied P Q own s₀ t₀ (s.modify a f) (t.modify a f) := by
  have hnone : ∀ (u : Store k α) (b : Addr k), (u.modify a f).get? b = none → u.get? b = none := by
    intro u b hn
    rw [get?_modify] at hn
    split at hn
    · exact Option.map_eq_none_iff.mp hn
    · exact hn
  have hother : ∀ b, ¬P b → b ≠ a := fun b hb heq => hb (heq ▸ ha)
  refine ⟨h.sub, fun b hb => ?_, fun b hb => ?_, fun b hb => ?_, fun b hb hn => ?_, fun b hb hn => ?_,
    fun b hb => isSome_modify a (h.grown b hb), fun b hb => isSome_modify a (h.grown' b hb)⟩
  · rw [get?_modify, get?_modify, h.same b hb]
  · rw [get?_modify, if_neg (hother b hb), h.frozen b hb]
  · rw [get?_modify, if_neg (hother b hb), h.frozen' b hb]
  · exact h.fresh b hb (hnone s b hn)
  · exact h.fresh' b hb (hnone t b hn)

end Tied

/-- Where `H'` holds, the second store has what the first one had where `H` held, or something that fits. -/
def Refits [Inhabited α] (H H' : Addr k → Prop) (F : Addr k → α → Prop) (s t : Store k α) : Prop :=
  ∀ a, H' a → H a ∧ t.get a = s.get a ∨ F a (t.get a)

namespace Refits

variable [Inhabited α] {H H' : Addr k → Prop} {F : Addr k → α → Prop}

theorem refl (h : ∀ a, H' a → H a) : Refits H H' F s s := fun a ha => .inl ⟨h a ha, rfl⟩

theorem push {r : Nat} {x : α} (h : ∀ a, a ≠ s.next r → H' a → H a) (hx : F (s.next r) x) :
    Refits H H' F s (s.push r x) := by
  intro a ha
  by_cases hnew : a = s.next r
  · subst hnew
    right
    rwa [get, get?_push, if_pos rfl, Option.getD_some]
  · exact .inl ⟨h a hnew ha, by rw [get, get?_push, if_neg hnew, get]⟩

theorem modify {b : Addr k} {f : α → α} (h : ∀ a, H' a → H a) (hf : H b → F b (f (s.get b))) :
    Refits H H' F s (s.modify b f) := by
  intro a ha
  by_cases hb : a = b
  · subst hb
    cases hs : s.get? a with
    | none => exact .inl ⟨h a ha, by rw [get, get?_modify, if_pos rfl, get, hs]; rfl⟩
    | some x =>
      right
      have hget : (s.modify a f).get a = f (s.get a) := by
        rw [get, get?_modify, if_pos rfl, get, hs]
        rfl
      rw [hget]
      exact hf (h a ha)
  · exact .inl ⟨h a ha, by rw [get, get?_modify, if_neg hb, get]⟩

end Refits

end Store

/-! ## Zones -/

/-- A part of a heap. -/
structure Zone where
  /-- The cells, those included that do not exist yet. -/
  cells : Cell → Prop
  /-- The objects in which properties are looked up: those of the zone, and what they inherit from. -/
  shown : ObjectId → Prop
  /-- The cells that are to be the same on two heaps. -/
  seen : Cell → Prop
  /-- The regions where everything new belongs to the zone. -/
  own : Nat → Prop
  shown_of_cells {id} : cells (.object id) → shown id
  seen_of_cells {x} : cells x → seen x
  seen_of_shown {id} : shown id → seen (.object id)

namespace Zone

variable {Z : Zone} {h k h₀ k₀ : Heap}

/-- The cell exists in the zone. -/
def Has (Z : Zone) (h : Heap) (x : Cell) : Prop := Z.cells x ∧ h.contains x = true

/-- What exists in the zone holds only what exists in the zone, and inherits only from what is shown. -/
structure Closed (Z : Zone) (h : Heap) : Prop where
  object {id} : Z.shown id → (h.objects.get id).Stores (Z.Has h)
  proto {id p} : Z.shown id → (h.objects.get id).proto = some p → Z.shown p
  closure {id} : Z.Has h (.closure id) → Z.Has h (.object (h.closures.get id).object)
  native {id} : Z.Has h (.native id) → Z.Has h (.object (h.natives.get id).object)
  scope {id} : Z.Has h (.scope id) → (h.scopes.get id).Within (Z.Has h)
  pending {id} : Z.Has h (.pending id) → ∀ v ∈ (h.pendings.get id).held, v.Within (Z.Has h)
  /-- A scope lies where a new scope below it belongs to the zone. -/
  region {id} : Z.Has h (.scope id) → Z.own id.region

/-- Everything that exists still does. -/
def Lasts (h k : Heap) : Prop := ∀ x, h.contains x = true → k.contains x = true

theorem Has.mono {x : Cell} (hx : Z.Has h x) (hk : Lasts h k) : Z.Has k x := ⟨hx.1, hk x hx.2⟩

theorem Lasts.within {v : Value} (hk : Lasts h k) (hv : v.Within (Z.Has h)) : v.Within (Z.Has k) :=
  hv.mono fun _ hx => hx.mono hk

theorem lasts_objects {S : Store .object Object}
    (hS : ∀ id, (h.objects.get? id).isSome → (S.get? id).isSome) :
    Lasts h { h with objects := S } := by
  intro x hx
  cases x with
  | object id => exact hS id hx
  | _ => exact hx

theorem lasts_closures {S : Store .closure Closure}
    (hS : ∀ id, (h.closures.get? id).isSome → (S.get? id).isSome) :
    Lasts h { h with closures := S } := by
  intro x hx
  cases x with
  | closure id => exact hS id hx
  | _ => exact hx

theorem lasts_natives {S : Store .native Native}
    (hS : ∀ id, (h.natives.get? id).isSome → (S.get? id).isSome) :
    Lasts h { h with natives := S } := by
  intro x hx
  cases x with
  | native id => exact hS id hx
  | _ => exact hx

theorem lasts_scopes {S : Store .scope Scope}
    (hS : ∀ id, (h.scopes.get? id).isSome → (S.get? id).isSome) :
    Lasts h { h with scopes := S } := by
  intro x hx
  cases x with
  | scope id => exact hS id hx
  | _ => exact hx

theorem lasts_pendings {S : Store .pending Pending}
    (hS : ∀ id, (h.pendings.get? id).isSome → (S.get? id).isSome) :
    Lasts h { h with pendings := S } := by
  intro x hx
  cases x with
  | pending id => exact hS id hx
  | _ => exact hx

/-- Every object that exists on the first heap has its prototype still on the second one. -/
def Kin (h k : Heap) : Prop :=
  ∀ id, (h.objects.get? id).isSome → (k.objects.get id).proto = (h.objects.get id).proto

namespace Kin

theorem refl (h : Heap) : Kin h h := fun _ _ => rfl

theorem trans {l : Heap} (hk : Kin h k) (hlasts : Lasts h k) (hl : Kin k l) : Kin h l := fun id hid =>
  (hl id (hlasts (.object id) hid)).trans (hk id hid)

theorem push (hk : Kin h₀ h) (hgrown : ∀ id, (h₀.objects.get? id).isSome → (h.objects.get? id).isSome)
    (r : Nat) (o : Object) : Kin h₀ { h with objects := h.objects.push r o } := by
  intro id hid
  have hold : id ≠ h.objects.next r := by
    rintro rfl
    have hin := hgrown _ hid
    rw [Store.get?_next] at hin
    cases hin
  refine Eq.trans (congrArg Object.proto ?_) (hk id hid)
  rw [Store.get, Store.get?_push, if_neg hold, Store.get]

theorem modify (hk : Kin h₀ h) (id : ObjectId) {f : Object → Object}
    (hf : ∀ o : Object, (f o).proto = o.proto) :
    Kin h₀ { h with objects := h.objects.modify id f } := by
  intro q hq
  refine Eq.trans ?_ (hk q hq)
  change ((h.objects.modify id f).get q).proto = _
  rw [Store.get, Store.get?_modify, Store.get]
  split
  · cases h.objects.get? q with
    | none => rfl
    | some o => exact hf o
  · rfl

end Kin

/-- What the zone is to hold, if what is new and what was changed fits in. -/
theorem Closed.of (hc : Z.Closed h) (hlasts : Lasts h k)
    (hobjects : h.objects.Refits Z.shown Z.shown
      (fun _ o => o.Stores (Z.Has k) ∧ ∀ p, o.proto = some p → Z.shown p) k.objects)
    (hclosures : h.closures.Refits (Z.Has h ∘ .closure) (Z.Has k ∘ .closure)
      (fun _ f => Z.Has k (.object f.object)) k.closures)
    (hnatives : h.natives.Refits (Z.Has h ∘ .native) (Z.Has k ∘ .native)
      (fun _ n => Z.Has k (.object n.object)) k.natives)
    (hscopes : h.scopes.Refits (Z.Has h ∘ .scope) (Z.Has k ∘ .scope)
      (fun id s => s.Within (Z.Has k) ∧ Z.own id.region) k.scopes)
    (hpendings : h.pendings.Refits (Z.Has h ∘ .pending) (Z.Has k ∘ .pending)
      (fun _ q => ∀ v ∈ q.held, v.Within (Z.Has k)) k.pendings) : Z.Closed k where
  object {id} hid := by
    rcases hobjects id hid with ⟨-, heq⟩ | hfits
    · exact heq ▸ (hc.object hid).mono fun _ hx => hx.mono hlasts
    · exact hfits.1
  proto {id p} hid hp := by
    rcases hobjects id hid with ⟨-, heq⟩ | hfits
    · exact hc.proto hid (heq ▸ hp)
    · exact hfits.2 p hp
  closure {id} hid := by
    rcases hclosures id hid with ⟨hold, heq⟩ | hfits
    · exact heq ▸ (hc.closure hold).mono hlasts
    · exact hfits
  native {id} hid := by
    rcases hnatives id hid with ⟨hold, heq⟩ | hfits
    · exact heq ▸ (hc.native hold).mono hlasts
    · exact hfits
  scope {id} hid := by
    rcases hscopes id hid with ⟨hold, heq⟩ | hfits
    · obtain ⟨hparent, hheld⟩ := hc.scope hold
      rw [heq]
      exact ⟨fun p hp => (hparent p hp).mono hlasts, fun v hv => hlasts.within (hheld v hv)⟩
    · exact hfits.1
  pending {id} hid := by
    rcases hpendings id hid with ⟨hold, heq⟩ | hfits
    · rw [heq]
      exact fun v hv => hlasts.within (hc.pending hold v hv)
    · exact hfits
  region {id} hid := by
    rcases hscopes id hid with ⟨hold, -⟩ | hfits
    · exact hc.region hold
    · exact hfits.2

/-! ## Tied heaps -/

/-- The heaps have the same in sight of the zone, which is closed, and each is outside of the zone as it
was at its start. -/
structure Ties (Z : Zone) (h₀ k₀ h k : Heap) : Prop where
  objects : Store.Tied (Z.cells ∘ .object) (Z.seen ∘ .object) Z.own h₀.objects k₀.objects
    h.objects k.objects
  closures : Store.Tied (Z.cells ∘ .closure) (Z.seen ∘ .closure) Z.own h₀.closures k₀.closures
    h.closures k.closures
  natives : Store.Tied (Z.cells ∘ .native) (Z.seen ∘ .native) Z.own h₀.natives k₀.natives
    h.natives k.natives
  scopes : Store.Tied (Z.cells ∘ .scope) (Z.seen ∘ .scope) Z.own h₀.scopes k₀.scopes
    h.scopes k.scopes
  pendings : Store.Tied (Z.cells ∘ .pending) (Z.seen ∘ .pending) Z.own h₀.pendings k₀.pendings
    h.pendings k.pendings
  /-- What is new is numbered in the regions of the zone alone. -/
  numbers : Store.Tied (fun p => Z.own p.region) (fun p => Z.cells (.pending p) ∨ Z.own p.region) Z.own
    h₀.numbers k₀.numbers h.numbers k.numbers
  process : h.process = k.process
  closed : Z.Closed h
  kin : Kin h₀ h
  kin' : Kin k₀ k

namespace Ties

theorem lasts (h' : Z.Ties h₀ k₀ h k) : Lasts h₀ h := by
  intro x hx
  cases x with
  | object id => exact h'.objects.grown id hx
  | closure id => exact h'.closures.grown id hx
  | native id => exact h'.natives.grown id hx
  | scope id => exact h'.scopes.grown id hx
  | pending id => exact h'.pendings.grown id hx

variable {r : Nat} {o : Object} {v : Value}

/-- A new object. -/
theorem pushObject (ht : Z.Ties h₀ k₀ h k) (hr : Z.own r) (ho : o.Stores (Z.Has h))
    (hp : ∀ p, o.proto = some p → Z.shown p) :
    Z.Ties h₀ k₀ { h with objects := h.objects.push r o } { k with objects := k.objects.push r o } := by
  have hlasts : Lasts h { h with objects := h.objects.push r o } :=
    lasts_objects fun _ => Store.isSome_push r
  refine { ht with
    objects := ht.objects.push hr o
    closed := ht.closed.of hlasts ?_ ?_ ?_ ?_ ?_
    kin := ht.kin.push ht.objects.grown r o
    kin' := ht.kin'.push ht.objects.grown' r o }
  · exact .push (fun _ _ hid => hid) ⟨ho.mono fun _ hx => hx.mono hlasts, hp⟩
  all_goals exact .refl fun _ hx => hx

/-- A change of an object that puts into it only what exists in the zone. -/
theorem editObject (ht : Z.Ties h₀ k₀ h k) {id : ObjectId} (hid : Z.cells (.object id))
    {f : Object → Object} (hf : ∀ o : Object, o.Stores (Z.Has h) → (f o).Stores (Z.Has h))
    (hproto : ∀ o : Object, (f o).proto = o.proto) :
    Z.Ties h₀ k₀ { h with objects := h.objects.modify id f }
      { k with objects := k.objects.modify id f } := by
  have hlasts : Lasts h { h with objects := h.objects.modify id f } :=
    lasts_objects fun _ => Store.isSome_modify id
  refine { ht with
    objects := ht.objects.modify hid f
    closed := ht.closed.of hlasts ?_ ?_ ?_ ?_ ?_
    kin := ht.kin.modify id hproto
    kin' := ht.kin'.modify id hproto }
  · refine .modify (fun _ hid => hid) fun hid => ⟨?_, fun p hp => ?_⟩
    · exact (hf _ (ht.closed.object hid)).mono fun _ hx => hx.mono hlasts
    · exact ht.closed.proto hid ((hproto _).symm.trans hp)
  all_goals exact .refl fun _ hx => hx

/-- A new closure. -/
theorem pushClosure (ht : Z.Ties h₀ k₀ h k) (hr : Z.own r) {f : Closure}
    (hf : Z.Has h (.object f.object)) :
    Z.Ties h₀ k₀ { h with closures := h.closures.push r f }
      { k with closures := k.closures.push r f } := by
  have hlasts : Lasts h { h with closures := h.closures.push r f } :=
    lasts_closures fun _ => Store.isSome_push r
  refine { ht with closures := ht.closures.push hr f, closed := ht.closed.of hlasts ?_ ?_ ?_ ?_ ?_ }
  · exact .refl fun _ hx => hx
  · exact .push (fun id hid hx => ⟨hx.1, Store.isSome_of_push hid hx.2⟩) (hf.mono hlasts)
  all_goals exact .refl fun _ hx => hx

/-- A new native function. -/
theorem pushNative (ht : Z.Ties h₀ k₀ h k) (hr : Z.own r) {n : Native}
    (hn : Z.Has h (.object n.object)) :
    Z.Ties h₀ k₀ { h with natives := h.natives.push r n }
      { k with natives := k.natives.push r n } := by
  have hlasts : Lasts h { h with natives := h.natives.push r n } :=
    lasts_natives fun _ => Store.isSome_push r
  refine { ht with natives := ht.natives.push hr n, closed := ht.closed.of hlasts ?_ ?_ ?_ ?_ ?_ }
  case refine_3 =>
    exact .push (fun id hid hx => ⟨hx.1, Store.isSome_of_push hid hx.2⟩) (hn.mono hlasts)
  all_goals exact .refl fun _ hx => hx

/-- A new scope. -/
theorem pushScope (ht : Z.Ties h₀ k₀ h k) (hr : Z.own r) {s : Scope} (hs : s.Within (Z.Has h)) :
    Z.Ties h₀ k₀ { h with scopes := h.scopes.push r s } { k with scopes := k.scopes.push r s } := by
  have hlasts : Lasts h { h with scopes := h.scopes.push r s } :=
    lasts_scopes fun _ => Store.isSome_push r
  refine { ht with scopes := ht.scopes.push hr s, closed := ht.closed.of hlasts ?_ ?_ ?_ ?_ ?_ }
  case refine_4 =>
    refine .push (fun id hid hx => ⟨hx.1, Store.isSome_of_push hid hx.2⟩) ⟨?_, ?_⟩
    · exact ⟨fun p hp => (hs.1 p hp).mono hlasts, fun v hv => hlasts.within (hs.2 v hv)⟩
    · rwa [Store.region_next]
  all_goals exact .refl fun _ hx => hx

/-- A change of a scope that leaves in it only what exists in the zone. -/
theorem editScope (ht : Z.Ties h₀ k₀ h k) {id : ScopeId} (hid : Z.cells (.scope id))
    {f : Scope → Scope} (hf : ∀ s : Scope, s.Within (Z.Has h) → (f s).Within (Z.Has h)) :
    Z.Ties h₀ k₀ { h with scopes := h.scopes.modify id f }
      { k with scopes := k.scopes.modify id f } := by
  have hlasts : Lasts h { h with scopes := h.scopes.modify id f } :=
    lasts_scopes fun _ => Store.isSome_modify id
  refine { ht with scopes := ht.scopes.modify hid f, closed := ht.closed.of hlasts ?_ ?_ ?_ ?_ ?_ }
  case refine_4 =>
    refine .modify (fun id hx => ⟨hx.1, Store.isSome_of_modify hx.2⟩) fun hid => ⟨?_, ?_⟩
    · obtain ⟨hparent, hheld⟩ := hf _ (ht.closed.scope hid)
      exact ⟨fun p hp => (hparent p hp).mono hlasts, fun v hv => hlasts.within (hheld v hv)⟩
    · exact ht.closed.region hid
  all_goals exact .refl fun _ hx => hx

/-- A new pending value. -/
theorem pushPending (ht : Z.Ties h₀ k₀ h k) (hr : Z.own r) {q : Pending}
    (hq : ∀ v ∈ q.held, v.Within (Z.Has h)) :
    Z.Ties h₀ k₀ (h.newPending r q).2 (k.newPending r q).2 := by
  have hlasts : Lasts h (h.newPending r q).2 := by
    intro x hx
    cases x with
    | pending id => exact Store.isSome_push r hx
    | _ => exact hx
  refine { ht with
    pendings := ht.pendings.push hr q
    numbers := ?_
    process := ?_
    closed := ht.closed.of hlasts ?_ ?_ ?_ ?_ ?_ }
  case refine_7 =>
    exact .push (fun id hid hx => ⟨hx.1, Store.isSome_of_push hid hx.2⟩)
      fun v hv => hlasts.within (hq v hv)
  · change Store.Tied _ _ _ _ _ (h.numbers.push r h.process.next) (k.numbers.push r k.process.next)
    rw [← ht.process]
    exact ht.numbers.push hr _
  · exact congrArg (fun p : Process => { p with next := p.next + 1 }) ht.process
  all_goals exact .refl fun _ hx => hx

/-- A change of a pending value that leaves in it only what exists in the zone. -/
theorem editPending (ht : Z.Ties h₀ k₀ h k) {id : PendingId} (hid : Z.cells (.pending id))
    {f : Pending → Pending} (hf : ∀ q : Pending, (∀ v ∈ q.held, v.Within (Z.Has h)) →
      ∀ v ∈ (f q).held, v.Within (Z.Has h)) :
    Z.Ties h₀ k₀ { h with pendings := h.pendings.modify id f }
      { k with pendings := k.pendings.modify id f } := by
  have hlasts : Lasts h { h with pendings := h.pendings.modify id f } :=
    lasts_pendings fun _ => Store.isSome_modify id
  refine { ht with pendings := ht.pendings.modify hid f, closed := ht.closed.of hlasts ?_ ?_ ?_ ?_ ?_ }
  case refine_5 =>
    refine .modify (fun id hx => ⟨hx.1, Store.isSome_of_modify hx.2⟩) fun hid v hv => ?_
    exact hlasts.within (hf _ (ht.closed.pending hid) v hv)
  all_goals exact .refl fun _ hx => hx

end Ties

end Zone

end Fermata
