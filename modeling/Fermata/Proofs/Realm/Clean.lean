import Fermata.Proofs.Prune.Living
import Fermata.Proofs.Realm.Step

/-!
# Where pending values get to

An evaluation that somebody watches meets pending values everywhere and holds none: each of them stops at
the checkpoint. So it puts none into a cell, except those that it copies from a collection as they are
(`Machine.copied`).

* `Core.Holds`, `Core.Adds`: a cell holds a pending value, and which ones come to be in cells.
* `Realm.clean`: cores of an evaluation that holds no pending value, and puts none but certain ones into
  cells that did not hold them at the start.
-/

namespace Fermata

/-- The cell is no pending value. -/
def Cell.IsFinal (x : Cell) : Prop := ∀ p, x ≠ .pending p

/-- The value is no pending value exactly if what it refers to is none. -/
theorem Value.within_isFinal {v : Value} : v.Within Cell.IsFinal ↔ v.isPending = false := by
  cases v with
  | pending p =>
    rw [Value.within_pending]
    exact ⟨fun h => absurd rfl (h p), nofun⟩
  | object id => exact ⟨fun _ => rfl, fun _ => (Value.within_object id).mpr nofun⟩
  | function id => exact ⟨fun _ => rfl, fun _ => (Value.within_function id).mpr nofun⟩
  | native id => exact ⟨fun _ => rfl, fun _ => (Value.within_native id).mpr nofun⟩
  | _ => exact ⟨fun _ => rfl, fun _ => Value.within_plain rfl⟩

namespace Store

variable {k : Kind} {α : Type} [Inhabited α] {s : Store k α} {a : Addr k} {P : α → Prop}

theorem get_push_of {x : α} {region : Nat} (hx : P x) (ha : P (s.get a)) :
    P ((s.push region x).get a) := by
  rw [get, get?_push]
  split
  · exact hx
  · exact ha

theorem get_modify_of {b : Addr k} {f : α → α} (hf : P (s.get a) → P (f (s.get a)))
    (ha : P (s.get a)) : P ((s.modify b f).get a) := by
  rw [get, get?_modify]
  split
  · cases hs : s.get? a with
    | none =>
      rw [get, hs] at ha
      exact ha
    | some x =>
      have hget : s.get a = x := get_of_get? hs
      rw [hget] at hf ha
      exact hf ha
  · exact ha

end Store

/-! ## Cells with pending values -/

namespace Core

variable {c d : Core} {p : PendingId}

/-- The cell holds the pending value. -/
def Holds (c : Core) (x : Cell) (p : PendingId) : Prop := .pending p ∈ c.heap.heldBy c.engine.links x

theorem not_holds {x : Cell} :
    ¬c.Holds x p ↔ ∀ y ∈ c.heap.heldBy c.engine.links x, y ≠ .pending p := by
  refine ⟨?_, fun h hp => h _ hp rfl⟩
  rintro h y hy rfl
  exact h hy

theorem not_holds_object {id : ObjectId} :
    ¬c.Holds (.object id) p ↔ (c.heap.objects.get id).Within (· ≠ .pending p) :=
  not_holds.trans Object.within_iff.symm

theorem not_holds_scope {id : ScopeId} :
    ¬c.Holds (.scope id) p ↔ (c.heap.scopes.get id).Within (· ≠ .pending p) :=
  not_holds.trans Scope.within_iff.symm

theorem not_holds_pending {id : PendingId} :
    ¬c.Holds (.pending id) p ↔ ∀ v ∈ (c.heap.pendings.get id).held, v.Within (· ≠ .pending p) :=
  not_holds.trans Cell.forall_ofValues

/-- A pending value that is in a cell of the second core was there on the first one, or is one of
`new`. -/
def Adds (new : PendingId → Prop) (c d : Core) : Prop := ∀ x p, d.Holds x p → c.Holds x p ∨ new p

/-- Cells that hold values are objects, scopes and pending values. -/
theorem adds_of {new : PendingId → Prop}
    (hobjects : ∀ p, ¬new p → ∀ id, (c.heap.objects.get id).Within (· ≠ .pending p) →
      (d.heap.objects.get id).Within (· ≠ .pending p))
    (hscopes : ∀ p, ¬new p → ∀ id, (c.heap.scopes.get id).Within (· ≠ .pending p) →
      (d.heap.scopes.get id).Within (· ≠ .pending p))
    (hpendings : ∀ p, ¬new p → ∀ id,
      (∀ v ∈ (c.heap.pendings.get id).held, v.Within (· ≠ .pending p)) →
      ∀ v ∈ (d.heap.pendings.get id).held, v.Within (· ≠ .pending p)) : c.Adds new d := by
  intro x p hx
  by_contra hnot
  obtain ⟨hlacks, hp⟩ := not_or.mp hnot
  cases x with
  | object id => exact not_holds_object.mpr (hobjects p hp id (not_holds_object.mp hlacks)) hx
  | scope id => exact not_holds_scope.mpr (hscopes p hp id (not_holds_scope.mp hlacks)) hx
  | pending id => exact not_holds_pending.mpr (hpendings p hp id (not_holds_pending.mp hlacks)) hx
  | closure id => simp [Holds, Heap.heldBy] at hx
  | native id => simp [Holds, Heap.heldBy] at hx

end Core

namespace Core.Adds

variable {new : PendingId → Prop} {c d e : Core}

theorem refl (c : Core) : c.Adds new c := fun _ _ => .inl

theorem trans (h : c.Adds new d) (h' : d.Adds new e) : c.Adds new e :=
  fun x p hx => (h' x p hx).elim (h x p) .inr

/-- Objects, scopes and pending values are the same. -/
theorem of_eq (hobjects : d.heap.objects = c.heap.objects) (hscopes : d.heap.scopes = c.heap.scopes)
    (hpendings : d.heap.pendings = c.heap.pendings) : c.Adds new d := by
  refine adds_of ?_ ?_ ?_
  · rw [hobjects]
    exact fun _ _ _ h => h
  · rw [hscopes]
    exact fun _ _ _ h => h
  · rw [hpendings]
    exact fun _ _ _ h => h

theorem objects {S : Store .object Object}
    (hS : ∀ p, ¬new p → ∀ id, (c.heap.objects.get id).Within (· ≠ .pending p) →
      (S.get id).Within (· ≠ .pending p)) : c.Adds new (c.withObjects S) :=
  adds_of hS (fun _ _ _ h => h) fun _ _ _ h => h

theorem scopes {S : Store .scope Scope}
    (hS : ∀ p, ¬new p → ∀ id, (c.heap.scopes.get id).Within (· ≠ .pending p) →
      (S.get id).Within (· ≠ .pending p)) :
    c.Adds new { c with heap := { c.heap with scopes := S } } :=
  adds_of (fun _ _ _ h => h) hS fun _ _ _ h => h

theorem pendings {P : Store .pending Pending}
    (hP : ∀ p, ¬new p → ∀ id, (∀ v ∈ (c.heap.pendings.get id).held, v.Within (· ≠ .pending p)) →
      ∀ v ∈ (P.get id).held, v.Within (· ≠ .pending p)) :
    c.Adds new { c with heap := { c.heap with pendings := P } } :=
  adds_of (fun _ _ _ h => h) (fun _ _ _ h => h) hP

end Core.Adds

/-- The cell may be put into cells: a pending value only if it is one of `new`. -/
def Cell.Admitted (new : PendingId → Prop) (x : Cell) : Prop := ∀ p, x = .pending p → new p

theorem Value.Within.lacks {new : PendingId → Prop} {v : Value} (hv : v.Within (Cell.Admitted new))
    {p : PendingId} (hp : ¬new p) : v.Within (· ≠ .pending p) :=
  hv.mono fun _ hx hxp => hp (hx p hxp)

theorem Object.Stores.lacks {new : PendingId → Prop} {o : Object}
    (ho : o.Stores (Cell.Admitted new)) {p : PendingId} (hp : ¬new p) :
    o.Within (· ≠ .pending p) := by
  have hstores : o.Stores (· ≠ .pending p) := ho.mono fun _ hx hxp => hp (hx p hxp)
  exact hstores.within fun _ _ => nofun

namespace Core.Adds

variable {new : PendingId → Prop} {c : Core} {o : Object} {v : Value}

theorem adding (ho : o.Stores (Cell.Admitted new)) : c.Adds new (c.adding o) :=
  objects fun _ hp _ hid => Store.get_push_of (ho.lacks hp) hid

theorem editing {f : Object → Object}
    (hf : ∀ P : Cell → Prop, (∀ x, Cell.Admitted new x → P x) → ∀ o : Object, o.Stores P →
      (f o).Stores P) (id : ObjectId) : c.Adds new (c.editing id f) :=
  objects fun p hp _ hid => Store.get_modify_of (fun ho => (hf (· ≠ .pending p)
    (fun _ hx hxp => hp (hx p hxp)) _ ho.stores).within fun _ _ => nofun) hid

theorem expecting {s : Settlement} (hs : s.value.Within (Cell.Admitted new)) :
    c.Adds new (c.expecting (.scheduled s)) :=
  pendings fun _ hp _ hid => Store.get_push_of
    (P := fun q : Pending => ∀ v ∈ q.held, v.Within (· ≠ .pending _))
    (fun _ hv => List.mem_singleton.mp hv ▸ hs.lacks hp) hid

theorem settle {p : PendingId} {s : Settlement} (hs : c.heap.pendings.get p = .scheduled s) :
    c.Adds new (c.settle p s) := by
  refine pendings fun q _ id hid => ?_
  by_cases hidp : id = p
  · subst hidp
    refine Store.get_modify_of (P := fun r : Pending => ∀ v ∈ r.held, v.Within (· ≠ .pending q))
      (fun hheld => ?_) hid
    rw [hs] at hheld ⊢
    exact hheld
  · have hget : (c.heap.pendings.modify p (·.settle s)).get id = c.heap.pendings.get id := by
      rw [Store.get, Store.get?_modify, if_neg hidp, Store.get]
    rw [hget]
    exact hid

theorem storing (hv : v.Within (Cell.Admitted new)) (s : ScopeId) (name : String) :
    c.Adds new (c.storing s name v) :=
  scopes fun _ hp _ hid => Store.get_modify_of (fun ht => Scope.Within.setLocal ht (hv.lacks hp) name) hid

theorem under {bindings : List Binding} {this : Value}
    (hbindings : ∀ b ∈ bindings, b.value.Within (Cell.Admitted new))
    (hthis : this.Within (Cell.Admitted new)) (parent : ScopeId) (owner : String) :
    c.Adds new (c.under parent owner bindings this) := by
  refine scopes fun p hp _ hid => Store.get_push_of ⟨fun _ _ => nofun, fun w hw => ?_⟩ hid
  rcases List.mem_cons.mp hw with rfl | hw
  · exact hthis.lacks hp
  · obtain ⟨b, hb, rfl⟩ := List.mem_map.mp hw
    exact (hbindings b hb).lacks hp

theorem bearing (fn : FunctionNode) (u : CodeUnit) : c.Adds new (c.bearing fn u) :=
  adds_of (fun _ _ _ hid => Store.get_push_of (Object.stores_ofFunction.within fun _ _ => nofun) hid)
    (fun _ _ _ h => h) fun _ _ _ h => h

end Core.Adds

namespace Realm

/-- The cores of an evaluation since `start` that meets pending values everywhere and holds none. It puts
none but those of `new` into cells that did not hold them at the start, and none but those of `items` are
items of its loops. -/
def clean (start : Core) (new items : PendingId → Prop) (hitems : ∀ p, new p → items p) : Realm where
  sight _ := {
    held := Cell.IsFinal
    stored := Cell.Admitted new
    listed := Cell.Admitted items
    met := fun _ => True
    shown := fun _ => True
    stored_of_held := fun hx p hp => absurd hp (hx p)
    listed_of_stored := fun hx p hp => hitems p (hx p hp)
    met_of_listed := fun _ => trivial
    held_of_met := fun _ hx => hx
    shown_of_held := fun _ => trivial }
  rel c d := d = c ∧ start.Adds new c
  agree := by
    rintro c d ⟨rfl, -⟩
    exact {
      object := fun _ => rfl
      closure := fun _ => rfl
      native := fun _ => rfl
      scope := fun _ => rfl
      pending := fun _ => rfl
      numbering := fun _ => rfl
      stores := fun _ => ⟨fun _ _ _ _ => trivial, fun _ _ _ _ => trivial⟩
      proto := fun _ _ => trivial
      closureBag := fun _ => nofun
      nativeBag := fun _ => nofun
      parent := fun _ _ => nofun
      values := fun _ _ _ _ _ => trivial
      settlement := fun _ _ _ _ _ => trivial }
  engine := by
    rintro c d ⟨rfl, -⟩
    exact ⟨rfl, .rfl⟩
  global _ := nofun
  methods _ := trivial
  defining _ _ := nofun
  nextObject := by
    rintro c d ⟨rfl, -⟩
    rfl
  nextClosure := by
    rintro c d ⟨rfl, -⟩
    rfl
  nextPending := by
    rintro c d ⟨rfl, -⟩
    rfl
  nextScope := by
    rintro c d s ⟨rfl, -⟩ -
    rfl
  process := by
    rintro c d ⟨rfl, -⟩
    rfl
  object := by
    rintro c d o ⟨rfl, h⟩ ho -
    exact ⟨⟨rfl, h.trans (.adding ho)⟩, .refl _, nofun⟩
  edit := by
    rintro c d id f ⟨rfl, h⟩ - hf -
    exact ⟨⟨rfl, h.trans (.editing hf id)⟩, .refl _⟩
  console := by
    rintro c d ⟨rfl, h⟩ line
    exact ⟨⟨rfl, h.trans (.of_eq rfl rfl rfl)⟩, .refl _⟩
  pending := by
    rintro c d s ⟨rfl, h⟩ hs
    exact ⟨⟨rfl, h.trans (.expecting hs)⟩, .refl _, trivial⟩
  binding := by
    rintro c d s v ⟨rfl, h⟩ - hv name
    exact ⟨⟨rfl, h.trans (.storing hv s name)⟩, .refl _⟩
  birth := by
    rintro c d ⟨rfl, h⟩ fn u
    exact ⟨⟨rfl, h.trans (.bearing fn u)⟩, .refl _⟩
  link := by
    rintro c d s ⟨rfl, h⟩ - fn u
    have hlinks : (d.bearing fn u).Adds new (d.linking fn u s) := .of_eq rfl rfl rfl
    exact ⟨⟨rfl, (h.trans (.bearing fn u)).trans hlinks⟩, .refl _, nofun⟩
  scope := by
    rintro c d parent bindings this ⟨rfl, h⟩ - hbindings hthis owner
    exact ⟨⟨rfl, h.trans (.under hbindings hthis parent owner)⟩, .refl _, nofun⟩
  apart := by
    rintro c d ⟨rfl, h⟩ w n l
    exact ⟨⟨rfl, h.trans (.of_eq rfl rfl rfl)⟩, .refl _⟩
  settle := by
    rintro c d p s ⟨rfl, h⟩ - hs
    exact ⟨⟨rfl, h.trans (.settle hs)⟩, .refl _⟩

end Realm

end Fermata
