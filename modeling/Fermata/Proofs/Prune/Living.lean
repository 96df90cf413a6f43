import Fermata.Proofs.Custody.Basic

/-!
# Living cells

Pick some cells of a heap and call them dead. An evaluation that holds no dead cell never gets hold of
one: cells that it makes are new, and what it writes into cells it held before. A closure that it
makes is linked before anybody holds it, so every closure that it holds is linked.

* `Core.Lives`: the cells that are not dead; a living closure is linked.
* `Core.Spared`: living cells hold only living cells.
* `Custody.living`: acts keep it that way, and never miss a defining scope.
-/

namespace Fermata

open Act

namespace Store

variable {k : Kind} {α : Type} {s : Store k α} {a : Addr k} {x v : α}

theorem isSome_push (region : Nat) (h : (s.get? a).isSome) : ((s.push region x).get? a).isSome := by
  rw [get?_push]
  split
  · rfl
  · exact h

theorem isSome_modify {f : α → α} (b : Addr k) (h : (s.get? a).isSome) :
    ((s.modify b f).get? a).isSome := by
  rw [get?_modify]
  split
  · rwa [Option.isSome_map]
  · exact h

/-- A value is the new one or was there before. -/
theorem push_cases {region : Nat} (h : (s.push region x).get? a = some v) :
    a = s.next region ∧ v = x ∨ s.get? a = some v := by
  rw [get?_push] at h
  split at h
  · cases h
    exact .inl ⟨‹_›, rfl⟩
  · exact .inr h

/-- A value is a changed one or was there before. -/
theorem modify_cases {b : Addr k} {f : α → α} (h : (s.modify b f).get? a = some v) :
    (a = b ∧ ∃ u, s.get? a = some u ∧ v = f u) ∨ s.get? a = some v := by
  rw [get?_modify] at h
  split at h
  · obtain ⟨u, hu, rfl⟩ := Option.map_eq_some_iff.mp h
    exact .inl ⟨‹_›, u, hu, rfl⟩
  · exact .inr h

theorem get_of_get? [Inhabited α] (h : s.get? a = some v) : s.get a = v := by
  rw [get, h, Option.getD_some]

end Store

namespace Links

variable {links : Links} {h : Heap} {id : ClosureId}

/-- A closure with a defining scope is found under its number. -/
theorem definingScope?_eq_some {s : ScopeId} (hs : links.definingScope? h id = some s) :
    ∃ a, links[(h.closures.get id).serial]? = some a ∧ a.closure = id ∧ a.scope = s := by
  unfold definingScope? at hs
  cases ha : links[(h.closures.get id).serial]? with
  | none =>
    rw [ha] at hs
    cases hs
  | some a =>
    rw [ha] at hs
    dsimp only at hs
    split at hs
    · cases hs
      exact ⟨a, rfl, ‹_›, rfl⟩
    · cases hs

/-- The scope under the number of a closure that has a defining scope is that scope. -/
theorem definingScope?_of_scope? {s : ScopeId} (hid : (links.definingScope? h id).isSome)
    (hs : links.scope? (h.closures.get id).serial = some s) : links.definingScope? h id = some s := by
  obtain ⟨t, ht⟩ := Option.isSome_iff_exists.mp hid
  obtain ⟨a, ha, -, rfl⟩ := definingScope?_eq_some ht
  rw [scope?, ha] at hs
  cases hs
  exact ht

end Links

/-- What the scope holds is of `P`. -/
def Scope.Within (P : Cell → Prop) (s : Scope) : Prop :=
  (∀ p, s.parent = some p → P (.scope p)) ∧ ∀ v ∈ s.held, v.Within P

theorem Scope.within_iff {P : Cell → Prop} {s : Scope} :
    s.Within P ↔ ∀ x ∈ (s.parent.map Cell.scope).toList ++ Cell.ofValues s.held, P x := by
  rw [List.forall_mem_append, Cell.forall_ofValues]
  simp only [Within, Option.mem_toList, Option.map_eq_some_iff, forall_exists_index, and_imp,
    forall_apply_eq_imp_iff₂]

/-- A write overwrites a binding, and leaves the others. -/
theorem Storage.mem_overwrite {name : String} {v : Value} {bs : List Binding} {b : Binding}
    (hb : b ∈ overwrite name v bs) : b.value = v ∨ b ∈ bs := by
  induction bs with
  | nil => cases hb
  | cons a bs ih =>
    unfold overwrite at hb
    split at hb
    · rcases List.mem_cons.mp hb with rfl | hb
      · exact .inl rfl
      · exact .inr (List.mem_cons_of_mem a hb)
    · rcases List.mem_cons.mp hb with rfl | hb
      · exact .inr List.mem_cons_self
      · exact (ih hb).imp id (List.mem_cons_of_mem a)

theorem Scope.Within.setLocal {P : Cell → Prop} {s : Scope} {v : Value} (hs : s.Within P)
    (hv : v.Within P) (name : String) :
    ({ s with storage := s.storage.setLocal name v } : Scope).Within P := by
  obtain ⟨parent, owner, storage, this⟩ := s
  refine ⟨hs.1, fun w hw => ?_⟩
  rcases List.mem_cons.mp hw with rfl | hw
  · exact hs.2 _ List.mem_cons_self
  · cases storage with
    | global o => exact hs.2 w (List.mem_cons_of_mem _ hw)
    | locals bindings =>
      obtain ⟨b, hb, rfl⟩ := List.mem_map.mp hw
      rcases Storage.mem_overwrite hb with heq | hb
      · exact heq ▸ hv
      · exact hs.2 _ (List.mem_cons_of_mem _ (List.mem_map_of_mem hb))

namespace Core

variable {D : Cell → Prop} {own : List Cell} {c d : Core} {f : Frame} {fs : List Frame} {x y : Cell}

/-- The cell is there and not dead; if it is a closure, it is linked. -/
structure Lives (D : Cell → Prop) (c : Core) (x : Cell) : Prop where
  there : c.heap.contains x = true
  spared : ¬D x
  linked : ∀ id, x = .closure id → (c.engine.links.definingScope? c.heap id).isSome

/-- Living cells hold living cells, and so do the engine, which holds `own`, and its frames. Numbers of
closures to come are free. -/
structure Spared (D : Cell → Prop) (own : List Cell) (fs : List Frame) (c : Core) : Prop where
  content : ∀ x, c.Lives D x → ∀ y ∈ c.heap.heldBy c.engine.links x, c.Lives D y
  dead : ∀ x, D x → c.heap.contains x = true
  free : ∀ n, c.engine.nextSerial ≤ n → c.engine.links[n]? = none
  own_eq : c.engine.own = own
  engine : ∀ x ∈ own, c.Lives D x
  scopes : ∀ f ∈ fs, c.Lives D (.scope f.scope)

/-- A cell that was not there before lives, unless it is a closure. -/
theorem Spared.lives_new (h : c.Spared D own fs) (hnew : c.heap.contains x = false)
    (hin : d.heap.contains x = true) (hx : ∀ id, x ≠ .closure id) : d.Lives D x := by
  refine ⟨hin, fun hdead => ?_, fun id heq => absurd heq (hx id)⟩
  rw [h.dead x hdead] at hnew
  cases hnew

/-- Closures and associations are the same, and every cell is still there. -/
structure Extends (c d : Core) : Prop where
  closures : d.heap.closures = c.heap.closures
  links : d.engine.links = c.engine.links
  serial : d.engine.nextSerial = c.engine.nextSerial
  own : d.engine.own = c.engine.own
  there : ∀ x, c.heap.contains x = true → d.heap.contains x = true

namespace Extends

theorem definingScope? (h : c.Extends d) (id : ClosureId) :
    d.engine.links.definingScope? d.heap id = c.engine.links.definingScope? c.heap id := by
  unfold Links.definingScope?
  rw [h.closures, h.links]

theorem grows (h : c.Extends d) : Grows (Lives D) c d := fun x hx =>
  ⟨h.there x hx.there, hx.spared, fun id heq => (h.definingScope? id).symm ▸ hx.linked id heq⟩

/-- Where what is new and what was changed holds living cells, everything living does. -/
theorem spared (h : c.Extends d) (hc : c.Spared D own fs)
    (hcontent : ∀ x, d.heap.contains x = true → ¬D x →
      (c.Lives D x → ∀ y ∈ c.heap.heldBy c.engine.links x, c.Lives D y) →
      (∀ id, x ≠ .closure id) → ∀ y ∈ d.heap.heldBy d.engine.links x, c.Lives D y) :
    d.Spared D own fs := by
  refine ⟨fun x hx y hy => ?_, fun x hx => h.there x (hc.dead x hx), ?_, h.own.trans hc.own_eq, ?_,
    ?_⟩
  · refine h.grows y ?_
    by_cases hclosure : ∃ id, x = .closure id
    · obtain ⟨id, rfl⟩ := hclosure
      have hlives : c.Lives D (.closure id) := by
        refine ⟨?_, hx.spared, fun n heq => ?_⟩
        · have hthere := hx.there
          unfold Heap.contains at hthere ⊢
          rwa [h.closures] at hthere
        · rw [← h.definingScope?]
          exact hx.linked n heq
      refine hc.content _ hlives y ?_
      simp only [Heap.heldBy, h.definingScope?, h.closures] at hy
      exact hy
    · exact hcontent x hx.there hx.spared (hc.content x) (fun id heq => hclosure ⟨id, heq⟩) y hy
  · rw [h.serial, h.links]
    exact hc.free
  · exact fun x hx => h.grows x (hc.engine x hx)
  · exact fun f hf => h.grows _ (hc.scopes f hf)

end Extends

namespace Spared

/-- The cell lives as it was there before. -/
theorem lives_old (hin : c.heap.contains x = true) (hx : ¬D x) (hclosure : ∀ id, x ≠ .closure id) :
    c.Lives D x :=
  ⟨hin, hx, fun id heq => absurd heq (hclosure id)⟩

/-- The heap is the same. -/
theorem aside (h : c.Spared D own fs) (hext : c.Extends d) (hheap : d.heap = c.heap) :
    d.Spared D own fs ∧ Grows (Lives D) c d := by
  refine ⟨hext.spared h fun x hx hspared hold hclosure => ?_, hext.grows⟩
  rw [hheap] at hx ⊢
  rw [hext.links]
  exact hold (lives_old hx hspared hclosure)

/-- Other objects that hold living cells. -/
theorem objects (h : c.Spared D own fs) {S : Store .object Object}
    (hin : ∀ id, (c.heap.objects.get? id).isSome → (S.get? id).isSome)
    (hS : ∀ id o, S.get? id = some o → ¬D (.object id) → o.Within (c.Lives D)) :
    (c.withObjects S).Spared D own fs ∧ Grows (Lives D) c (c.withObjects S) := by
  have hext : c.Extends (c.withObjects S) := by
    refine ⟨rfl, rfl, rfl, rfl, fun x hx => ?_⟩
    cases x with
    | object id => exact hin id hx
    | _ => exact hx
  refine ⟨hext.spared h fun x hx hspared hold hclosure => ?_, hext.grows⟩
  cases x with
  | object id =>
    obtain ⟨o, ho⟩ := Option.isSome_iff_exists.mp hx
    have hwithin := Object.within_iff.mp (hS id o ho hspared)
    rwa [← Store.get_of_get? ho] at hwithin
  | closure id => exact absurd rfl (hclosure id)
  | _ => exact hold (lives_old hx hspared hclosure)

/-- Other scopes that hold living cells. -/
theorem withScopes (h : c.Spared D own fs) {S : Store .scope Scope}
    (hin : ∀ id, (c.heap.scopes.get? id).isSome → (S.get? id).isSome)
    (hS : ∀ id t, S.get? id = some t → ¬D (.scope id) → t.Within (c.Lives D)) :
    let d : Core := { c with heap := { c.heap with scopes := S } }
    d.Spared D own fs ∧ Grows (Lives D) c d := by
  intro d
  have hext : c.Extends d := by
    refine ⟨rfl, rfl, rfl, rfl, fun x hx => ?_⟩
    cases x with
    | scope id => exact hin id hx
    | _ => exact hx
  refine ⟨hext.spared h fun x hx hspared hold hclosure => ?_, hext.grows⟩
  cases x with
  | scope id =>
    obtain ⟨t, ht⟩ := Option.isSome_iff_exists.mp hx
    have hwithin := Scope.within_iff.mp (hS id t ht hspared)
    rwa [← Store.get_of_get? ht] at hwithin
  | closure id => exact absurd rfl (hclosure id)
  | _ => exact hold (lives_old hx hspared hclosure)

/-- Other pending values that hold living cells. -/
theorem pendings (h : c.Spared D own fs) {P : Store .pending Pending}
    (hin : ∀ id, (c.heap.pendings.get? id).isSome → (P.get? id).isSome)
    (hP : ∀ id p, P.get? id = some p → ¬D (.pending id) → ∀ v ∈ p.held, v.Within (c.Lives D))
    (numbers : Store .pending Nat := c.heap.numbers) (process : Process := c.heap.process) :
    let d : Core := { c with heap := { c.heap with pendings := P, numbers, process } }
    d.Spared D own fs ∧ Grows (Lives D) c d := by
  intro d
  have hext : c.Extends d := by
    refine ⟨rfl, rfl, rfl, rfl, fun x hx => ?_⟩
    cases x with
    | pending id => exact hin id hx
    | _ => exact hx
  refine ⟨hext.spared h fun x hx hspared hold hclosure => ?_, hext.grows⟩
  cases x with
  | pending id =>
    obtain ⟨p, hp⟩ := Option.isSome_iff_exists.mp hx
    have hwithin := Cell.forall_ofValues.mpr (hP id p hp hspared)
    rwa [← Store.get_of_get? hp] at hwithin
  | closure id => exact absurd rfl (hclosure id)
  | _ => exact hold (lives_old hx hspared hclosure)

/-! ## The changes -/

theorem content_object (h : c.Spared D own fs) {id : ObjectId} {o : Object}
    (ho : c.heap.objects.get? id = some o) (hid : ¬D (.object id)) : o.Within (c.Lives D) := by
  have hin : c.heap.contains (.object id) = true := Option.isSome_of_eq_some ho
  have hcontent := h.content (.object id) (lives_old hin hid nofun)
  rw [← Store.get_of_get? ho]
  exact Object.within_iff.mpr hcontent

theorem content_scope (h : c.Spared D own fs) {id : ScopeId} {t : Scope}
    (ht : c.heap.scopes.get? id = some t) (hid : ¬D (.scope id)) : t.Within (c.Lives D) := by
  have hin : c.heap.contains (.scope id) = true := Option.isSome_of_eq_some ht
  have hcontent := h.content (.scope id) (lives_old hin hid nofun)
  rw [← Store.get_of_get? ht]
  exact Scope.within_iff.mpr hcontent

theorem content_pending (h : c.Spared D own fs) {id : PendingId} {p : Pending}
    (hp : c.heap.pendings.get? id = some p) (hid : ¬D (.pending id)) :
    ∀ v ∈ p.held, v.Within (c.Lives D) := by
  have hin : c.heap.contains (.pending id) = true := Option.isSome_of_eq_some hp
  have hcontent := h.content (.pending id) (lives_old hin hid nofun)
  rw [← Store.get_of_get? hp]
  exact Cell.forall_ofValues.mp hcontent

theorem adding (h : c.Spared D own fs) {o : Object} (ho : o.Within (c.Lives D)) :
    (c.adding o).Spared D own fs ∧ Grows (Lives D) c (c.adding o) ∧
      (c.adding o).Lives D (.object (c.heap.objects.next c.engine.region)) := by
  obtain ⟨hspared, hgrows⟩ := h.objects (S := c.heap.objects.push c.engine.region o)
    (fun _ => Store.isSome_push _) fun id n hn hdead => by
      rcases Store.push_cases hn with ⟨-, rfl⟩ | hn
      · exact ho
      · exact h.content_object hn hdead
  refine ⟨hspared, hgrows, h.lives_new ?_ ?_ nofun⟩
  · simp [Heap.contains]
  · simp [Heap.contains, Core.adding, withObjects, Store.get?_push]

theorem editing (h : c.Spared D own fs) {g : Object → Object}
    (hg : ∀ o : Object, o.Within (c.Lives D) → (g o).Within (c.Lives D)) (id : ObjectId) :
    (c.editing id g).Spared D own fs ∧ Grows (Lives D) c (c.editing id g) := by
  refine h.objects (fun _ => Store.isSome_modify id) fun n o ho hdead => ?_
  rcases Store.modify_cases ho with ⟨-, u, hu, rfl⟩ | ho
  · exact hg u (h.content_object hu hdead)
  · exact h.content_object ho hdead

theorem expecting (h : c.Spared D own fs) {s : Settlement} (hs : s.value.Within (c.Lives D)) :
    (c.expecting (.scheduled s)).Spared D own fs ∧ Grows (Lives D) c (c.expecting (.scheduled s)) ∧
      (c.expecting (.scheduled s)).Lives D
        (.pending (c.heap.pendings.next c.engine.region)) := by
  obtain ⟨hspared, hgrows⟩ := h.pendings
    (P := c.heap.pendings.push c.engine.region (.scheduled s)) (fun _ => Store.isSome_push _)
    (fun id p hp hdead => by
      rcases Store.push_cases hp with ⟨-, rfl⟩ | hp
      · exact fun v hv => List.mem_singleton.mp hv ▸ hs
      · exact h.content_pending hp hdead)
    (c.expecting (.scheduled s)).heap.numbers (c.expecting (.scheduled s)).heap.process
  refine ⟨hspared, hgrows, h.lives_new ?_ ?_ nofun⟩
  · simp [Heap.contains]
  · simp [Heap.contains, Core.expecting, Heap.newPending, Store.get?_push]

/-- A settlement that was due brings nothing new. -/
theorem settle (h : c.Spared D own fs) {p : PendingId} {s : Settlement}
    (hp : c.heap.pendings.get p = .scheduled s) :
    (c.settle p s).Spared D own fs ∧ Grows (Lives D) c (c.settle p s) := by
  refine h.pendings (fun _ => Store.isSome_modify p) fun n q hq hdead => ?_
  rcases Store.modify_cases hq with ⟨rfl, u, hu, rfl⟩ | hq
  · obtain rfl : u = .scheduled s := (Store.get_of_get? hu).symm.trans hp
    have hcontent := h.content_pending hu hdead
    exact hcontent
  · exact h.content_pending hq hdead

/-- A value that can not settle by itself any more holds less. -/
theorem spent (h : c.Spared D own fs) (p : PendingId) :
    (c.taken p).Spared D own fs ∧ Grows (Lives D) c (c.taken p) := by
  refine h.pendings (fun _ => Store.isSome_modify p) fun n q hq hdead => ?_
  rcases Store.modify_cases hq with ⟨-, u, hu, rfl⟩ | hq
  · cases u with
    | scheduled s => exact List.forall_mem_nil _
    | _ => exact h.content_pending hu hdead
  · exact h.content_pending hq hdead

theorem storing (h : c.Spared D own fs) {v : Value} (hv : v.Within (c.Lives D)) (scope : ScopeId)
    (name : String) :
    (c.storing scope name v).Spared D own fs ∧ Grows (Lives D) c (c.storing scope name v) := by
  refine h.withScopes (fun _ => Store.isSome_modify scope) fun n t ht hdead => ?_
  rcases Store.modify_cases ht with ⟨-, u, hu, rfl⟩ | ht
  · exact (h.content_scope hu hdead).setLocal hv name
  · exact h.content_scope ht hdead

/-- A scope of its own for an activation. -/
theorem under (h : c.Spared D own fs) {parent : ScopeId} {bindings : List Binding} {this : Value}
    (hparent : c.Lives D (.scope parent)) (hbindings : ∀ b ∈ bindings, b.value.Within (c.Lives D))
    (hthis : this.Within (c.Lives D)) (owner : String) :
    (c.under parent owner bindings this).Spared D own fs ∧
      Grows (Lives D) c (c.under parent owner bindings this) ∧
      (c.under parent owner bindings this).Lives D
        (.scope (c.heap.scopes.next parent.region)) := by
  obtain ⟨hspared, hgrows⟩ := h.withScopes
    (S := c.heap.scopes.push parent.region ⟨some parent, owner, .locals bindings, this⟩)
    (fun _ => Store.isSome_push _) fun id t ht hdead => by
      rcases Store.push_cases ht with ⟨-, rfl⟩ | ht
      · refine ⟨fun p hp => ?_, fun v hv => ?_⟩
        · cases hp
          exact hparent
        · rcases List.mem_cons.mp hv with rfl | hv
          · exact hthis
          · obtain ⟨b, hb, rfl⟩ := List.mem_map.mp hv
            exact hbindings b hb
      · exact h.content_scope ht hdead
  refine ⟨hspared, hgrows, h.lives_new ?_ ?_ nofun⟩
  · simp [Heap.contains]
  · simp [Heap.contains, Core.under, Heap.newChild, Heap.newScope, Store.get?_push]

/-- One frame more. -/
theorem cons (h : c.Spared D own fs) (hf : c.Lives D (.scope f.scope)) : c.Spared D own (f :: fs) := by
  refine ⟨h.content, h.dead, h.free, h.own_eq, h.engine, fun g hg => ?_⟩
  rcases List.mem_cons.mp hg with rfl | hg
  · exact hf
  · exact h.scopes g hg

theorem tail (h : c.Spared D own (f :: fs)) : c.Spared D own fs :=
  ⟨h.content, h.dead, h.free, h.own_eq, h.engine, fun g hg => h.scopes g (List.mem_cons_of_mem f hg)⟩

/-! ## Closures -/

/-- Closures that are there keep their defining scopes when a closure is made. -/
theorem definingScope?_closure (h : c.Spared D own fs) (k : Closure) {links : Links}
    (hlinks : ∀ n, n ≠ c.engine.nextSerial → links[n]? = c.engine.links[n]?)
    (hnext : ∀ a, links[c.engine.nextSerial]? = some a →
      a.closure = c.heap.closures.next c.engine.region) (heap : Heap)
    (hheap : heap.closures = c.heap.closures.push c.engine.region k) {id : ClosureId}
    (hid : (c.heap.closures.get? id).isSome) :
    heap.closures.get id = c.heap.closures.get id ∧
      links.definingScope? heap id = c.engine.links.definingScope? c.heap id := by
  have hne : id ≠ c.heap.closures.next c.engine.region := by
    rintro rfl
    rw [Store.get?_next] at hid
    cases hid
  have hget : heap.closures.get id = c.heap.closures.get id := by
    unfold Store.get
    rw [hheap, Store.get?_push, if_neg hne]
  refine ⟨hget, ?_⟩
  unfold Links.definingScope?
  rw [hget]
  by_cases hserial : (c.heap.closures.get id).serial = c.engine.nextSerial
  · rw [hserial, h.free _ (Nat.le_refl _)]
    cases ha : links[c.engine.nextSerial]? with
    | none => rfl
    | some a =>
      dsimp only
      rw [hnext a ha, if_neg (Ne.symm hne)]
  · rw [hlinks _ hserial]

/-- A closure under a new number, with other associations for that number alone. -/
theorem closure (h : c.Spared D own fs) {k : Closure} (hk : c.Lives D (.object k.object))
    (hserial : k.serial = c.engine.nextSerial) (links : Links)
    (hlinks : ∀ n, n ≠ c.engine.nextSerial → links[n]? = c.engine.links[n]?)
    (hnext : ∀ a, links[c.engine.nextSerial]? = some a →
      a.closure = c.heap.closures.next c.engine.region ∧ c.Lives D (.scope a.scope)) :
    let d : Core := ⟨(c.heap.newClosure c.engine.region k).2,
      { c.engine with links, nextSerial := c.engine.nextSerial + 1 }⟩
    d.Spared D own fs ∧ Grows (Lives D) c d ∧ ((links[c.engine.nextSerial]?).isSome →
      d.Lives D (.closure (c.heap.closures.next c.engine.region))) := by
  intro d
  have hold : ∀ {id}, (c.heap.closures.get? id).isSome →
      d.heap.closures.get id = c.heap.closures.get id ∧
        d.engine.links.definingScope? d.heap id = c.engine.links.definingScope? c.heap id :=
    fun hid => h.definingScope?_closure k hlinks (fun a ha => (hnext a ha).1) d.heap rfl hid
  have hnew : d.heap.closures.get (c.heap.closures.next c.engine.region) = k := by
    refine Store.get_of_get? ?_
    change (c.heap.closures.push _ k).get? _ = _
    rw [Store.get?_push, if_pos rfl]
  have hthere : ∀ x, c.heap.contains x = true → d.heap.contains x = true := fun x hx => by
    cases x with
    | closure id => exact Store.isSome_push _ hx
    | _ => exact hx
  have hgrows : Grows (Lives D) c d := fun x hx => by
    refine ⟨hthere x hx.there, hx.spared, fun id heq => ?_⟩
    subst heq
    rw [(hold hx.there).2]
    exact hx.linked id rfl
  -- a living cell is an old one or the closure itself
  have hback : ∀ x, d.Lives D x → c.Lives D x ∨ x = .closure (c.heap.closures.next c.engine.region) :=
    fun x hx => by
      cases x with
      | closure id =>
        obtain ⟨k', hk'⟩ := Option.isSome_iff_exists.mp hx.there
        rcases Store.push_cases hk' with ⟨rfl, -⟩ | hk'
        · exact .inr rfl
        · have hin : (c.heap.closures.get? id).isSome := Option.isSome_of_eq_some hk'
          refine .inl ⟨hin, hx.spared, fun n heq => ?_⟩
          cases heq
          rw [← (hold hin).2]
          exact hx.linked id rfl
      | _ => exact .inl (lives_old hx.there hx.spared fun id heq => by cases heq)
  refine ⟨⟨fun x hx y hy => ?_, fun x hx => hthere x (h.dead x hx), fun n hn => ?_, h.own_eq, ?_, ?_⟩,
    hgrows, fun hsome => ?_⟩
  · refine hgrows y ?_
    rcases hback x hx with hx | rfl
    · refine h.content x hx y ?_
      cases x with
      | closure id =>
        obtain ⟨hget, hscope⟩ := hold hx.there
        simp only [Heap.heldBy, hget, hscope] at hy
        exact hy
      | _ => exact hy
    · simp only [Heap.heldBy, hnew, List.mem_cons, Option.mem_toList, Option.map_eq_some_iff] at hy
      rcases hy with rfl | ⟨s, hs, rfl⟩
      · exact hk
      · obtain ⟨a, ha, -, rfl⟩ := Links.definingScope?_eq_some hs
        rw [hnew, hserial] at ha
        exact (hnext a ha).2
  · have hn : c.engine.nextSerial + 1 ≤ n := hn
    change links[n]? = none
    rw [hlinks n (by omega)]
    exact h.free n (by omega)
  · exact fun x hx => hgrows x (h.engine x hx)
  · exact fun f hf => hgrows _ (h.scopes f hf)
  · refine ⟨?_, fun hdead => ?_, fun id heq => ?_⟩
    · change ((c.heap.closures.push _ k).get? _).isSome = true
      rw [Store.get?_push, if_pos rfl]
      rfl
    · have hin : (c.heap.closures.get? (c.heap.closures.next c.engine.region)).isSome = true :=
        h.dead _ hdead
      rw [Store.get?_next] at hin
      cases hin
    · cases heq
      obtain ⟨a, ha⟩ := Option.isSome_iff_exists.mp hsome
      unfold Links.definingScope?
      rw [hnew, hserial]
      rw [show d.engine.links[c.engine.nextSerial]? = some a from ha]
      dsimp only
      rw [if_pos (hnext a ha).1]
      rfl

theorem bearing (h : c.Spared D own fs) (fn : FunctionNode) (u : CodeUnit) :
    (c.bearing fn u).Spared D own fs ∧ Grows (Lives D) c (c.bearing fn u) := by
  obtain ⟨hspared, hgrows, hobject⟩ := h.adding Object.within_ofFunction
  obtain ⟨hspared', hgrows', -⟩ := hspared.closure (k := c.nextClosure fn u) hobject rfl
    c.engine.links (fun _ _ => rfl) fun a ha => by
      have hnone := h.free _ (Nat.le_refl _)
      rw [show c.engine.links[c.engine.nextSerial]? = some a from ha] at hnone
      cases hnone
  exact ⟨hspared', fun x hx => hgrows' x (hgrows x hx)⟩

/-- A closure that is made and linked lives. -/
theorem linking (h : c.Spared D own (f :: fs)) (fn : FunctionNode) (u : CodeUnit) :
    (c.linking fn u f.scope).Spared D own (f :: fs) ∧ Grows (Lives D) c (c.linking fn u f.scope) ∧
      (c.linking fn u f.scope).Lives D (.closure (c.heap.closures.next c.engine.region)) := by
  obtain ⟨hspared, hgrows, hobject⟩ := h.adding Object.within_ofFunction
  have hfree : c.engine.links[c.engine.nextSerial]? = none := h.free _ (Nat.le_refl _)
  have hcontains : ¬c.engine.links.contains c.engine.nextSerial = true := by
    rw [Std.TreeMap.contains_eq_isSome_getElem?, hfree]
    exact Bool.false_ne_true
  generalize hlinks : (c.engine.links.associate c.engine.nextSerial
    ⟨c.heap.closures.next c.engine.region, f.scope, fn.id⟩).2 = links
  have hget : ∀ n, links[n]? = if n = c.engine.nextSerial then
      some ⟨c.heap.closures.next c.engine.region, f.scope, fn.id⟩ else c.engine.links[n]? := by
    intro n
    rw [← hlinks, Links.getElem?_associate]
    by_cases hn : n = c.engine.nextSerial
    · rw [if_pos ⟨hn, hcontains⟩, if_pos hn]
    · rw [if_neg fun h => hn h.1, if_neg hn]
  obtain ⟨hspared', hgrows', hlives⟩ := hspared.closure (k := c.nextClosure fn u) hobject rfl
    links (fun n hn => (hget n).trans (if_neg hn)) fun a ha => by
      have heq := (hget _).trans (if_pos rfl)
      rw [show links[c.engine.nextSerial]? = some a from ha] at heq
      cases heq
      exact ⟨rfl, hgrows _ (h.scopes f List.mem_cons_self)⟩
  have hall : Grows (Lives D) c _ := fun x hx => hgrows' x (hgrows x hx)
  have hsome : (links[c.engine.nextSerial]?).isSome := by
    rw [hget, if_pos rfl]
    rfl
  subst hlinks
  exact ⟨hspared', hall, hlives hsome⟩

end Spared

/-- The scope under the number of a living closure lives. -/
theorem Spared.defining (h : c.Spared D own fs) {id : ClosureId} {s : ScopeId}
    (hid : c.Lives D (.closure id))
    (hs : c.engine.links.scope? (c.heap.closures.get id).serial = some s) :
    c.Lives D (.scope s) := by
  refine h.content _ hid _ ?_
  rw [Heap.heldBy, Links.definingScope?_of_scope? (hid.linked id rfl) hs]
  exact List.mem_cons_of_mem _ List.mem_cons_self

end Core

/-- A fault other than that of a closure without a defining scope. -/
def Fault.IsLinked (f : Fault) : Prop := ∀ name, f ≠ .stack (.neverLinked name)

/-- **Living cells are a custody**: whoever holds only living cells never misses a defining scope. -/
def Custody.living (D : Cell → Prop) (own : List Cell) : Custody where
  held := Core.Lives D
  good fs c := c.Spared D own fs
  fault := Fault.IsLinked
  literal _ _ _ := True
  content h hx := h.content _ hx
  methods h := h.engine _ (h.own_eq ▸
    List.mem_cons_of_mem _ (List.mem_cons_of_mem _ List.mem_cons_self))
  scope h := h.scopes _ List.mem_cons_self
  defining h hid hs := h.defining hid hs
  object h ho := h.adding ho
  edit h hf id := h.editing hf id
  console h lines := h.aside ⟨rfl, rfl, rfl, rfl, fun _ hx => hx⟩ rfl
  pending h hs := h.expecting hs
  binding h hv scope name := h.storing hv scope name
  birth h _ := h.bearing _ _
  link {f _ c _ fn _ next} h _ _ _ := by
    obtain ⟨hspared, hgrows, hlives⟩ := h.linking fn f.unit
    exact ⟨hspared.tail.cons (hspared.scopes f List.mem_cons_self), hgrows, hlives⟩
  capture {_ c _ r} _ _ _ h hid hscope _ _ _ hbindings hthis := by
    obtain ⟨hspared, hgrows, hlives⟩ := h.under (h.defining hid hscope) hbindings hthis r.name
    exact ⟨hspared.cons hlives, hgrows⟩
  share h hid hscope _ _ := h.cons (h.defining hid hscope)
  code {f _ _ _ _} h _ := h.cons (h.scopes f List.mem_cons_self)
  mark {f _ _} h _ := h.tail.cons (h.scopes f List.mem_cons_self)
  close h := h.tail
  apart h w n l := h.aside ⟨rfl, rfl, rfl, rfl, fun _ hx => hx⟩ rfl
  starting h _ := h.aside ⟨rfl, rfl, rfl, rfl, fun _ hx => hx⟩ rfl
  settle h hp := h.settle hp
  take h := h.spent
  linked _ _ := .inl nofun
  hoisted _ _ _ _ := trivial
  called {_ c id} _ hid := by
    obtain ⟨s, hs⟩ := Option.isSome_iff_exists.mp (hid.linked id rfl)
    obtain ⟨a, ha, -, -⟩ := Links.definingScope?_eq_some hs
    exact .inr ⟨a.scope, by rw [Links.scope?, ha]; rfl⟩
  recorded _ _ _ := .inl nofun
  unsupported _ := nofun
  escaped _ := nofun
  transferred := nofun
  stranded := nofun

end Fermata
