import Fermata.Proofs.Array.Packed
import Fermata.Proofs.Zone.Tied

/-!
# Lineages

The lineage of an object is the list of the objects that a walk along prototypes comes by: the object,
its prototype, the prototype of that one, and so on to one without a prototype. An object has at most one
lineage, and one that has it is not among those that it inherits from. Then walks with a bound end where
walks without one do: what they find can be read from the list.

* `Heap.Lineage`: the relation.
* `Heap.Lineal`: what walks from an object find.
* `Heap.Founded`: every object has a lineage. This lasts while objects are made behind objects that exist
  and keep their prototypes.
-/

namespace Fermata.Heap

variable {α : Type} {h k : Heap} {id p x : ObjectId} {ids others : List ObjectId} {n : Nat}

/-- The object and those that it inherits from, up to one without a prototype. All of them exist. -/
inductive Lineage (h : Heap) : ObjectId → List ObjectId → Prop
  | root {id o} : h.objects.get? id = some o → o.proto = none → Lineage h id [id]
  | child {id o p ids} : h.objects.get? id = some o → o.proto = some p → Lineage h p ids →
      Lineage h id (id :: ids)

namespace Lineage

/-- An object has one lineage. -/
theorem unique (hl : h.Lineage id ids) (hl' : h.Lineage id others) : ids = others := by
  induction hl generalizing others with
  | root ho hp =>
    cases hl' with
    | root _ _ => rfl
    | child ho' hp' _ =>
      cases ho.symm.trans ho'
      cases hp.symm.trans hp'
  | child ho hp _ ih =>
    cases hl' with
    | root ho' hp' =>
      cases ho.symm.trans ho'
      cases hp.symm.trans hp'
    | child ho' hp' hrest =>
      cases ho.symm.trans ho'
      cases hp.symm.trans hp'
      exact congrArg _ (ih hrest)

/-- It starts with the object, which is followed by the lineage of its prototype. -/
theorem cases_proto (hl : h.Lineage id ids) :
    ((h.objects.get id).proto = none ∧ ids = [id]) ∨
      ∃ p rest, (h.objects.get id).proto = some p ∧ ids = id :: rest ∧ h.Lineage p rest := by
  cases hl with
  | root ho hp => exact .inl ⟨Store.get_of_get? ho ▸ hp, rfl⟩
  | child ho hp hrest => exact .inr ⟨_, _, Store.get_of_get? ho ▸ hp, rfl, hrest⟩

theorem exists_of_mem (hl : h.Lineage id ids) (hx : x ∈ ids) : (h.objects.get? x).isSome := by
  induction hl with
  | root ho _ =>
    obtain rfl := List.mem_singleton.mp hx
    rw [ho, Option.isSome_some]
  | child ho _ _ ih =>
    rcases List.mem_cons.mp hx with rfl | hx
    · rw [ho, Option.isSome_some]
    · exact ih hx

/-- Whatever an object inherits from has the rest of the lineage. -/
theorem behind (hl : h.Lineage id ids) (hx : x ∈ ids) :
    ∃ nearer farther, ids = nearer ++ farther ∧ h.Lineage x farther := by
  induction hl with
  | root ho hp =>
    obtain rfl := List.mem_singleton.mp hx
    exact ⟨[], _, rfl, .root ho hp⟩
  | child ho hp hrest ih =>
    rcases List.mem_cons.mp hx with rfl | hx
    · exact ⟨[], _, rfl, .child ho hp hrest⟩
    · obtain ⟨nearer, farther, rfl, hfar⟩ := ih hx
      exact ⟨_ :: nearer, farther, rfl, hfar⟩

/-- **No object inherits from itself.** -/
theorem nodup (hl : h.Lineage id ids) : ids.Nodup := by
  induction hl with
  | root _ _ => exact List.nodup_singleton _
  | @child id o p rest ho hp hrest ih =>
    refine List.nodup_cons.mpr ⟨fun hid => ?_, ih⟩
    -- the object would have a lineage that is shorter than its own one
    obtain ⟨nearer, farther, hsplit, hagain⟩ := hrest.behind hid
    have hlength := congrArg List.length ((Lineage.child ho hp hrest).unique hagain)
    have hrest := congrArg List.length hsplit
    rw [List.length_append] at hrest
    rw [List.length_cons] at hlength
    omega

theorem length_le (hl : h.Lineage id ids) : ids.length ≤ h.objectCount := by
  classical
  calc ids.length = ids.toFinset.card := (List.toFinset_card_of_nodup hl.nodup).symm
    _ ≤ h.objectIds.card := Finset.card_le_card fun x hx =>
        List.mem_toFinset.mpr (h.objects.mem_addresses x (hl.exists_of_mem (List.mem_toFinset.mp hx)))
    _ ≤ h.objectCount := h.card_objectIds

/-! ## Walks -/

/-- A walk comes by the objects of the lineage. -/
theorem chain_eq (hl : h.Lineage id ids) (hn : ids.length ≤ n) : h.chain n id = ids := by
  induction hl generalizing n with
  | root ho hp =>
    obtain ⟨n, rfl⟩ := Nat.exists_eq_add_of_lt hn
    simp only [chain, Store.get_of_get? ho, hp]
  | child ho hp _ ih =>
    obtain ⟨n, rfl⟩ := Nat.exists_eq_add_of_lt hn
    simp only [chain, Store.get_of_get? ho, hp, ih (Nat.le_add_right _ n)]

/-- A walk to an answer ends at the first object of the lineage that has one. -/
theorem alongChain_eq (hl : h.Lineage id ids) (f : Object → Option α) (hn : ids.length ≤ n) :
    h.alongChain f n id = ids.findSome? fun x => f (h.objects.get x) := by
  induction hl generalizing n with
  | root ho hp =>
    obtain ⟨n, rfl⟩ := Nat.exists_eq_add_of_lt hn
    unfold Heap.alongChain
    dsimp only
    rw [List.findSome?_cons, Store.get_of_get? ho, hp]
    rfl
  | child ho hp _ ih =>
    obtain ⟨n, rfl⟩ := Nat.exists_eq_add_of_lt hn
    unfold Heap.alongChain
    dsimp only
    rw [List.findSome?_cons, Store.get_of_get? ho, hp, ← ih (Nat.le_add_right _ n)]
    rfl

/-- A walk behind the object finds those that it inherits from. -/
theorem inheritsWithin_iff (hl : h.Lineage id ids) (hn : ids.length ≤ n + 1) :
    h.inheritsWithin n id x = true ↔ x ∈ ids.tail := by
  induction n generalizing id ids with
  | zero =>
    rw [inheritsWithin_zero]
    obtain ⟨-, rfl⟩ | ⟨p, rest, -, rfl, hrest⟩ := hl.cases_proto
    · simp only [List.tail_cons, List.not_mem_nil, Bool.false_eq_true]
    · cases hrest <;> simp at hn
  | succ n ih =>
    rw [inheritsWithin_succ]
    obtain ⟨hp, rfl⟩ | ⟨p, rest, hp, rfl, hrest⟩ := hl.cases_proto
    · simp [hp]
    · have htail := ih hrest (Nat.le_of_succ_le_succ hn)
      have hhead : x ∈ rest ↔ p = x ∨ x ∈ rest.tail := by
        cases hrest <;> simp [eq_comm]
      simp [hp, hhead, htail]

end Lineage

/-! ## What walks find -/

/-- What walks from an object find: the objects `ids`, of which it is the first one, in this order. -/
structure Lineal (h : Heap) (id : ObjectId) (ids : List ObjectId) : Prop where
  lineage : h.Lineage id ids
  /-- Nothing leads back. -/
  nodup : ids.Nodup
  length_le : ids.length ≤ h.objectCount
  /-- A walk with at least as many steps as there are objects in the list ends. -/
  walk (n : Nat) : ids.length ≤ n → h.chain n id = ids
  /-- So does one to an answer, at the first object that has one. -/
  answer {α : Type} (f : Object → Option α) (n : Nat) : ids.length ≤ n →
    h.alongChain f n id = ids.findSome? fun x => f (h.objects.get x)
  /-- A key has the value of the nearest object that has the key itself. -/
  lookup (key : String) (v : Value) : h.lookup? id key = some v ↔
    ∃ nearer x farther, ids = nearer ++ x :: farther ∧
      (∀ y ∈ nearer, (h.objects.get y).hasOwn key = false) ∧ (h.objects.get x).find? key = some v
  /-- It has none if no object has the key. -/
  lookup_none (key : String) : h.lookup? id key = none ↔ ∀ x ∈ ids, (h.objects.get x).hasOwn key = false
  has (key : String) : h.has id key = ids.any fun x => (h.objects.get x).hasOwn key
  /-- A loop goes over the keys of all objects, those of nearer ones first. -/
  keys : h.enumerableKeys id = if ids.tail = [] then (h.objects.get id).keys
    else ids.foldl (fun keys x => addKeys keys (h.objects.get x).keys) []
  inherits (p : ObjectId) : h.inherits id p = true ↔ p ∈ ids.tail

theorem findSome?_own {key : String} :
    (ids.findSome? fun x => if (h.objects.get x).hasOwn key then some () else none).isSome =
      ids.any fun x => (h.objects.get x).hasOwn key := by
  induction ids with
  | nil => rfl
  | cons x ids ih =>
    rw [List.findSome?_cons, List.any_cons, ← ih]
    by_cases hx : (h.objects.get x).hasOwn key = true <;> simp [hx]

/-- **Walks end**, and find what the lineage says. -/
theorem Lineage.lineal (hl : h.Lineage id ids) : h.Lineal id ids := by
  have hcount := hl.length_le
  have hown : ∀ (y : ObjectId) (key : String), (h.objects.get y).find? key = none ↔
      (h.objects.get y).hasOwn key = false := fun y key => by
    rw [← Object.isSome_find?, Option.isSome_eq_false_iff, Option.isNone_iff_eq_none]
  have hlookup : ∀ key, h.lookup? id key = ids.findSome? fun x => (h.objects.get x).find? key :=
    fun key => hl.alongChain_eq (·.find? key) hcount
  refine
    { lineage := hl
      nodup := hl.nodup
      length_le := hcount
      walk := fun n => hl.chain_eq
      answer := fun f n => hl.alongChain_eq f
      lookup := fun key v => ?_
      lookup_none := fun key => ?_
      has := fun key => ?_
      keys := ?_
      inherits := fun p => ?_ }
  · rw [hlookup, List.findSome?_eq_some_iff]
    simp only [hown, and_comm]
  · rw [hlookup, List.findSome?_eq_none_iff]
    simp only [hown]
  · unfold Heap.has
    rw [hl.alongChain_eq _ hcount, findSome?_own]
  · unfold Heap.enumerableKeys
    obtain ⟨hp, rfl⟩ | ⟨p, rest, hp, rfl, hrest⟩ := hl.cases_proto
    · rw [hp, List.tail_cons, if_pos rfl]
    · have hne : rest ≠ [] := by cases hrest <;> simp
      rw [hp, List.tail_cons, if_neg hne, collectKeys_eq_foldl, hl.chain_eq hcount]
  · rw [inherits_eq_within]
    exact hl.inheritsWithin_iff (Nat.le_succ_of_le hcount)

/-! ## Heaps of lineages -/

/-- Every object that exists on the first heap exists on the second one, with the same prototype. -/
def KeepsProtos (h k : Heap) : Prop :=
  ∀ id o, h.objects.get? id = some o → ∃ o', k.objects.get? id = some o' ∧ o'.proto = o.proto

namespace KeepsProtos

variable {l : Heap}

theorem refl (h : Heap) : h.KeepsProtos h := fun _ o ho => ⟨o, ho, rfl⟩

theorem trans (hk : h.KeepsProtos k) (hl : k.KeepsProtos l) : h.KeepsProtos l := fun id o ho => by
  obtain ⟨o', ho', hp⟩ := hk id o ho
  obtain ⟨o'', ho'', hp'⟩ := hl id o' ho'
  exact ⟨o'', ho'', hp'.trans hp⟩

theorem push (h : Heap) (region : Nat) (o : Object) :
    h.KeepsProtos { h with objects := h.objects.push region o } := by
  refine fun id q hq => ⟨q, ?_, rfl⟩
  change (h.objects.push region o).get? id = _
  rw [Store.get?_push, if_neg]
  · exact hq
  · rintro rfl
    rw [Store.get?_next] at hq
    cases hq

theorem modify (h : Heap) (id : ObjectId) {f : Object → Object} (hf : ∀ o, (f o).proto = o.proto) :
    h.KeepsProtos { h with objects := h.objects.modify id f } := by
  intro q o ho
  change ∃ o', (h.objects.modify id f).get? q = _ ∧ _
  rw [Store.get?_modify, ho]
  split
  · exact ⟨f o, rfl, hf o⟩
  · exact ⟨o, rfl, rfl⟩

end KeepsProtos

/-- An object that keeps its prototype keeps its lineage. -/
theorem Lineage.kept (hk : h.KeepsProtos k) (hl : h.Lineage id ids) : k.Lineage id ids := by
  induction hl with
  | root ho hp =>
    obtain ⟨o', ho', hproto⟩ := hk _ _ ho
    exact .root ho' (hproto.trans hp)
  | child ho hp _ ih =>
    obtain ⟨o', ho', hproto⟩ := hk _ _ ho
    exact .child ho' (hproto.trans hp) ih

/-- Every object has a lineage. -/
def Founded (h : Heap) : Prop := ∀ id, (h.objects.get? id).isSome → ∃ ids, h.Lineage id ids

namespace Founded

theorem of_objects (hf : h.Founded) (heq : k.objects = h.objects) : k.Founded := by
  have hk : h.KeepsProtos k := fun id o ho => ⟨o, heq ▸ ho, rfl⟩
  intro id hid
  obtain ⟨ids, hl⟩ := hf id (heq ▸ hid)
  exact ⟨ids, hl.kept hk⟩

/-- A new object stands at the head of the lineage of its prototype. -/
theorem push (hf : h.Founded) {o : Object} (ho : ∀ p, o.proto = some p → (h.objects.get? p).isSome)
    (region : Nat) : Founded { h with objects := h.objects.push region o } := by
  have hk := KeepsProtos.push h region o
  intro id hid
  by_cases hnew : id = h.objects.next region
  · have hget : (h.objects.push region o).get? id = some o := by
      rw [Store.get?_push, if_pos hnew]
    cases hp : o.proto with
    | none => exact ⟨_, .root hget hp⟩
    | some p =>
      obtain ⟨ids, hl⟩ := hf p (ho p hp)
      exact ⟨_, .child hget hp (hl.kept hk)⟩
  · obtain ⟨ids, hl⟩ := hf id (Store.isSome_of_push hnew hid)
    exact ⟨ids, hl.kept hk⟩

theorem modify (hf : h.Founded) (id : ObjectId) {f : Object → Object}
    (hproto : ∀ o, (f o).proto = o.proto) :
    Founded { h with objects := h.objects.modify id f } := by
  intro q hq
  obtain ⟨ids, hl⟩ := hf q (Store.isSome_of_modify hq)
  exact ⟨ids, hl.kept (KeepsProtos.modify h id hproto)⟩

/-- Walks from every object end. -/
theorem lineal (hf : h.Founded) (hid : (h.objects.get? id).isSome) : ∃ ids, h.Lineal id ids :=
  have ⟨ids, hl⟩ := hf id hid
  ⟨ids, hl.lineal⟩

end Founded

end Fermata.Heap
