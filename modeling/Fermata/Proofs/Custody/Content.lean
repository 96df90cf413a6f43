import Fermata.Link.Prune

/-!
# What objects hold

Writing to an object puts a value into it and moves others about; reading takes one out. None of this
makes up a reference: whatever is true of all cells that an object and a new value refer to stays true
of the object (`Object.Stores`, and with its prototype `Object.Within`), and is true of every value that
is read from it. A write leaves the prototype alone.

* `Object.Stores.put`, `Object.Stores.pushAll`, `Object.Stores.erase`: writing.
* `Object.Stores.find?`, `Object.Stores.values`, `Object.Stores.entries`: reading.
-/

namespace Fermata

variable {P : Cell → Prop}

/-- What the value refers to, if anything, is of `P`. -/
def Value.Within (P : Cell → Prop) (v : Value) : Prop := ∀ x, Cell.ofValue? v = some x → P x

namespace Value

theorem Within.mono {Q : Cell → Prop} {v : Value} (hPQ : ∀ x, P x → Q x) (hv : v.Within P) :
    v.Within Q :=
  fun x hx => hPQ x (hv x hx)

/-- The value refers to nothing. -/
theorem within_plain {v : Value} (hv : Cell.ofValue? v = none) : v.Within P := by
  intro x hx
  rw [hv] at hx
  cases hx

@[simp] theorem within_undefined : Within P .undefined := within_plain rfl
@[simp] theorem within_null : Within P .null := within_plain rfl
@[simp] theorem within_bool (b : Bool) : Within P (.bool b) := within_plain rfl
@[simp] theorem within_number (x : Float) : Within P (.number x) := within_plain rfl
@[simp] theorem within_string (s : String) : Within P (.string s) := within_plain rfl
@[simp] theorem within_ofNat (n : Nat) : Within P (.ofNat n) := within_plain rfl

/-- What the value refers to is one cell. -/
theorem within_cell {v : Value} {x : Cell} (hv : Cell.ofValue? v = some x) : v.Within P ↔ P x := by
  constructor
  · intro h
    exact h x hv
  · intro hx y hy
    rw [hv] at hy
    cases hy
    exact hx

@[simp] theorem within_object (id : ObjectId) : Within P (.object id) ↔ P (.object id) :=
  within_cell rfl
@[simp] theorem within_function (id : ClosureId) : Within P (.function id) ↔ P (.closure id) :=
  within_cell rfl
@[simp] theorem within_native (id : NativeId) : Within P (.native id) ↔ P (.native id) :=
  within_cell rfl
@[simp] theorem within_pending (id : PendingId) : Within P (.pending id) ↔ P (.pending id) :=
  within_cell rfl

theorem within_getD {v : Option Value} (hv : ∀ w, v = some w → w.Within P) :
    (v.getD .undefined).Within P := by
  cases v with
  | none => exact within_undefined
  | some w => exact hv w rfl

end Value

/-- The cells of values are of `P` exactly if the values are. -/
theorem Cell.forall_ofValues {vs : List Value} :
    (∀ x ∈ Cell.ofValues vs, P x) ↔ ∀ v ∈ vs, v.Within P := by
  constructor
  · intro h v hv x hx
    exact h x (List.mem_filterMap.mpr ⟨v, hv, hx⟩)
  · intro h x hx
    obtain ⟨v, hv, hcell⟩ := List.mem_filterMap.mp hx
    exact h v hv x hcell

/-- A settlement is held by the value that it settled. -/
theorem Pending.value_mem_held {q : Pending} {s : Settlement} (h : q.settlement? = some s) :
    s.value ∈ q.held := by
  cases q with
  | settled t =>
    cases h
    exact List.mem_cons_self
  | _ => cases h

/-- So is what settles the value by itself. -/
theorem Pending.due_mem_held {q : Pending} {τ : Settlement} (h : q.due? = some τ) :
    τ.value ∈ q.held := by
  cases q with
  | scheduled σ =>
    cases h
    exact List.mem_cons_self
  | unsettled | settled => cases h

/-- The values of the object are of `P`, whatever its prototype is. -/
structure Object.Stores (P : Cell → Prop) (o : Object) : Prop where
  elements : ∀ v ∈ o.elements, v.Within P
  properties : ∀ p ∈ o.properties, p.value.Within P

/-- Everything that the object holds is of `P`. -/
structure Object.Within (P : Cell → Prop) (o : Object) : Prop where
  elements : ∀ v ∈ o.elements, v.Within P
  properties : ∀ p ∈ o.properties, p.value.Within P
  proto : ∀ p, o.proto = some p → P (.object p)

namespace Object

variable {o : Object} {v : Value}

theorem within_iff : o.Within P ↔ ∀ x ∈ Cell.ofValues o.held, P x := by
  rw [Cell.forall_ofValues]
  simp only [held, List.mem_append, List.mem_map, Option.mem_toList, Option.map_eq_some_iff,
    Array.mem_toList_iff]
  constructor
  · rintro h v ((hv | ⟨p, hp, rfl⟩) | ⟨p, hp, rfl⟩)
    · exact h.elements v hv
    · exact h.properties p hp
    · exact (Value.within_object p).mpr (h.proto p hp)
  · intro h
    refine ⟨fun v hv => h v (.inl (.inl hv)), fun p hp => h _ (.inl (.inr ⟨p, hp, rfl⟩)), ?_⟩
    exact fun p hp => (Value.within_object p).mp (h _ (.inr ⟨p, hp, rfl⟩))

theorem Within.stores (ho : o.Within P) : o.Stores P := ⟨ho.elements, ho.properties⟩

theorem Stores.within (ho : o.Stores P) (hproto : ∀ p, o.proto = some p → P (.object p)) :
    o.Within P :=
  ⟨ho.elements, ho.properties, hproto⟩

theorem Stores.mono {Q : Cell → Prop} (hPQ : ∀ x, P x → Q x) (ho : o.Stores P) : o.Stores Q :=
  ⟨fun v hv => (ho.elements v hv).mono hPQ, fun p hp => (ho.properties p hp).mono hPQ⟩

/-! ## Making -/

theorem stores_ofList {vs : List Value} (hvs : ∀ v ∈ vs, v.Within P) : (ofList vs).Stores P :=
  ⟨fun v hv => hvs v (List.mem_toArray.mp hv), fun _ hp => absurd hp List.not_mem_nil⟩

theorem stores_empty (proto : Option ObjectId) : (empty proto).Stores P :=
  ⟨fun _ hv => absurd hv (Array.not_mem_empty _), fun _ hp => absurd hp List.not_mem_nil⟩

theorem stores_ofFunction : ofFunction.Stores P :=
  ⟨fun _ hv => absurd hv (Array.not_mem_empty _), fun _ hp => absurd hp List.not_mem_nil⟩

theorem stores_ofError (name message : String) : (ofError name message).Stores P := by
  refine ⟨fun _ hv => absurd hv (Array.not_mem_empty _), fun p hp => ?_⟩
  simp only [ofError, List.mem_cons, List.not_mem_nil, or_false] at hp
  rcases hp with rfl | rfl <;> exact Value.within_string _

theorem within_ofList {vs : List Value} (hvs : ∀ v ∈ vs, v.Within P) : (ofList vs).Within P :=
  (stores_ofList hvs).within nofun

theorem within_empty {proto : Option ObjectId} (hproto : ∀ p, proto = some p → P (.object p)) :
    (empty proto).Within P :=
  (stores_empty proto).within hproto

theorem within_empty_none : (empty none).Within P := within_empty nofun

theorem within_ofFunction : ofFunction.Within P := stores_ofFunction.within nofun

theorem within_ofError (name message : String) : (ofError name message).Within P :=
  (stores_ofError name message).within nofun

/-! ## Reading -/

theorem Stores.stored? {key : String} {p : Property} (ho : o.Stores P)
    (hp : o.stored? key = some p) : p.value.Within P :=
  ho.properties p (List.mem_of_find?_eq_some hp)

theorem Stores.find? {key : String} (ho : o.Stores P) (hv : o.find? key = some v) : v.Within P := by
  have hstored : ∀ w, (o.stored? key).map (·.value) = some w → w.Within P := by
    intro w hw
    obtain ⟨p, hp, rfl⟩ := Option.map_eq_some_iff.mp hw
    exact ho.stored? hp
  unfold Object.find? at hv
  dsimp only at hv
  split at hv
  · split at hv
    · cases hv
      exact Value.within_ofNat _
    · split at hv
      · rcases Option.or_eq_some_iff.mp hv with he | ⟨-, hs⟩
        · exact ho.elements v (Array.mem_of_getElem? he)
        · exact hstored v hs
      · exact hstored v hv
  · exact hstored v hv

theorem mem_insertByIndex {e f : Nat × Property} {l : List (Nat × Property)}
    (h : f ∈ insertByIndex e l) : f = e ∨ f ∈ l := by
  induction l with
  | nil => exact .inl (List.mem_singleton.mp h)
  | cons g l ih =>
    unfold insertByIndex at h
    split at h
    · exact List.mem_cons.mp h
    · rcases List.mem_cons.mp h with rfl | h
      · exact .inr List.mem_cons_self
      · exact (ih h).imp_right (List.mem_cons_of_mem g)

/-- The indices kept among the properties are properties. -/
theorem mem_sparse {e : Nat × Property} (h : e ∈ o.sparse) : e.2 ∈ o.properties := by
  have hfold : ∀ (es sorted : List (Nat × Property)),
      e ∈ es.foldl (fun sorted e => insertByIndex e sorted) sorted → e ∈ es ∨ e ∈ sorted := by
    intro es
    induction es with
    | nil => exact fun _ h => .inr h
    | cons d es ih =>
      intro sorted h
      rcases ih _ h with h | h
      · exact .inl (List.mem_cons_of_mem d h)
      · rcases mem_insertByIndex h with rfl | h
        · exact .inl List.mem_cons_self
        · exact .inr h
  unfold sparse at h
  split at h
  · rcases hfold _ _ h with h | h
    · obtain ⟨p, hp, he⟩ := List.mem_filterMap.mp h
      obtain ⟨i, -, rfl⟩ := Option.map_eq_some_iff.mp he
      exact hp
    · cases h
  · cases h

theorem Stores.values (ho : o.Stores P) : ∀ v ∈ o.values, v.Within P := by
  intro v hv
  unfold Object.values at hv
  dsimp only at hv
  split at hv
  · rcases List.mem_append.mp hv with hv | hv
    · exact ho.elements v (Array.mem_toList_iff.mp (List.mem_of_mem_take hv))
    · obtain ⟨k, -, rfl⟩ := List.mem_map.mp hv
      exact Value.within_getD fun w hw => ho.find? hw
  · rcases List.mem_append.mp hv with hv | hv
    · exact ho.elements v (Array.mem_toList_iff.mp hv)
    · obtain ⟨e, he, rfl⟩ := List.mem_map.mp hv
      exact ho.properties _ (mem_sparse he)

theorem Stores.entries (ho : o.Stores P) : ∀ e ∈ o.entries, e.2.Within P := by
  intro e he
  unfold Object.entries at he
  rcases List.mem_append.mp he with he | he
  · rcases List.mem_append.mp he with he | he
    · obtain ⟨⟨v, i⟩, hv, rfl⟩ := List.mem_map.mp he
      exact ho.elements v (Array.mem_toList_iff.mp (List.fst_mem_of_mem_zipIdx hv))
    · obtain ⟨d, hd, rfl⟩ := List.mem_map.mp he
      exact ho.properties _ (mem_sparse hd)
  · obtain ⟨p, hp, rfl⟩ := List.mem_map.mp he
    exact ho.properties p (List.mem_filter.mp hp).1

theorem Stores.pop_fst (ho : o.Stores P) : o.pop.1.Within P := by
  unfold Object.pop
  split
  · exact Value.within_undefined
  · exact Value.within_getD fun w hw => ho.find? hw

/-! ## Writing -/

theorem Stores.store {key : String} {enumerable : Bool} (ho : o.Stores P) (hv : v.Within P) :
    (o.store key v enumerable).Stores P := by
  unfold Object.store
  split
  · refine ⟨ho.elements, fun p hp => ?_⟩
    obtain ⟨q, hq, rfl⟩ := List.mem_map.mp hp
    split
    · exact hv
    · exact ho.properties q hq
  · refine ⟨ho.elements, fun p hp => ?_⟩
    rcases List.mem_append.mp hp with hp | hp
    · exact ho.properties p hp
    · rw [List.mem_singleton.mp hp]
      exact hv

theorem takeReached?_some {size i : Nat} {w : Value} {ps rest : List Property}
    (h : takeReached? size ps = some (i, w, rest)) :
    (∃ p ∈ ps, p.value = w) ∧ ∀ p ∈ rest, p ∈ ps := by
  induction ps generalizing i w rest with
  | nil => cases h
  | cons p ps ih =>
    unfold takeReached? at h
    split at h
    · cases h
      exact ⟨⟨p, List.mem_cons_self, rfl⟩, fun q hq => List.mem_cons_of_mem p hq⟩
    · obtain ⟨⟨j, u, more⟩, hmore, heq⟩ := Option.map_eq_some_iff.mp h
      cases heq
      obtain ⟨⟨q, hq, hw⟩, hrest⟩ := ih hmore
      refine ⟨⟨q, List.mem_cons_of_mem p hq, hw⟩, fun q hq => ?_⟩
      rcases List.mem_cons.mp hq with rfl | hq
      · exact List.mem_cons_self
      · exact List.mem_cons_of_mem p (hrest q hq)

theorem within_setIfInBounds {es : Array Value} {i : Nat} (hes : ∀ w ∈ es, w.Within P)
    (hv : v.Within P) : ∀ w ∈ es.setIfInBounds i v, w.Within P := by
  intro w hw
  rcases Array.mem_or_eq_of_mem_setIfInBounds hw with hw | rfl
  · exact hes w hw
  · exact hv

theorem within_push {es : Array Value} (hes : ∀ w ∈ es, w.Within P) (hv : v.Within P) :
    ∀ w ∈ es.push v, w.Within P := by
  intro w hw
  rcases Array.mem_push.mp hw with hw | rfl
  · exact hes w hw
  · exact hv

theorem Stores.absorb (fuel : Nat) (ho : o.Stores P) : (o.absorb fuel).Stores P := by
  induction fuel generalizing o with
  | zero => exact ho
  | succ fuel ih =>
    unfold Object.absorb
    split
    · rename_i i w rest htake
      obtain ⟨⟨p, hp, hw⟩, hrest⟩ := takeReached?_some htake
      have hw : w.Within P := hw ▸ ho.properties p hp
      refine ih ⟨?_, fun q hq => ho.properties q (hrest q hq)⟩
      dsimp only
      split
      · exact within_push ho.elements hw
      · exact within_setIfInBounds ho.elements hw
    · exact ho

theorem Stores.putIndex {i : Nat} (ho : o.Stores P) (hv : v.Within P) :
    (o.putIndex i v).Stores P := by
  unfold Object.putIndex
  dsimp only
  split
  · exact ⟨within_setIfInBounds ho.elements hv, ho.properties⟩
  · split
    · refine Stores.absorb _ ⟨within_push (fun w hw => ?_) hv, ho.properties⟩
      rcases Array.mem_append.mp hw with hw | hw
      · exact ho.elements w hw
      · rw [(Array.mem_replicate.mp hw).2]
        exact Value.within_undefined
    · have hs : (o.store (toString i) v true).Stores P := ho.store hv
      exact ⟨hs.elements, hs.properties⟩

theorem Stores.setLength {n : Nat} (ho : o.Stores P) : (o.setLength n).Stores P := by
  refine ⟨fun w hw => ho.elements w ?_, fun p hp => ho.properties p (List.mem_filter.mp hp).1⟩
  obtain ⟨i, hi, rfl⟩ := Array.mem_extract_iff_getElem.mp hw
  exact Array.getElem_mem _

/-- Writing a key puts the value in and nothing else. -/
theorem Stores.put {key : String} {n : Nat} {enumerable : Bool} (ho : o.Stores P)
    (hv : v.Within P) : (o.put key v n enumerable).Stores P := by
  unfold Object.put
  split
  · split
    · exact ho.setLength
    · split
      · exact ho.putIndex hv
      · exact ho.store hv
  · exact ho.store hv

theorem Stores.erase {key : String} (ho : o.Stores P) : (o.erase key).Stores P := by
  have hremoved : ({ o with properties := o.properties.eraseP (·.key == key) } : Object).Stores P :=
    ⟨ho.elements, fun p hp => ho.properties p (List.mem_of_mem_eraseP hp)⟩
  unfold Object.erase
  dsimp only
  split
  · split
    · split
      · exact ⟨within_setIfInBounds ho.elements Value.within_undefined, ho.properties⟩
      · exact hremoved
    · exact hremoved
  · exact hremoved

theorem Stores.pushAll {vs : List Value} (ho : o.Stores P) (hvs : ∀ v ∈ vs, v.Within P) :
    (o.pushAll vs).Stores P := by
  induction vs generalizing o with
  | nil => exact ho
  | cons v vs ih =>
    unfold Object.pushAll
    split
    · exact ho
    · exact ih (ho.putIndex (hvs v List.mem_cons_self)) fun w hw => hvs w (List.mem_cons_of_mem v hw)

theorem Stores.pop_snd (ho : o.Stores P) : o.pop.2.Stores P := by
  unfold Object.pop
  split
  · exact ho
  · exact ho.setLength

/-! ## Prototypes -/

@[simp]
theorem proto_store (o : Object) (key : String) (v : Value) (enumerable : Bool) :
    (o.store key v enumerable).proto = o.proto := by
  unfold Object.store
  split <;> rfl

@[simp]
theorem proto_absorb (fuel : Nat) (o : Object) : (o.absorb fuel).proto = o.proto := by
  induction fuel generalizing o with
  | zero => rfl
  | succ fuel ih =>
    unfold Object.absorb
    split
    · exact ih _
    · rfl

@[simp]
theorem proto_putIndex (o : Object) (i : Nat) (v : Value) : (o.putIndex i v).proto = o.proto := by
  unfold Object.putIndex
  dsimp only
  split
  · rfl
  · split
    · exact proto_absorb _ _
    · exact proto_store o _ _ _

@[simp]
theorem proto_setLength (o : Object) (n : Nat) : (o.setLength n).proto = o.proto := rfl

@[simp]
theorem proto_put (o : Object) (key : String) (v : Value) (n : Nat) (enumerable : Bool) :
    (o.put key v n enumerable).proto = o.proto := by
  unfold Object.put
  split
  · split
    · exact proto_setLength o n
    · split
      · exact proto_putIndex o _ v
      · exact proto_store o key v enumerable
  · exact proto_store o key v enumerable

@[simp]
theorem proto_erase (o : Object) (key : String) : (o.erase key).proto = o.proto := by
  unfold Object.erase
  dsimp only
  split
  · split
    · split <;> rfl
    · rfl
  · rfl

@[simp]
theorem proto_pushAll (o : Object) (vs : List Value) : (o.pushAll vs).proto = o.proto := by
  induction vs generalizing o with
  | nil => rfl
  | cons v vs ih =>
    unfold Object.pushAll
    split
    · rfl
    · exact (ih _).trans (proto_putIndex o _ v)

@[simp]
theorem proto_pop_snd (o : Object) : o.pop.2.proto = o.proto := by
  unfold Object.pop
  split
  · rfl
  · exact proto_setLength o _

/-! ## With the prototype -/

theorem Within.find? {key : String} (ho : o.Within P) (hv : o.find? key = some v) : v.Within P :=
  ho.stores.find? hv

theorem Within.values (ho : o.Within P) : ∀ v ∈ o.values, v.Within P := ho.stores.values

theorem Within.entries (ho : o.Within P) : ∀ e ∈ o.entries, e.2.Within P := ho.stores.entries

theorem Within.put {key : String} {n : Nat} {enumerable : Bool} (ho : o.Within P)
    (hv : v.Within P) : (o.put key v n enumerable).Within P :=
  (ho.stores.put hv).within (by simpa using ho.proto)

theorem Within.erase {key : String} (ho : o.Within P) : (o.erase key).Within P :=
  ho.stores.erase.within (by simpa using ho.proto)

theorem Within.pushAll {vs : List Value} (ho : o.Within P) (hvs : ∀ v ∈ vs, v.Within P) :
    (o.pushAll vs).Within P :=
  (ho.stores.pushAll hvs).within (by simpa using ho.proto)

theorem Within.pop_fst (ho : o.Within P) : o.pop.1.Within P := ho.stores.pop_fst

theorem Within.pop_snd (ho : o.Within P) : o.pop.2.Within P :=
  ho.stores.pop_snd.within (by simpa using ho.proto)

end Object

end Fermata
