import Fermata.Heap.Convert
import Fermata.Proofs.Array.Index

/-!
# Packed arrays

In a packed array the dense run ends before the first index that is kept among the properties, and
all indices lie below the length. Every operation on an array leaves it packed. The one that comes
close to breaking it is a write that makes the dense run longer: the run may then reach properties,
and `Object.absorb` takes them over one after the other. Until it is done the array is only
`Bounded`.

* `Object.Bounded`, `Object.Packed`: the shape of an array,
* `Object.absorb_settled`, `Object.absorb_eq`: taking over ends, after at most one round for each
  property,
* `Object.Packed.put`, `.erase`, `.pushAll`, `.pop`: what each operation leaves behind,
* `Object.Made`: what operations make of an array, `Object.made_packed`: its shape.
-/

namespace Fermata.Object

variable {o : Object} {key : String} {v : Value} {i n : Nat}

/-- The keys of the properties. -/
def names (o : Object) : List String := o.properties.map (·.key)

/-- The shape of an array while its dense run may have reached properties. -/
structure Bounded (o : Object) : Prop where
  array : o.isArray = true
  dense : o.elements.size ≤ o.length
  length : o.length ≤ maxArrayLength
  distinct : o.names.Nodup
  unnamed : "length" ∉ o.names
  sparse : ∀ key ∈ o.names, ∀ i, arrayIndex? key = some i → i < o.length

/-- The shape of an array between operations: its dense run has not reached any property. -/
structure Packed (o : Object) : Prop extends Bounded o where
  apart : ∀ key ∈ o.names, ∀ i, arrayIndex? key = some i → o.elements.size < i

/-- The dense run reaches no property. -/
def Settled (o : Object) : Prop := takeReached? o.elements.size o.properties = none

/-! ## Properties and their keys -/

/-- A property is stored under a key if the key is one of the names. -/
theorem isSome_stored? : (o.stored? key).isSome = true ↔ key ∈ o.names := by
  simp [stored?, names]

/-- No property is stored under a key that is none of the names. -/
theorem stored?_eq_none : o.stored? key = none ↔ key ∉ o.names := by
  rw [← isSome_stored?, Bool.not_eq_true, Option.isSome_eq_false_iff, Option.isNone_iff_eq_none]

/-- Storing a property adds its key at the end, unless it is there. -/
theorem names_store {enumerable : Bool} :
    (o.store key v enumerable).names = if key ∈ o.names then o.names else o.names ++ [key] := by
  unfold store
  simp only [isSome_stored?]
  split
  · simp only [names, List.map_map]
    refine List.map_congr_left fun p _ => ?_
    simp only [Function.comp_apply]
    split <;> rfl
  · simp [names]

@[simp]
theorem elements_store {enumerable : Bool} : (o.store key v enumerable).elements = o.elements := by
  unfold store
  split <;> rfl

@[simp]
theorem length_store {enumerable : Bool} : (o.store key v enumerable).length = o.length := by
  unfold store
  split <;> rfl

@[simp]
theorem isArray_store {enumerable : Bool} : (o.store key v enumerable).isArray = o.isArray := by
  unfold store
  split <;> rfl

/-- An array with fewer properties and a shorter dense run, all below its length. -/
theorem Packed.of_sublist {o' : Object} (ho : o.Packed) (harray : o'.isArray = o.isArray)
    (hnames : o'.names.Sublist o.names) (hdense : o'.elements.size ≤ o.elements.size)
    (hlength : o'.elements.size ≤ o'.length) (hmax : o'.length ≤ maxArrayLength)
    (hsparse : ∀ key ∈ o'.names, ∀ i, arrayIndex? key = some i → i < o'.length) : o'.Packed where
  array := harray.trans ho.array
  dense := hlength
  length := hmax
  distinct := ho.distinct.sublist hnames
  unnamed h := ho.unnamed (hnames.subset h)
  sparse := hsparse
  apart key hkey i hi := Nat.lt_of_le_of_lt hdense (ho.apart key (hnames.subset hkey) i hi)

/-- Storing a property behind the dense run, below a length that is no smaller than before. -/
theorem Packed.store {enumerable : Bool} (ho : o.Packed) (hlength : o.length ≤ n)
    (hmax : n ≤ maxArrayLength) (hkey : key ≠ "length")
    (hindex : ∀ i, arrayIndex? key = some i → o.elements.size < i ∧ i < n) :
    ({ o.store key v enumerable with length := n } : Object).Packed := by
  have hmem : ∀ k, k ∈ (o.store key v enumerable).names → k ∈ o.names ∨ k = key := by
    intro k hk
    rw [names_store] at hk
    split at hk
    · exact .inl hk
    · simpa using hk
  refine ⟨⟨?_, ?_, hmax, ?_, fun h => ?_, fun k hk i hi => ?_⟩, fun k hk i hi => ?_⟩
  · exact isArray_store.trans ho.array
  · show (o.store key v enumerable).elements.size ≤ n
    rw [elements_store]
    exact Nat.le_trans ho.dense hlength
  · show (o.store key v enumerable).names.Nodup
    rw [names_store]
    split
    next => exact ho.distinct
    next h =>
      refine List.nodup_append.mpr ⟨ho.distinct, by simp, fun a ha b hb => ?_⟩
      rintro rfl
      exact h (List.mem_singleton.mp hb ▸ ha)
  · exact (hmem _ h).elim ho.unnamed (hkey ·.symm)
  · obtain hk | rfl := hmem k hk
    · exact Nat.lt_of_lt_of_le (ho.sparse k hk i hi) hlength
    · exact (hindex i hi).2
  · show (o.store key v enumerable).elements.size < i
    rw [elements_store]
    obtain hk | rfl := hmem k hk
    · exact ho.apart k hk i hi
    · exact (hindex i hi).1

/-! ## Taking over what the dense run reaches -/

/-- The property that is taken stands somewhere in the list, and its index is reached. -/
theorem takeReached?_eq_some {size : Nat} {ps rest : List Property}
    (h : takeReached? size ps = some (i, v, rest)) :
    ∃ p before after, ps = before ++ p :: after ∧ rest = before ++ after ∧ p.value = v ∧
      arrayIndex? p.key = some i ∧ i ≤ size := by
  induction ps generalizing rest with
  | nil => simp [takeReached?] at h
  | cons p ps ih =>
    unfold takeReached? at h
    split at h
    next j hj =>
      obtain ⟨hindex, hle⟩ := Option.filter_eq_some_iff.mp hj
      cases h
      exact ⟨p, [], ps, rfl, rfl, rfl, hindex, of_decide_eq_true hle⟩
    next =>
      obtain ⟨⟨j, w, tail⟩, htake, heq⟩ := Option.map_eq_some_iff.mp h
      cases heq
      obtain ⟨q, before, after, rfl, rfl, hq⟩ := ih htake
      exact ⟨q, p :: before, after, rfl, rfl, hq⟩

/-- Nothing is taken if no property has a reached index. -/
theorem takeReached?_eq_none {size : Nat} {ps : List Property} :
    takeReached? size ps = none ↔ ∀ p ∈ ps, ∀ i, arrayIndex? p.key = some i → size < i := by
  induction ps with
  | nil => simp [takeReached?]
  | cons p ps ih =>
    unfold takeReached?
    rw [List.forall_mem_cons, ← ih]
    split
    next i hi =>
      obtain ⟨hindex, hle⟩ := Option.filter_eq_some_iff.mp hi
      have hle := of_decide_eq_true hle
      simp only [reduceCtorEq, false_iff, not_and]
      exact fun h => absurd (h i hindex) (by omega)
    next hnone =>
      rw [Option.map_eq_none_iff, Option.filter_eq_none_iff] at *
      simp only [decide_eq_true_eq, Nat.not_le] at hnone
      exact ⟨fun h => ⟨hnone, h⟩, And.right⟩

/-- Without rounds, nothing is taken over. -/
theorem absorb_zero : o.absorb 0 = o := rfl

/-- A settled array is one that taking over leaves alone. -/
theorem absorb_of_settled (h : o.Settled) (fuel : Nat) : o.absorb fuel = o := by
  cases fuel with
  | zero => exact absorb_zero
  | succ fuel =>
    unfold absorb
    rw [h]

/-- The array after one round. -/
def takeIn (o : Object) (i : Nat) (v : Value) (rest : List Property) : Object :=
  { o with
    elements := if i = o.elements.size then o.elements.push v else o.elements.setIfInBounds i v
    properties := rest }

/-- One round and then the others. -/
theorem absorb_succ {fuel : Nat} {rest : List Property}
    (h : takeReached? o.elements.size o.properties = some (i, v, rest)) :
    o.absorb (fuel + 1) = (o.takeIn i v rest).absorb fuel := by
  rw [absorb, h]
  rfl

/-- Taking over ends: as many rounds as there are properties are enough. -/
theorem absorb_settled {fuel : Nat} (h : o.properties.length ≤ fuel) : (o.absorb fuel).Settled := by
  induction fuel generalizing o with
  | zero =>
    have hnil : o.properties = [] := List.length_eq_zero_iff.mp (Nat.le_zero.mp h)
    rw [absorb_zero, Settled, hnil]
    rfl
  | succ fuel ih =>
    cases htake : takeReached? o.elements.size o.properties with
    | none =>
      rw [absorb_of_settled htake]
      exact htake
    | some taken =>
      obtain ⟨i, v, rest⟩ := taken
      obtain ⟨p, before, after, hps, rfl, -⟩ := takeReached?_eq_some htake
      rw [absorb_succ htake]
      refine ih ?_
      rw [hps] at h
      simp only [takeIn, List.length_append, List.length_cons] at h ⊢
      omega

/-- Rounds can be counted in two parts. -/
theorem absorb_add (a b : Nat) : o.absorb (a + b) = (o.absorb a).absorb b := by
  induction a generalizing o with
  | zero => rw [Nat.zero_add, absorb_zero]
  | succ a ih =>
    cases htake : takeReached? o.elements.size o.properties with
    | none => rw [absorb_of_settled htake, absorb_of_settled htake, absorb_of_settled htake]
    | some taken =>
      rw [Nat.add_right_comm, absorb_succ htake, absorb_succ htake]
      exact ih

/-- More rounds than there are properties make no difference. -/
theorem absorb_eq {fuel : Nat} (h : o.properties.length ≤ fuel) :
    o.absorb fuel = o.absorb o.properties.length := by
  obtain ⟨extra, rfl⟩ := Nat.exists_eq_add_of_le h
  rw [absorb_add, absorb_of_settled (absorb_settled (Nat.le_refl _))]

/-- What holds of an array between any two rounds holds when taking over ends. -/
theorem absorb_induct {P : Object → Prop} (fuel : Nat) (ho : P o)
    (hround : ∀ o i v rest, takeReached? o.elements.size o.properties = some (i, v, rest) →
      P o → P (o.takeIn i v rest)) : P (o.absorb fuel) := by
  induction fuel generalizing o with
  | zero => exact ho
  | succ fuel ih =>
    cases htake : takeReached? o.elements.size o.properties with
    | none =>
      rw [absorb_of_settled htake]
      exact ho
    | some taken =>
      obtain ⟨i, v, rest⟩ := taken
      rw [absorb_succ htake]
      exact ih (hround o i v rest htake ho)

/-- A round makes the dense run longer by one at most, and up to the index that it takes. -/
theorem size_takeIn {rest : List Property} (hi : i ≤ o.elements.size) :
    (o.takeIn i v rest).elements.size = max o.elements.size (i + 1) := by
  unfold takeIn
  dsimp only
  split
  · rw [Array.size_push]
    omega
  · rw [Array.size_setIfInBounds]
    omega

/-- What the dense run holds after a round. -/
theorem getElem?_takeIn {rest : List Property} (hi : i ≤ o.elements.size) (j : Nat) :
    (o.takeIn i v rest).elements[j]? = if j = i then some v else o.elements[j]? := by
  unfold takeIn
  dsimp only
  split
  next h =>
    rw [Array.getElem?_push, h]
  next h =>
    rw [Array.getElem?_setIfInBounds]
    grind

/-- A round keeps the array bounded. -/
theorem Bounded.takeIn {rest : List Property} (ho : o.Bounded)
    (htake : takeReached? o.elements.size o.properties = some (i, v, rest)) :
    (o.takeIn i v rest).Bounded := by
  obtain ⟨p, before, after, hps, rfl, -, hindex, hle⟩ := takeReached?_eq_some htake
  have hsub : ((before ++ after).map (·.key)).Sublist o.names := by
    unfold names
    rw [hps]
    exact (List.Sublist.append_left (List.sublist_cons_self p after) before).map _
  have hi : i < o.length := ho.sparse p.key (by simp [names, hps]) i hindex
  refine ⟨ho.array, ?_, ho.length, ho.distinct.sublist hsub, fun h => ho.unnamed (hsub.subset h),
    fun key hkey => ho.sparse key (hsub.subset hkey)⟩
  rw [size_takeIn hle]
  exact Nat.max_le.mpr ⟨ho.dense, hi⟩

/-- Taking over keeps the array bounded. -/
theorem Bounded.absorb (ho : o.Bounded) (fuel : Nat) : (o.absorb fuel).Bounded :=
  absorb_induct fuel ho fun _ _ _ _ htake ho => ho.takeIn htake

/-- A bounded array is packed once taking over has ended. -/
theorem Bounded.packed (ho : o.Bounded) (hsettled : o.Settled) : o.Packed where
  toBounded := ho
  apart key hkey i hi := by
    obtain ⟨p, hp, rfl⟩ := List.mem_map.mp hkey
    exact takeReached?_eq_none.mp hsettled p hp i hi

/-! ## The operations -/

/-- Extending the dense run over a gap, up to an index, keeps the array bounded. -/
theorem Packed.extend (ho : o.Packed) (hi : i < maxArrayLength) (hgap : o.elements.size ≤ i) :
    Bounded
      { o with
        elements := (o.elements ++ Array.replicate (i - o.elements.size) Value.undefined).push v
        length := max o.length (i + 1) } where
  array := ho.array
  dense := by
    rw [Array.size_push, Array.size_append, Array.size_replicate]
    show _ ≤ max o.length (i + 1)
    omega
  length := Nat.max_le.mpr ⟨ho.length, hi⟩
  distinct := ho.distinct
  unnamed := ho.unnamed
  sparse key hkey j hj := Nat.lt_of_lt_of_le (ho.sparse key hkey j hj) (Nat.le_max_left _ _)

theorem Packed.putIndex (ho : o.Packed) (hi : i < maxArrayLength) : (o.putIndex i v).Packed := by
  have hmax : max o.length (i + 1) ≤ maxArrayLength := Nat.max_le.mpr ⟨ho.length, hi⟩
  unfold Object.putIndex
  dsimp only
  split
  next hdense =>
    refine ho.of_sublist rfl (List.Sublist.refl _) ?_ ?_ hmax fun key hkey j hj => ?_
    · exact Nat.le_of_eq Array.size_setIfInBounds
    · rw [Array.size_setIfInBounds]
      exact Nat.le_trans ho.dense (Nat.le_max_left _ _)
    · exact Nat.lt_of_lt_of_le (ho.sparse key hkey j hj) (Nat.le_max_left _ _)
  next hdense =>
    split
    next => exact ((ho.extend hi (by omega)).absorb _).packed (absorb_settled (Nat.le_refl _))
    next hfar =>
      have hkey := arrayIndex?_toString hi
      refine ho.store (Nat.le_max_left _ _) hmax (ne_length_of_arrayIndex? hkey) fun j hj => ?_
      rw [hkey] at hj
      cases hj
      unfold maxDenseGap at hfar
      omega

theorem Packed.setLength (ho : o.Packed) (hn : n ≤ maxArrayLength) : (o.setLength n).Packed := by
  refine ho.of_sublist rfl (List.filter_sublist.map _) ?_ ?_ hn fun key hkey i hi => ?_
  · simp only [Object.setLength, Array.take_eq_extract, Array.size_extract]
    omega
  · simp only [Object.setLength, Array.take_eq_extract, Array.size_extract]
    omega
  · obtain ⟨p, hp, rfl⟩ := List.mem_map.mp hkey
    have hkept := (List.mem_filter.mp hp).2
    rw [hi] at hkept
    exact of_decide_eq_true hkept

theorem Packed.put {enumerable : Bool} (ho : o.Packed) (hn : n ≤ maxArrayLength) :
    (o.put key v n enumerable).Packed := by
  unfold Object.put
  rw [if_pos ho.array]
  split
  next => exact ho.setLength hn
  next hkey =>
    split
    next i hi => exact ho.putIndex (arrayIndex?_eq_some_iff.mp hi).2
    next hnone =>
      have hstore : ({ o.store key v enumerable with length := o.length } : Object).Packed :=
        ho.store (Nat.le_refl _) ho.length hkey (by simp [hnone])
      rwa [show o.length = (o.store key v enumerable).length from length_store.symm] at hstore

theorem Packed.erase (ho : o.Packed) : (o.erase key).Packed := by
  have hremoved : ({ o with properties := o.properties.eraseP (·.key == key) } : Object).Packed :=
    have hsub : ((o.properties.eraseP (·.key == key)).map (·.key)).Sublist o.names :=
      List.eraseP_sublist.map _
    ho.of_sublist rfl hsub (Nat.le_refl _) ho.dense ho.length
      fun k hk => ho.sparse k (hsub.subset hk)
  unfold Object.erase
  rw [if_pos ho.array]
  split
  · split
    · refine ho.of_sublist rfl (List.Sublist.refl _) ?_ ?_ ho.length ho.sparse
      · simp
      · simpa using ho.dense
    · exact hremoved
  · exact hremoved

theorem Packed.pushAll {vs : List Value} (ho : o.Packed) : (o.pushAll vs).Packed := by
  induction vs generalizing o with
  | nil => exact ho
  | cons v vs ih =>
    unfold Object.pushAll
    split
    next => exact ho
    next hroom => exact ih (ho.putIndex (by omega))

theorem Packed.pop (ho : o.Packed) : o.pop.2.Packed := by
  unfold Object.pop
  split
  · exact ho
  · exact ho.setLength (Nat.le_trans (Nat.sub_le _ _) ho.length)

/-- An array made of values is packed. -/
theorem packed_ofList {vs : List Value} (h : vs.length ≤ maxArrayLength) : (ofList vs).Packed where
  array := rfl
  dense := by simp [ofList]
  length := h
  distinct := by simp [ofList, names]
  unnamed := by simp [ofList, names]
  sparse := by simp [ofList, names]
  apart := by simp [ofList, names]

/-! ## Reading -/

/-- A key that the object has is one that it has a value for. -/
theorem isSome_find? (o : Object) (key : String) : (o.find? key).isSome = o.hasOwn key := by
  unfold find? hasOwn
  dsimp only
  split
  · by_cases hlength : key = "length"
    · rw [if_pos hlength, decide_eq_true hlength]
      rfl
    · rw [if_neg hlength, decide_eq_false hlength, Bool.false_or]
      cases arrayIndex? key with
      | none => rw [Option.isSome_map, Bool.false_or]
      | some i =>
        dsimp only
        rw [Option.isSome_or, Option.isSome_map]
        by_cases hi : i < o.elements.size
        · rw [Array.getElem?_eq_getElem hi, decide_eq_true hi]
          rfl
        · rw [Array.getElem?_eq_none (Nat.le_of_not_lt hi), decide_eq_false hi]
          rfl
  · exact Option.isSome_map

/-- An index is looked up in the dense run and then among the properties. -/
theorem find?_index (harray : o.isArray = true) (hkey : arrayIndex? key = some i) :
    o.find? key = o.elements[i]?.or ((o.stored? key).map (·.value)) := by
  unfold find?
  simp only [harray, if_true, ne_length_of_arrayIndex? hkey, if_false, hkey]

/-- No index that the dense run reaches is kept as a property. -/
theorem Packed.stored?_eq_none (ho : o.Packed) (hkey : arrayIndex? key = some i)
    (hi : i ≤ o.elements.size) : o.stored? key = none :=
  Object.stored?_eq_none.mpr fun hmem => absurd (ho.apart key hmem i hkey) (by omega)

/-- The values of an array with few indices behind the dense run are those that reading finds. -/
theorem Packed.values_eq (ho : o.Packed) :
    o.values =
      if o.length - o.elements.size ≤ maxDenseGap then
        (List.range o.length).map fun i => (o.find? (toString i)).getD .undefined
      else o.elements.toList ++ o.sparse.map fun (_, p) => p.value := by
  have hdense : o.elements.toList.take o.length =
      (List.range o.elements.size).map fun i => (o.find? (toString i)).getD .undefined := by
    rw [List.take_of_length_le (by simpa using ho.dense)]
    refine List.ext_getElem (by simp) fun i hi _ => ?_
    have hi : i < o.elements.size := by simpa using hi
    have hmax : i < maxArrayLength := Nat.lt_of_lt_of_le hi (Nat.le_trans ho.dense ho.length)
    have hfind := find?_index ho.array (arrayIndex?_toString hmax)
    rw [Array.getElem?_eq_getElem hi, Option.some_or] at hfind
    rw [List.getElem_map, List.getElem_range, hfind]
    rfl
  unfold values
  simp only [ho.dense, true_and, hdense]
  split
  next =>
    obtain ⟨gap, hgap⟩ := Nat.exists_eq_add_of_le ho.dense
    rw [hgap, Nat.add_sub_cancel_left, List.range_add, List.map_append, List.map_map]
    rfl
  next => rfl

/-! ## What operations make of an array -/

/-- One operation on an array: a key is written, visibly or hidden, or removed, values are appended,
or the last one is taken away. -/
inductive Edit (o : Object) : Object → Prop
  | write (h : Heap) (id : ObjectId) (key : String) (value : Value) (enumerable : Bool)
      (hat : h.objects.get? id = some o) :
      Edit o ((h.write id key value enumerable).objects.get id)
  | erase (h : Heap) (id : ObjectId) (key : String) (hat : h.objects.get? id = some o) :
      Edit o ((h.erase id key).objects.get id)
  | pushAll (values : List Value) : Edit o (o.pushAll values)
  | pop : Edit o o.pop.2

/-- What operations make of an array of values. -/
inductive Made : Object → Prop
  | ofList (values : List Value) (h : values.length ≤ maxArrayLength) : Made (ofList values)
  | edit {o o' : Object} (ho : Made o) (he : Edit o o') : Made o'

/-- What a write leaves at the address it writes to. -/
theorem get_write {h : Heap} {id : ObjectId} {enumerable : Bool}
    (hat : h.objects.get? id = some o) :
    (h.write id key v enumerable).objects.get id =
      o.put key v (if key = "length" ∧ o.isArray then (Number.toUInt32 (h.number v)).toNat else 0)
        enumerable := by
  have hget : h.objects.get id = o := by rw [Store.get, hat]; rfl
  rw [Heap.write, Store.get, Store.get?_modify, if_pos rfl, hat, hget]
  rfl

/-- What the removal of a key leaves at the address. -/
theorem get_erase {h : Heap} {id : ObjectId} (hat : h.objects.get? id = some o) :
    (h.erase id key).objects.get id = o.erase key := by
  rw [Heap.erase, Store.get, Store.get?_modify, if_pos rfl, hat]
  rfl

/-- The length that a value stands for is one that an array can have. -/
theorem newLength_le (h : Heap) (c : Prop) [Decidable c] :
    (if c then (Number.toUInt32 (h.number v)).toNat else 0) ≤ maxArrayLength := by
  split
  · have := UInt32.toNat_lt (Number.toUInt32 (h.number v))
    unfold maxArrayLength
    omega
  · exact Nat.zero_le _

/-- Each operation keeps the array packed. -/
theorem Packed.edit {o' : Object} (ho : o.Packed) (he : Edit o o') : o'.Packed := by
  cases he with
  | write h id key value enumerable hat =>
    rw [get_write hat]
    exact ho.put (newLength_le h _)
  | erase h id key hat =>
    rw [get_erase hat]
    exact ho.erase
  | pushAll values => exact ho.pushAll
  | pop => exact ho.pop

/-- All operations together keep an array of values packed. -/
theorem Made.packed (ho : o.Made) : o.Packed := by
  induction ho with
  | ofList values h => exact packed_ofList h
  | edit _ he ih => exact ih.edit he

/-- Whatever operations make of an array of values is packed: the dense run is no longer than the
array, no two properties have the same key, and every index among the properties lies behind the
dense run, with a place between, and below the length. So no index has two values, the indices
behind the dense run can be counted by a difference, and taking over comes to an end, on whatever
object it starts. -/
theorem made_packed (ho : o.Made) :
    o.Packed ∧
    (∀ key i, arrayIndex? key = some i → (o.elements[i]?).isSome → o.stored? key = none) ∧
    (o.length - o.elements.size : Nat) = (o.length - o.elements.size : Int) ∧
    (o.values =
      if o.length - o.elements.size ≤ maxDenseGap then
        (List.range o.length).map fun i => (o.find? (toString i)).getD .undefined
      else o.elements.toList ++ o.sparse.map fun (_, p) => p.value) ∧
    ∀ a : Object, ∃ rounds ≤ a.properties.length, (a.absorb rounds).Settled ∧
      ∀ fuel ≥ rounds, a.absorb fuel = a.absorb rounds := by
  have hpacked := ho.packed
  refine ⟨hpacked, fun key i hkey hi => ?_, Int.ofNat_sub hpacked.dense, hpacked.values_eq,
    fun a => ⟨a.properties.length, Nat.le_refl _, absorb_settled (Nat.le_refl _),
      fun fuel => absorb_eq⟩⟩
  have hi : i < o.elements.size := by simpa using hi
  exact hpacked.stored?_eq_none hkey (Nat.le_of_lt hi)

/-- An array with an index far behind its dense run. -/
theorem made_packed_sparse :
    (((Heap.newObject {} 0 (ofList [.null])).2.set ⟨0, 0⟩ "2000" .null).objects.get ⟨0, 0⟩).Packed :=
  (made_packed (.edit (.ofList [.null] (by decide)) (.write _ ⟨0, 0⟩ "2000" .null true rfl))).1

end Fermata.Object
