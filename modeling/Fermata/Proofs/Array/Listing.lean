import Fermata.Proofs.Array.Write
import Mathlib.Data.List.Nodup

/-!
# Listing an object

An object is listed in parts, each from its own place: the dense run of an array, the indices among its
properties, which are put in order first, and the other properties as they stand. Reading a key looks
into the same places in another way. On whatever operations make of an object the two agree.

* `Object.sparse_perm`, `Object.sparse_ascending`: the indices among the properties, put in order,
* `Object.named`: the properties that are no indices, `Object.named_putIndex` and the like: which
  operation changes them,
* `Object.Formed`: what operations make of an object, and in which order its names came,
* `Object.formed_lists`: enumeration agrees with lookup.
-/

namespace Fermata.Object

variable {o : Object} {key : String} {v : Value} {i n : Nat} {names : List String}

/-! ## Indices put in order -/

theorem insertByIndex_perm (e : Nat × Property) (es : List (Nat × Property)) :
    (insertByIndex e es).Perm (e :: es) := by
  induction es with
  | nil => exact .refl _
  | cons f es ih =>
    unfold insertByIndex
    split
    · exact .refl _
    · exact (ih.cons f).trans (.swap e f es)

/-- A new index is put where it belongs. -/
theorem insertByIndex_ascending {e : Nat × Property} {es : List (Nat × Property)}
    (hes : es.Pairwise (·.1 < ·.1)) (hnew : ∀ f ∈ es, f.1 ≠ e.1) :
    (insertByIndex e es).Pairwise (·.1 < ·.1) := by
  induction es with
  | nil => exact List.pairwise_singleton _ e
  | cons f es ih =>
    obtain ⟨hf, htail⟩ := List.pairwise_cons.mp hes
    unfold insertByIndex
    split
    next hlt =>
      refine List.pairwise_cons.mpr ⟨fun g hg => ?_, hes⟩
      rcases List.mem_cons.mp hg with rfl | hg
      · exact hlt
      · exact Nat.lt_trans hlt (hf g hg)
    next hge =>
      have hne := hnew f List.mem_cons_self
      refine List.pairwise_cons.mpr
        ⟨fun g hg => ?_, ih htail fun g hg => hnew g (List.mem_cons_of_mem f hg)⟩
      rcases List.mem_cons.mp ((insertByIndex_perm e es).mem_iff.mp hg) with rfl | hg
      · omega
      · exact hf g hg

/-- One index after the other is put in order. -/
theorem foldl_insertByIndex (es sorted : List (Nat × Property)) :
    (es.foldl (fun sorted e => insertByIndex e sorted) sorted).Perm (es ++ sorted) ∧
      (sorted.Pairwise (·.1 < ·.1) → ((es ++ sorted).map (·.1)).Nodup →
        (es.foldl (fun sorted e => insertByIndex e sorted) sorted).Pairwise (·.1 < ·.1)) := by
  induction es generalizing sorted with
  | nil => exact ⟨.refl _, fun h _ => h⟩
  | cons e es ih =>
    obtain ⟨hperm, hascending⟩ := ih (insertByIndex e sorted)
    have hmiddle : (es ++ insertByIndex e sorted).Perm (e :: es ++ sorted) :=
      ((insertByIndex_perm e sorted).append_left es).trans List.perm_middle
    refine ⟨hperm.trans hmiddle, fun hsorted hnodup => hascending ?_ ?_⟩
    · refine insertByIndex_ascending hsorted fun f hf heq => ?_
      rw [List.cons_append, List.map_cons, List.nodup_cons] at hnodup
      exact hnodup.1 (heq ▸ List.mem_map_of_mem (List.mem_append_right es hf))
    · exact ((hmiddle.map _).nodup_iff).mpr hnodup

/-- The properties under an index, with their indices. -/
theorem mem_filterMap_index {ps : List Property} {p : Property} :
    (i, p) ∈ ps.filterMap (fun p => (arrayIndex? p.key).map (·, p)) ↔
      p ∈ ps ∧ arrayIndex? p.key = some i := by
  simp only [List.mem_filterMap, Option.map_eq_some_iff, Prod.mk.injEq]
  constructor
  · rintro ⟨q, hq, j, hj, rfl, rfl⟩
    exact ⟨hq, hj⟩
  · rintro ⟨hp, hi⟩
    exact ⟨p, hp, i, hi, rfl, rfl⟩

/-- Properties with different keys have different indices. -/
theorem nodup_filterMap_index {ps : List Property} (h : (ps.map (·.key)).Nodup) :
    ((ps.filterMap fun p => (arrayIndex? p.key).map (·, p)).map (·.1)).Nodup := by
  induction ps with
  | nil => exact .nil
  | cons p ps ih =>
    rw [List.map_cons, List.nodup_cons] at h
    rw [List.filterMap_cons]
    cases hp : arrayIndex? p.key with
    | none => exact ih h.2
    | some i =>
      refine List.nodup_cons.mpr ⟨fun hmem => h.1 ?_, ih h.2⟩
      obtain ⟨⟨j, q⟩, hq, rfl⟩ := List.mem_map.mp hmem
      obtain ⟨hq, hj⟩ := mem_filterMap_index.mp hq
      exact List.mem_map.mpr ⟨q, hq, arrayIndex?_inj hj hp⟩

theorem mem_sparse_iff {p : Property} :
    (i, p) ∈ o.sparse ↔ o.isArray = true ∧ p ∈ o.properties ∧ arrayIndex? p.key = some i := by
  unfold sparse
  split
  next harray =>
    rw [(foldl_insertByIndex _ _).1.mem_iff, List.append_nil, mem_filterMap_index]
    exact (and_iff_right harray).symm
  next harray => simp [harray]

theorem sparse_ascending (h : o.names.Nodup) : o.sparse.Pairwise (·.1 < ·.1) := by
  unfold sparse
  split
  · refine (foldl_insertByIndex _ _).2 .nil ?_
    rw [List.append_nil]
    exact nodup_filterMap_index h
  · exact .nil

/-- **Indices have one spelling each.** A key writes an index exactly if it is the text of a number below
the greatest length: digits, with no zero in front of another. So no two keys write the same index, and the
key of an index that is kept among the properties is got back from the index. -/
theorem index_spelling (key : String) (i : Nat) :
    (arrayIndex? key = some i ↔ i < 4294967295 ∧ key = toString i) ∧
      (key = toString i ↔ Text.Decimal key.toList ∧ Text.decimalValue key.toList = i) ∧
      (∀ other, arrayIndex? key = some i → arrayIndex? other = some i → other = key) ∧
      ∀ (o : Object) (p : Property), (i, p) ∈ o.sparse ↔
        o.isArray = true ∧ i < 4294967295 ∧ p ∈ o.properties ∧ p.key = toString i := by
  have hindex (key : String) : arrayIndex? key = some i ↔ i < 4294967295 ∧ key = toString i :=
    arrayIndex?_eq_some_iff.trans And.comm
  refine ⟨hindex key, decimal_toString, fun other hkey hother => arrayIndex?_inj hother hkey,
    fun o p => mem_sparse_iff.trans (and_congr_right fun _ => ?_)⟩
  rw [hindex, and_left_comm]

/-! ## Properties that are no indices -/

/-- The properties that are no indices of an array, in their order. -/
def named (o : Object) : List Property :=
  o.properties.filter fun p => !(o.isArray && (arrayIndex? p.key).isSome)

theorem mem_named {p : Property} :
    p ∈ o.named ↔ p ∈ o.properties ∧ (o.isArray = true → arrayIndex? p.key = none) := by
  rw [named, List.mem_filter]
  cases o.isArray <;> simp

/-- Their keys are the keys that are no indices. -/
theorem map_key_named : o.named.map (·.key) =
    o.names.filter fun key => !(o.isArray && (arrayIndex? key).isSome) := by
  rw [names, List.filter_map]
  rfl

/-- Storing under an index leaves them. -/
theorem named_store_index {enumerable : Bool} (harray : o.isArray = true)
    (hkey : arrayIndex? key = some i) : (o.store key v enumerable).named = o.named := by
  rw [named, named, isArray_store]
  unfold store
  split
  · dsimp only
    rw [List.filter_map]
    have hkeep : (fun p : Property => !(o.isArray && (arrayIndex? p.key).isSome)) ∘
        (fun p => if p.key == key then { p with value := v } else p) =
        fun p => !(o.isArray && (arrayIndex? p.key).isSome) := by
      funext p
      rw [Function.comp_apply]
      split <;> rfl
    rw [hkeep]
    refine (List.map_congr_left fun p hp => ?_).trans (List.map_id _)
    have hne : p.key ≠ key := by
      rintro rfl
      simp [harray, hkey] at hp
    rw [if_neg (mt beq_iff_eq.mp hne), id]
  · simp [List.filter_append, harray, hkey]

/-- Taking over indices leaves them. -/
theorem named_absorb (harray : o.isArray = true) (fuel : Nat) : (o.absorb fuel).named = o.named := by
  refine (absorb_induct (P := fun a => a.isArray = true ∧ a.named = o.named) fuel ⟨harray, rfl⟩ ?_).2
  rintro a i v rest htake ⟨ha, hnamed⟩
  obtain ⟨p, before, after, hps, rfl, -, hindex, -⟩ := takeReached?_eq_some htake
  refine ⟨ha, Eq.trans ?_ hnamed⟩
  rw [named, named, hps]
  show (before ++ after).filter (fun p => !(a.isArray && (arrayIndex? p.key).isSome)) = _
  rw [List.filter_append, List.filter_append, List.filter_cons_of_neg (by simp [ha, hindex])]

/-- Writing an index leaves them. -/
theorem named_putIndex (harray : o.isArray = true) (hi : i < maxArrayLength) :
    (o.putIndex i v).named = o.named := by
  unfold putIndex
  dsimp only
  split
  · rfl
  · split
    · refine (named_absorb ?_ _).trans ?_
      · exact harray
      · rfl
    · exact named_store_index harray (arrayIndex?_toString hi)

/-- So does a write to the length. -/
theorem named_setLength (harray : o.isArray = true) : (o.setLength n).named = o.named := by
  rw [named, named, setLength, List.filter_filter]
  refine List.filter_congr fun p _ => ?_
  show (!(o.isArray && _) && _) = !(o.isArray && _)
  cases hp : arrayIndex? p.key <;> simp [harray]

/-- Storing a name adds it at the end, unless it is there. -/
theorem map_key_named_store {enumerable : Bool}
    (hkey : o.isArray = true → arrayIndex? key = none) :
    (o.store key v enumerable).named.map (·.key) =
      if key ∈ o.named.map (·.key) then o.named.map (·.key) else o.named.map (·.key) ++ [key] := by
  have hname : (!(o.isArray && (arrayIndex? key).isSome)) = true := by
    cases harray : o.isArray
    · rfl
    · rw [hkey harray]
      rfl
  rw [map_key_named, map_key_named, isArray_store, names_store]
  by_cases hmem : key ∈ o.names
  · rw [if_pos hmem, if_pos (List.mem_filter.mpr ⟨hmem, hname⟩)]
  · rw [if_neg hmem, if_neg fun h => hmem (List.mem_filter.mp h).1, List.filter_append,
      List.filter_singleton, hname]
    rfl

/-- Removing a property removes its key. -/
theorem map_key_eraseP (ps : List Property) (key : String) :
    (ps.eraseP (·.key == key)).map (·.key) = (ps.map (·.key)).erase key := by
  rw [List.erase_eq_eraseP', List.eraseP_map]
  rfl

/-! ## Indices are visible -/

/-- Enumeration passes over no index. -/
def Visible (o : Object) : Prop :=
  ∀ p ∈ o.properties, (arrayIndex? p.key).isSome = true → p.enumerable = true

theorem Visible.subset {o' : Object} (ho : o.Visible) (h : ∀ p ∈ o'.properties, p ∈ o.properties) :
    o'.Visible := fun p hp => ho p (h p hp)

theorem Visible.store {enumerable : Bool} (ho : o.Visible)
    (hkey : (arrayIndex? key).isSome = true → enumerable = true) :
    (o.store key v enumerable).Visible := by
  intro p hp hindex
  unfold Object.store at hp
  split at hp
  · obtain ⟨q, hq, rfl⟩ := List.mem_map.mp hp
    split at hindex
    next hsame =>
      rw [if_pos hsame]
      exact ho q hq hindex
    next hother =>
      rw [if_neg hother]
      exact ho q hq hindex
  · rcases List.mem_append.mp hp with hp | hp
    · exact ho p hp hindex
    · cases List.mem_singleton.mp hp
      exact hkey hindex

theorem Visible.putIndex (ho : o.Visible) : (o.putIndex i v).Visible := by
  unfold Object.putIndex
  dsimp only
  split
  · exact ho
  · split
    · refine absorb_induct (P := Visible) _ ho fun a j w rest htake ha => ?_
      obtain ⟨p, before, after, hps, rfl, -⟩ := takeReached?_eq_some htake
      refine ha.subset fun q hq => ?_
      rw [hps]
      exact List.mem_append.mpr ((List.mem_append.mp hq).imp_right (List.mem_cons_of_mem p))
    · exact ho.store fun _ => rfl

/-- Writing indices one after the other, as long as the array may grow. -/
theorem pushAll_induct {P : Object → Prop} (ho : P o) (vs : List Value)
    (hput : ∀ a v, P a → a.length < maxArrayLength → P (a.putIndex a.length v)) :
    P (o.pushAll vs) := by
  induction vs generalizing o with
  | nil => exact ho
  | cons v vs ih =>
    unfold pushAll
    split
    · exact ho
    next hroom => exact ih (hput o v ho (Nat.not_le.mp hroom))

/-! ## What operations make of an object -/

/-- The names after a key was written: a new one comes last. Indices and the length of an array are no
names. -/
def inserted (o : Object) (key : String) (names : List String) : List String :=
  if key ∈ names ∨ (o.isArray = true ∧ (key = "length" ∨ (arrayIndex? key).isSome = true)) then names
  else names ++ [key]

/-- What operations make of an object, and its names in the order in which they were inserted. Values are
pushed to arrays only. -/
inductive Formed : Object → List String → Prop
  | fresh (class_ : ObjectClass) (proto : Option ObjectId) : Formed { class_, proto } []
  | ofList (values : List Value) (h : values.length ≤ maxArrayLength) : Formed (ofList values) []
  | ofError (name message : String) : Formed (ofError name message) [nameKey, messageKey]
  | write {o : Object} {names : List String} (ho : Formed o names) (h : Heap) (id : ObjectId)
      (key : String) (value : Value) (enumerable : Bool) (hat : h.objects.get? id = some o) :
      Formed ((h.write id key value enumerable).objects.get id) (o.inserted key names)
  | erase {o : Object} {names : List String} (ho : Formed o names) (h : Heap) (id : ObjectId)
      (key : String) (hat : h.objects.get? id = some o) :
      Formed ((h.erase id key).objects.get id) (names.erase key)
  | pushAll {o : Object} {names : List String} (ho : Formed o names) (harray : o.isArray = true)
      (values : List Value) : Formed (o.pushAll values) names
  | pop {o : Object} {names : List String} (ho : Formed o names) : Formed o.pop.2 names

/-- What every operation keeps: the shape of an array, or no elements at all, and the names in the order
in which they came. -/
structure Orderly (o : Object) (names : List String) : Prop where
  packed : o.isArray = true → o.Packed
  visible : o.isArray = true → o.Visible
  bare : o.isArray = false → o.elements = #[] ∧ o.length = 0
  distinct : o.names.Nodup
  order : o.named.map (·.key) = names

/-- On an array it is enough to look at the shape, the visibility and the order. -/
theorem Packed.orderly (ho : o.Packed) (hvisible : o.Visible) (horder : o.named.map (·.key) = names) :
    o.Orderly names where
  packed _ := ho
  visible _ := hvisible
  bare h := absurd ho.array (by rw [h]; exact Bool.false_ne_true)
  distinct := ho.distinct
  order := horder

theorem inserted_name (hkey : o.isArray = true → key ≠ "length" ∧ arrayIndex? key = none) :
    o.inserted key names = if key ∈ names then names else names ++ [key] := by
  have hname : ¬(o.isArray = true ∧ (key = "length" ∨ (arrayIndex? key).isSome = true)) := by
    rintro ⟨harray, h⟩
    obtain ⟨hlength, hindex⟩ := hkey harray
    rw [hindex] at h
    exact h.elim hlength Bool.false_ne_true
  unfold inserted
  simp only [hname, or_false]

namespace Orderly

/-- A name of an array is neither its length nor an index. -/
theorem name (ho : o.Orderly names) (harray : o.isArray = true) (hkey : key ∈ names) :
    key ≠ "length" ∧ arrayIndex? key = none := by
  rw [← ho.order] at hkey
  obtain ⟨p, hp, rfl⟩ := List.mem_map.mp hkey
  obtain ⟨hp, hindex⟩ := mem_named.mp hp
  refine ⟨fun h => (ho.packed harray).unnamed ?_, hindex harray⟩
  exact h ▸ List.mem_map_of_mem hp

theorem put {enumerable : Bool} (ho : o.Orderly names) (hn : n ≤ maxArrayLength) :
    (o.put key v n enumerable).Orderly (o.inserted key names) := by
  by_cases harray : o.isArray = true
  · refine ((ho.packed harray).put hn).orderly ?_ ?_
    all_goals
      unfold Object.put
      rw [if_pos harray]
      split
    · exact (ho.visible harray).subset fun p hp => (List.mem_filter.mp hp).1
    · split
      · exact (ho.visible harray).putIndex
      next hnone => exact (ho.visible harray).store (by simp [hnone])
    next hlength =>
      rw [named_setLength harray, ho.order, Object.inserted, if_pos (.inr ⟨harray, .inl hlength⟩)]
    next hlength =>
      split
      next i hi =>
        rw [named_putIndex harray (arrayIndex?_eq_some_iff.mp hi).2, ho.order, Object.inserted,
          if_pos (.inr ⟨harray, .inr (by rw [hi]; rfl)⟩)]
      next hnone =>
        rw [inserted_name fun _ => ⟨hlength, hnone⟩, map_key_named_store fun _ => hnone, ho.order]
  · have hstore : o.put key v n enumerable = o.store key v enumerable := if_neg harray
    have harray' : ¬(o.store key v enumerable).isArray = true := by rwa [isArray_store]
    have hdistinct : (o.store key v enumerable).names.Nodup := by
      rw [names_store]
      split
      · exact ho.distinct
      next hnew =>
        rw [← List.concat_eq_append]
        exact ho.distinct.concat hnew
    rw [hstore, inserted_name fun h => absurd h harray]
    refine ⟨fun h => absurd h harray', fun h => absurd h harray', fun _ => ?_, hdistinct, ?_⟩
    · rw [elements_store, length_store]
      exact ho.bare (Bool.not_eq_true _ ▸ harray)
    · rw [map_key_named_store fun h => absurd h harray, ho.order]

theorem erase (ho : o.Orderly names) : (o.erase key).Orderly (names.erase key) := by
  have hremoved : ({ o with properties := o.properties.eraseP (·.key == key) } : Object).named.map
      (·.key) = names.erase key := by
    have hnames : ({ o with properties := o.properties.eraseP (·.key == key) } : Object).names =
        o.names.erase key := map_key_eraseP o.properties key
    rw [map_key_named, hnames, ← ho.order, map_key_named, (ho.distinct.filter _).erase_eq_filter,
      ho.distinct.erase_eq_filter, List.filter_filter, List.filter_filter]
    exact List.filter_congr fun _ _ => Bool.and_comm ..
  have hsub : ∀ p ∈ o.properties.eraseP (·.key == key), p ∈ o.properties :=
    fun p hp => List.eraseP_sublist.subset hp
  by_cases harray : o.isArray = true
  · refine (ho.packed harray).erase.orderly ?_ ?_
    all_goals
      unfold Object.erase
      rw [if_pos harray]
      split
    · split
      · exact ho.visible harray
      · exact (ho.visible harray).subset hsub
    · exact (ho.visible harray).subset hsub
    next i hi =>
      split
      · refine ho.order.trans (List.erase_of_not_mem fun hmem => ?_).symm
        have hname := (ho.name harray hmem).2
        rw [hi] at hname
        cases hname
      · exact hremoved
    · exact hremoved
  · have herase : o.erase key = { o with properties := o.properties.eraseP (·.key == key) } :=
      if_neg harray
    rw [herase]
    refine ⟨fun h => absurd h harray, fun h => absurd h harray, ho.bare, ?_, hremoved⟩
    exact ho.distinct.sublist (List.eraseP_sublist.map _)

theorem pushAll {vs : List Value} (ho : o.Orderly names) (harray : o.isArray = true) :
    (o.pushAll vs).Orderly names := by
  have hpushed : (o.pushAll vs).Packed ∧ (o.pushAll vs).Visible ∧ (o.pushAll vs).named = o.named := by
    refine pushAll_induct (P := fun a => a.Packed ∧ a.Visible ∧ a.named = o.named)
      ⟨ho.packed harray, ho.visible harray, rfl⟩ vs ?_
    rintro a v ⟨hpacked, hvisible, hnamed⟩ hroom
    exact ⟨hpacked.putIndex hroom, hvisible.putIndex,
      (named_putIndex hpacked.array hroom).trans hnamed⟩
  obtain ⟨hpacked, hvisible, hnamed⟩ := hpushed
  exact hpacked.orderly hvisible (hnamed ▸ ho.order)

theorem pop (ho : o.Orderly names) : o.pop.2.Orderly names := by
  by_cases harray : o.isArray = true
  · refine (ho.packed harray).pop.orderly ?_ ?_
    all_goals
      unfold Object.pop
      split
    · exact ho.visible harray
    · exact (ho.visible harray).subset fun p hp => (List.mem_filter.mp hp).1
    · exact ho.order
    · exact (named_setLength harray).symm ▸ ho.order
  · have hpop : o.pop.2 = o := by
      unfold Object.pop
      rw [if_pos (ho.bare (Bool.not_eq_true _ ▸ harray)).2]
    rwa [hpop]

end Orderly

theorem Formed.orderly (ho : o.Formed names) : o.Orderly names := by
  induction ho with
  | fresh class_ proto =>
    refine ⟨fun harray => ?_, fun _ => ?_, fun _ => ⟨rfl, rfl⟩, .nil, rfl⟩
    · exact ⟨⟨harray, Nat.le_refl _, Nat.zero_le _, .nil, by simp [Object.names],
        by simp [Object.names]⟩, by simp [Object.names]⟩
    · exact fun p hp => absurd hp List.not_mem_nil
  | ofList values h =>
    exact (packed_ofList h).orderly (fun p hp => absurd hp List.not_mem_nil) rfl
  | ofError name message =>
    have hplain : ¬(Object.ofError name message).isArray = true := Bool.false_ne_true
    refine ⟨fun h => absurd h hplain, fun h => absurd h hplain, fun _ => ⟨rfl, rfl⟩, ?_, rfl⟩
    exact (by decide : [nameKey, messageKey].Nodup)
  | write ho h id key value enumerable hat ih =>
    rw [get_write hat]
    exact ih.put (newLength_le h _)
  | erase ho h id key hat ih =>
    rw [get_erase hat]
    exact ih.erase
  | pushAll ho harray values ih => exact ih.pushAll harray
  | pop ho ih => exact ih.pop

/-! ## Enumeration and lookup -/

/-- The own indices of an array in ascending order; no other object has any. -/
structure Indices (o : Object) (is : List Nat) : Prop where
  ascending : is.Pairwise (· < ·)
  mem_iff : ∀ i, i ∈ is ↔ o.isArray = true ∧ i < maxArrayLength ∧ o.hasOwn (toString i) = true

/-- A hidden property is stored under the key. -/
def hides (o : Object) (key : String) : Bool := (o.stored? key).any (!·.enumerable)

/-- What is listed of an object with these names and indices. -/
structure Lists (o : Object) (names : List String) (is : List Nat) : Prop where
  nodup : o.keys.Nodup
  mem_iff : ∀ key, key ∈ o.keys ↔
    o.hasOwn key = true ∧ ¬(o.isArray = true ∧ key = "length") ∧ o.hides key = false
  entries : o.entries.map (fun (key, value) => (key, some value)) =
    o.keys.map fun key => (key, o.find? key)
  own : ∀ key, (o.find? key).isSome = o.hasOwn key
  order : o.keys = is.map toString ++ names.filter (!o.hides ·)
  values : o.values.map some =
    if o.length - o.elements.size ≤ maxDenseGap then
      (List.range o.length).map fun i => some ((o.find? (toString i)).getD .undefined)
    else is.map fun i => o.find? (toString i)

/-- With different keys, every property is the one stored under its key. -/
theorem stored?_of_mem {p : Property} (h : o.names.Nodup) (hp : p ∈ o.properties) :
    o.stored? p.key = some p := by
  unfold stored? names at *
  generalize o.properties = ps at *
  induction ps with
  | nil => cases hp
  | cons q ps ih =>
    rw [List.map_cons, List.nodup_cons] at h
    rcases List.mem_cons.mp hp with rfl | hp
    · rw [List.find?_cons_of_pos (by simp)]
    · rw [List.find?_cons_of_neg, ih h.2 hp]
      intro heq
      exact h.1 (List.mem_map.mpr ⟨p, hp, (eq_of_beq heq).symm⟩)

/-- The indices of the dense run and those among the properties. -/
def indices (o : Object) : List Nat := List.range o.elements.size ++ o.sparse.map (·.1)

/-- The keys in their parts. -/
theorem keys_eq : o.keys =
    o.indices.map toString ++ (o.named.filter (·.enumerable)).map (·.key) := by
  rw [keys, entries, List.map_append, List.map_append, indices, List.map_append]
  refine congrArg₂ (· ++ ·) (congrArg₂ (· ++ ·) ?dense ?sparse) ?named
  case dense =>
    rw [List.map_map, List.range_eq_range', ← Array.length_toList, ← List.zipIdx_map_snd 0,
      List.map_map]
    rfl
  case sparse =>
    rw [List.map_map, List.map_map]
    refine List.map_congr_left fun e he => ?_
    obtain ⟨i, p⟩ := e
    exact (arrayIndex?_eq_some_iff.mp (mem_sparse_iff.mp he).2.2).1
  case named =>
    rw [List.map_map, named, List.filter_filter]
    rfl

namespace Orderly

variable (ho : o.Orderly names)

include ho

/-- Only arrays have a dense run. -/
theorem dense (hi : i < o.elements.size) : o.isArray = true ∧ i < maxArrayLength := by
  by_cases harray : o.isArray = true
  · have hpacked := ho.packed harray
    exact ⟨harray, Nat.lt_of_lt_of_le hi (Nat.le_trans hpacked.dense hpacked.length)⟩
  · rw [(ho.bare (Bool.not_eq_true _ ▸ harray)).1] at hi
    exact absurd hi (Nat.not_lt_zero i)

/-- An element of the dense run is read under its index. -/
theorem find?_dense (hi : o.elements[i]? = some v) : o.find? (toString i) = some v := by
  obtain ⟨hsize, -⟩ := Array.getElem?_eq_some_iff.mp hi
  obtain ⟨harray, hmax⟩ := ho.dense hsize
  rw [find?_index harray (arrayIndex?_toString hmax), hi, Option.some_or]

/-- A property is read under its key. -/
theorem find?_property {p : Property} (hp : p ∈ o.properties) : o.find? p.key = some p.value := by
  have hstored := stored?_of_mem ho.distinct hp
  by_cases harray : o.isArray = true
  · have hpacked := ho.packed harray
    have hmem : p.key ∈ o.names := List.mem_map_of_mem hp
    have hlength : p.key ≠ "length" := fun h => hpacked.unnamed (h ▸ hmem)
    rw [hpacked.find?_eq_late? hlength, late?, hstored]
    rfl
  · unfold find?
    rw [if_neg harray, hstored]
    rfl

/-- Every entry is what lookup finds. -/
theorem find?_entry {key : String} {value : Value} (h : (key, value) ∈ o.entries) :
    o.find? key = some value := by
  unfold entries at h
  rw [List.mem_append, List.mem_append, List.mem_map, List.mem_map, List.mem_map] at h
  rcases h with (⟨⟨v, i⟩, hv, heq⟩ | ⟨⟨i, p⟩, hp, heq⟩) | ⟨p, hp, heq⟩
  · cases heq
    refine ho.find?_dense ?_
    rw [← Array.getElem?_toList]
    exact List.mk_mem_zipIdx_iff_getElem?.mp hv
  · cases heq
    exact ho.find?_property (mem_sparse_iff.mp hp).2.1
  · cases heq
    exact ho.find?_property (List.mem_filter.mp hp).1

/-- A name has a value. -/
theorem find?_name (hkey : key ∈ names) : (o.find? key).isSome = true := by
  rw [← ho.order] at hkey
  obtain ⟨p, hp, rfl⟩ := List.mem_map.mp hkey
  rw [ho.find?_property (mem_named.mp hp).1]
  rfl

theorem mem_indices_iff :
    i ∈ o.indices ↔ o.isArray = true ∧ i < maxArrayLength ∧ o.hasOwn (toString i) = true := by
  unfold indices
  rw [List.mem_append, List.mem_range, List.mem_map]
  constructor
  · rintro (hi | ⟨⟨j, p⟩, hp, rfl⟩)
    · obtain ⟨harray, hmax⟩ := ho.dense hi
      refine ⟨harray, hmax, ?_⟩
      rw [← isSome_find?, ho.find?_dense (Array.getElem?_eq_getElem hi)]
      rfl
    · obtain ⟨harray, hp, hkey⟩ := mem_sparse_iff.mp hp
      obtain ⟨hkey, hmax⟩ := arrayIndex?_eq_some_iff.mp hkey
      refine ⟨harray, hmax, ?_⟩
      rw [← isSome_find?, ← hkey, ho.find?_property hp]
      rfl
  · rintro ⟨harray, hmax, hown⟩
    have hindex := arrayIndex?_toString hmax
    by_cases hi : i < o.elements.size
    · exact .inl hi
    · rw [hasOwn_behind harray hindex (Nat.not_lt.mp hi)] at hown
      obtain ⟨p, hp⟩ := Option.isSome_iff_exists.mp hown
      refine .inr ⟨(i, p), mem_sparse_iff.mpr ⟨harray, List.mem_of_find?_eq_some hp, ?_⟩, rfl⟩
      rw [key_of_stored? hp, hindex]

/-- The own indices. -/
theorem ownIndices : o.Indices o.indices where
  mem_iff _ := ho.mem_indices_iff
  ascending := by
    unfold Object.indices
    refine List.pairwise_append.mpr ⟨List.pairwise_lt_range, ?_, fun a ha b hb => ?_⟩
    · exact List.pairwise_map.mpr (sparse_ascending ho.distinct)
    · obtain ⟨⟨j, p⟩, hp, rfl⟩ := List.mem_map.mp hb
      obtain ⟨harray, hp, hkey⟩ := mem_sparse_iff.mp hp
      exact Nat.lt_trans (List.mem_range.mp ha)
        ((ho.packed harray).apart p.key (List.mem_map_of_mem hp) j hkey)

/-- No index is hidden. -/
theorem hides_index (harray : o.isArray = true) (hkey : arrayIndex? key = some i) :
    o.hides key = false := by
  unfold hides
  cases hp : o.stored? key with
  | none => rfl
  | some p =>
    have hvisible := ho.visible harray p (List.mem_of_find?_eq_some hp)
      (by rw [key_of_stored? hp, hkey]; rfl)
    rw [Option.any_some, hvisible]
    rfl

/-- The names that are listed. -/
theorem names_listed : (o.named.filter (·.enumerable)).map (·.key) = names.filter (!o.hides ·) := by
  rw [← ho.order, List.filter_map]
  congr 1
  refine List.filter_congr fun p hp => ?_
  rw [Function.comp_apply, hides, stored?_of_mem ho.distinct (mem_named.mp hp).1, Option.any_some,
    Bool.not_not]

theorem values_eq : o.values.map some =
    if o.length - o.elements.size ≤ maxDenseGap then
      (List.range o.length).map fun i => some ((o.find? (toString i)).getD .undefined)
    else o.indices.map fun i => o.find? (toString i) := by
  by_cases harray : o.isArray = true
  · rw [(ho.packed harray).values_eq]
    split
    · rw [List.map_map]
      rfl
    · rw [indices, List.map_append, List.map_append, List.map_map, List.map_map]
      congr 1
      · refine List.ext_getElem (by simp) fun i hi _ => ?_
        have hi : i < o.elements.size := by simpa using hi
        rw [List.getElem_map, List.getElem_map, List.getElem_range, Array.getElem_toList]
        exact (ho.find?_dense (Array.getElem?_eq_getElem hi)).symm
      · refine List.map_congr_left fun ⟨i, p⟩ hp => ?_
        obtain ⟨-, hp, hi⟩ := mem_sparse_iff.mp hp
        rw [Function.comp_apply, Function.comp_apply, ← (arrayIndex?_eq_some_iff.mp hi).1]
        exact (ho.find?_property hp).symm
  · obtain ⟨helements, hlength⟩ := ho.bare (Bool.not_eq_true _ ▸ harray)
    simp [values, helements, hlength]

/-- What has a key and is no index is a name, the length of an array apart. -/
theorem mem_names (hown : o.hasOwn key = true) (hlength : ¬(o.isArray = true ∧ key = "length"))
    (hindex : o.isArray = true → arrayIndex? key = none) : key ∈ names := by
  have hsome : (o.stored? key).isSome = true := by
    unfold hasOwn at hown
    by_cases harray : o.isArray = true
    · have hkey : key ≠ "length" := fun h => hlength ⟨harray, h⟩
      simpa [harray, hindex harray, hkey] using hown
    · rwa [if_neg harray] at hown
  obtain ⟨p, hp⟩ := Option.isSome_iff_exists.mp hsome
  obtain rfl := key_of_stored? hp
  rw [← ho.order]
  exact List.mem_map_of_mem (mem_named.mpr ⟨List.mem_of_find?_eq_some hp, hindex⟩)

theorem nodup_keys : (o.indices.map toString ++ names.filter (!o.hides ·)).Nodup := by
  have hnames : names.Nodup := by
    rw [← ho.order, map_key_named]
    exact ho.distinct.filter _
  have hindices : (o.indices.map toString).Nodup := by
    refine List.Nodup.map_on (fun i hi j hj => ?_) (ho.ownIndices.ascending.imp Nat.ne_of_lt)
    exact toString_inj (ho.mem_indices_iff.mp hi).2.1 (ho.mem_indices_iff.mp hj).2.1
  refine List.nodup_append.mpr ⟨hindices, hnames.filter _, ?_⟩
  rintro key hkey _ hname rfl
  obtain ⟨i, hi, rfl⟩ := List.mem_map.mp hkey
  obtain ⟨harray, hmax, -⟩ := ho.mem_indices_iff.mp hi
  have hnone := (ho.name harray (List.mem_filter.mp hname).1).2
  rw [arrayIndex?_toString hmax] at hnone
  cases hnone

theorem mem_keys_iff : key ∈ o.indices.map toString ++ names.filter (!o.hides ·) ↔
    o.hasOwn key = true ∧ ¬(o.isArray = true ∧ key = "length") ∧ o.hides key = false := by
  rw [List.mem_append, List.mem_map, List.mem_filter, Bool.not_eq_true']
  constructor
  · rintro (⟨i, hi, rfl⟩ | ⟨hname, hshown⟩)
    · obtain ⟨harray, hmax, hown⟩ := ho.mem_indices_iff.mp hi
      have hindex := arrayIndex?_toString hmax
      exact ⟨hown, fun h => ne_length_of_arrayIndex? hindex h.2, ho.hides_index harray hindex⟩
    · refine ⟨?_, fun h => (ho.name h.1 hname).1 h.2, hshown⟩
      rw [← isSome_find?]
      exact ho.find?_name hname
  · rintro ⟨hown, hlength, hshown⟩
    by_cases hindex : o.isArray = true → arrayIndex? key = none
    · exact .inr ⟨ho.mem_names hown hlength hindex, hshown⟩
    · obtain ⟨harray, hsome⟩ := Classical.not_imp.mp hindex
      obtain ⟨i, hi⟩ := Option.ne_none_iff_exists'.mp hsome
      obtain ⟨rfl, hmax⟩ := arrayIndex?_eq_some_iff.mp hi
      exact .inl ⟨i, ho.mem_indices_iff.mpr ⟨harray, hmax, hown⟩, rfl⟩

theorem lists : o.Lists names o.indices := by
  have hkeys : o.keys = o.indices.map toString ++ names.filter (!o.hides ·) := by
    rw [keys_eq, ho.names_listed]
  refine ⟨hkeys ▸ ho.nodup_keys, fun key => hkeys ▸ ho.mem_keys_iff, ?_, o.isSome_find?, hkeys,
    ho.values_eq⟩
  rw [keys, List.map_map]
  exact List.map_congr_left fun ⟨key, value⟩ h => congrArg (key, ·) (ho.find?_entry h).symm

end Orderly

/-- **Enumeration agrees with lookup**, whatever operations made the object: the keys are listed once
each, they are those that the object has and does not hide, with what lookup finds, the indices of an
array in ascending order and then the names in the order in which they came. The values of an array are
those of all its places, or if too many are empty those of its own indices. -/
theorem formed_lists (ho : o.Formed names) : ∃ is, o.Indices is ∧ o.Lists names is :=
  ⟨o.indices, ho.orderly.ownIndices, ho.orderly.lists⟩

/-- An index far behind the dense run, and a hidden property. -/
theorem formed_lists_sparse :
    let h₁ := (Heap.newObject {} 0 (ofList [.null])).2.set ⟨0, 0⟩ "2000" .null
    let h₂ := h₁.write ⟨0, 0⟩ "b" .null false
    let o := h₂.objects.get ⟨0, 0⟩
    (∃ is, o.Indices is ∧ o.Lists ["b"] is) ∧ o.keys = ["0", "2000"] := by
  intro h₁ h₂ o
  have hfirst : Formed (h₁.objects.get ⟨0, 0⟩) [] :=
    .write (.ofList [.null] (by decide)) _ ⟨0, 0⟩ "2000" .null true rfl
  have hsecond : Formed o ["b"] := .write hfirst h₁ ⟨0, 0⟩ "b" .null false rfl
  exact ⟨formed_lists hsecond, by decide +kernel⟩

/-- A value that is pushed to an object that is no array is listed, but not found. -/
theorem pushAll_plain : ((empty none).pushAll [.null]).keys = ["0"] ∧
    ((empty none).pushAll [.null]).hasOwn "0" = false := by
  decide +kernel

end Fermata.Object
