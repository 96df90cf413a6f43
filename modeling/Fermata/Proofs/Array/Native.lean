import Fermata.Builtin.Basic
import Fermata.Proofs.Array.Listing

/-!
# The end of an array, and searching it

Values are pushed behind the last place of an array, wherever its dense run ends: the run may be made
longer on the way, over holes and over indices among the properties. Popping looks the last place up and
cuts the array in front of it. The two undo each other, place by place.

An array is searched in the list of its values. As long as few of its places are empty, the list has one
value for each place and a position in it is an index. Of an array with too many empty places the list
has the values of the own indices only, one after the other: a position then counts own indices, and the
index itself is found by counting.

* `Object.Packed.pushes`: what is read after a push,
* `Object.Packed.cuts`: what is read after a cut,
* `Object.Packed.pops_eq`: what pops give back,
* `Object.made_stack`: all of it, on whatever operations make of an array,
* `Object.made_indexIn`: what a search answers there.
-/

namespace Fermata.Object

variable {o : Object} {key : String} {v : Value} {vs : List Value} {i n : Nat}

/-- What reading a place of an array gives; a hole is `undefined`. -/
def place (o : Object) (i : Nat) : Value := (o.find? (toString i)).getD .undefined

/-- Take values from the end, one after the other. -/
def pops : Nat → Object → List Value × Object
  | 0, o => ([], o)
  | n + 1, o => (o.pop.1 :: (pops n o.pop.2).1, (pops n o.pop.2).2)

/-! ## Pushing -/

/-- An array with values behind its last place; what was empty in front of them may have been filled with
`undefined`. -/
structure Pushes (o : Object) (vs : List Value) (o' : Object) : Prop where
  length : o'.length = o.length + vs.length
  new : ∀ k w, vs[k]? = some w → o'.find? (toString (o.length + k)) = some w
  kept : ∀ i < o.length, ∀ w, o.find? (toString i) = some w → o'.find? (toString i) = some w
  holes : ∀ i < o.length, o.find? (toString i) = none → o'.place i = .undefined

/-- Every place in front reads as before. -/
theorem Pushes.old {o' : Object} (h : o.Pushes vs o') (hi : i < o.length) : o'.place i = o.place i := by
  cases hfind : o.find? (toString i) with
  | some w => rw [place, place, h.kept i hi w hfind, hfind]
  | none =>
    rw [h.holes i hi hfind, place, hfind]
    rfl

/-- Nothing is stored behind the last place. -/
theorem Packed.hasOwn_length (ho : o.Packed) (hroom : o.length < maxArrayLength) :
    o.hasOwn (toString o.length) = false := by
  have hindex := arrayIndex?_toString hroom
  have hnone : o.stored? (toString o.length) = none := Object.stored?_eq_none.mpr fun hmem =>
    Nat.lt_irrefl _ (ho.sparse _ hmem _ hindex)
  rw [hasOwn_behind ho.array hindex ho.dense, hnone]
  rfl

theorem Packed.pushes_one (ho : o.Packed) (hroom : o.length < maxArrayLength) :
    o.Pushes [v] (o.putIndex o.length v) := by
  have hwritten := ho.written (v := v) hroom
  have hfresh : ¬o.Stale o.length := fun hstale => by
    have hown := hstale.2.2
    rw [ho.hasOwn_length hroom] at hown
    cases hown
  have hother : ∀ i < o.length, toString i ≠ toString o.length ∧ toString i ≠ "length" := by
    intro i hi
    have hmax : i < maxArrayLength := Nat.lt_trans hi hroom
    exact ⟨fun h => Nat.ne_of_lt hi (toString_inj hmax hroom h),
      ne_length_of_arrayIndex? (arrayIndex?_toString hmax)⟩
  refine ⟨?_, fun k w hk => ?_, fun i hi w hw => ?_, fun i hi hnone => ?_⟩
  · rw [hwritten.length, List.length_singleton]
    omega
  · cases k with
    | zero => exact Option.some.inj hk ▸ hwritten.new hfresh
    | succ k => cases hk
  · exact hwritten.kept _ w (hother i hi).1 (hother i hi).2 hw
  · unfold place
    by_cases hcovered : o.Covered o.length (toString i)
    · rw [hwritten.covered _ hcovered hnone]
      rfl
    · rw [hwritten.absent _ (hother i hi).1 (hother i hi).2 hcovered hnone]
      rfl

/-- **Pushed values are read behind the last place**, and what stood in front of them as before. -/
theorem Packed.pushes (ho : o.Packed) (hfits : o.length + vs.length ≤ maxArrayLength) :
    o.Pushes vs (o.pushAll vs) := by
  induction vs generalizing o with
  | nil =>
    refine ⟨rfl, fun k w hk => absurd hk (by simp), fun _ _ _ hw => hw, fun i _ hnone => ?_⟩
    rw [Object.pushAll, place, hnone]
    rfl
  | cons v vs ih =>
    rw [List.length_cons] at hfits
    have hroom : o.length < maxArrayLength := by omega
    have hone := ho.pushes_one (v := v) hroom
    have hlength : (o.putIndex o.length v).length = o.length + 1 := hone.length
    have hrest := ih (o := o.putIndex o.length v) (ho.putIndex hroom) (by omega)
    rw [Object.pushAll, if_neg (Nat.not_le.mpr hroom)]
    refine ⟨?_, fun k w hk => ?_, fun i hi w hw => ?_, fun i hi hnone => ?_⟩
    · rw [hrest.length, hlength, List.length_cons]
      omega
    · cases k with
      | zero => exact hrest.kept o.length (by omega) w (hone.new 0 w hk)
      | succ k =>
        have hnew := hrest.new k w hk
        rwa [hlength, Nat.add_assoc, Nat.add_comm 1] at hnew
    · exact hrest.kept i (by omega) w (hone.kept i hi w hw)
    · rw [hrest.old (by omega), hone.holes i hi hnone]

/-! ## Cutting -/

/-- An array that ends in front of the place `n`, or has empty places up to there. -/
structure Cuts (o : Object) (n : Nat) (o' : Object) : Prop where
  length : o'.length = n
  kept : ∀ i < n, o'.find? (toString i) = o.find? (toString i)
  gone : ∀ i, n ≤ i → i < maxArrayLength → o'.hasOwn (toString i) = false
  named : o'.named = o.named

/-- A cut takes away what is stored under an index from there on. -/
theorem stored?_setLength (hkey : arrayIndex? key = some i) :
    (o.setLength n).stored? key = if i < n then o.stored? key else none := by
  unfold setLength stored?
  rw [List.find?_filter]
  split
  next hlt =>
    congr 1
    funext p
    by_cases heq : p.key = key
    · simp [heq, hkey, hlt]
    · simp [heq]
  next hge =>
    refine List.find?_eq_none.mpr fun p _ => ?_
    by_cases heq : p.key = key
    · simp [heq, hkey, hge]
    · simp [heq]

/-- A cut ends the dense run as well. -/
theorem getElem?_setLength (i : Nat) :
    (o.setLength n).elements[i]? = if i < n then o.elements[i]? else none := by
  rw [setLength, Array.take_eq_extract, Array.getElem?_extract, Nat.sub_zero, Nat.zero_add]
  by_cases hn : i < n
  · by_cases hsize : i < o.elements.size
    · rw [if_pos (Nat.lt_min.mpr ⟨hn, hsize⟩), if_pos hn]
    · rw [if_neg fun h => hsize (Nat.lt_min.mp h).2, if_pos hn,
        Array.getElem?_eq_none (Nat.not_lt.mp hsize)]
  · rw [if_neg fun h => hn (Nat.lt_min.mp h).1, if_neg hn]

theorem Packed.cuts (ho : o.Packed) (hn : n ≤ maxArrayLength) : o.Cuts n (o.setLength n) := by
  have hread : ∀ i < maxArrayLength, (o.setLength n).find? (toString i) =
      if i < n then o.find? (toString i) else none := by
    intro i hi
    have hindex := arrayIndex?_toString hi
    rw [find?_index (ho.setLength hn).array hindex, find?_index ho.array hindex,
      stored?_setLength hindex, getElem?_setLength]
    split <;> rfl
  refine ⟨rfl, fun i hi => ?_, fun i hle hi => ?_, named_setLength ho.array⟩
  · rw [hread i (Nat.lt_of_lt_of_le hi hn), if_pos hi]
  · rw [← isSome_find?, hread i hi, if_neg (Nat.not_lt.mpr hle)]
    rfl

/-! ## Popping -/

/-- Popping reads the last place and cuts in front of it. -/
theorem Packed.pop_eq (ho : o.Packed) (hn : o.length = n + 1) :
    o.pop.1 = o.place n ∧ o.Cuts n o.pop.2 := by
  unfold Object.pop
  rw [hn, if_neg (Nat.succ_ne_zero n)]
  exact ⟨rfl, ho.cuts (Nat.le_trans (hn ▸ Nat.le_succ n) ho.length)⟩

/-- **What pops give back**: the last places, the last one first. -/
theorem Packed.pops_eq {k : Nat} (ho : o.Packed) (hn : o.length = n + k) :
    (pops k o).1 = ((List.range k).map fun j => o.place (n + j)).reverse ∧
      (pops k o).2.length = n ∧ ∀ i < n, (pops k o).2.find? (toString i) = o.find? (toString i) := by
  induction k generalizing o with
  | zero => exact ⟨rfl, hn, fun _ _ => rfl⟩
  | succ k ih =>
    obtain ⟨hlast, hcut⟩ := ho.pop_eq (n := n + k) (by omega)
    obtain ⟨hvalues, hlength, hread⟩ := ih ho.pop hcut.length
    refine ⟨?_, hlength, fun i hi => (hread i hi).trans (hcut.kept i (by omega))⟩
    rw [pops, hvalues, hlast, List.range_succ, List.map_append, List.reverse_append]
    refine congrArg (_ :: ·) (congrArg List.reverse (List.map_congr_left fun j hj => ?_))
    rw [List.mem_range] at hj
    rw [place, place, hcut.kept _ (by omega)]

/-- **Push and pop are inverse, and a cut is exact**, on whatever operations make of an array: values
that fit are read behind its last place and leave those in front as they were; as many pops give them
back, the last one first, and the places in front are still the same. A write to the length keeps what is
in front of it, with all names in their order, and removes every index from there on. -/
theorem made_stack (ho : o.Made) :
    (∀ vs : List Value, o.length + vs.length ≤ maxArrayLength →
      o.Pushes vs (o.pushAll vs) ∧
      (∀ i < o.length, (o.pushAll vs).place i = o.place i) ∧
      (pops vs.length (o.pushAll vs)).1 = vs.reverse ∧
      (pops vs.length (o.pushAll vs)).2.length = o.length ∧
      ∀ i < o.length, (pops vs.length (o.pushAll vs)).2.place i = o.place i) ∧
    ∀ (h : Heap) (id : ObjectId) (value : Value) (enumerable : Bool),
      h.objects.get? id = some o → o.Cuts (Number.toUInt32 (h.number value)).toNat
        ((h.write id "length" value enumerable).objects.get id) := by
  have hpacked := ho.packed
  refine ⟨fun vs hfits => ?_, fun h id value enumerable hat => ?_⟩
  · have hpushes := hpacked.pushes hfits
    have hpushed : (o.pushAll vs).Packed := hpacked.pushAll
    obtain ⟨hvalues, hlength, hread⟩ := hpushed.pops_eq hpushes.length
    refine ⟨hpushes, fun i => hpushes.old, hvalues.trans (congrArg List.reverse ?_), hlength,
      fun i hi => ?_⟩
    · refine List.ext_getElem (by simp) fun k _ hk => ?_
      rw [List.getElem_map, List.getElem_range, place,
        hpushes.new k _ (List.getElem?_eq_getElem hk)]
      rfl
    · rw [place, hread i hi, ← place, hpushes.old hi]
  · rw [get_write hat, put, if_pos hpacked.array, if_pos rfl, if_pos ⟨rfl, hpacked.array⟩]
    have hle := newLength_le (v := value) h True
    rw [if_pos trivial] at hle
    exact hpacked.cuts hle

/-- Two values are pushed to an array with an index far behind its dense run, and popped again. -/
theorem made_stack_sparse :
    let o := ((Heap.newObject {} 0 (ofList [.null])).2.set ⟨0, 0⟩ "2000" .null).objects.get ⟨0, 0⟩
    o.Made ∧ o.length + 2 ≤ maxArrayLength ∧
      (pops 2 (o.pushAll [.null, .bool true])).1 = [.bool true, .null] := by
  intro o
  have hmade : o.Made := .edit (.ofList [.null] (by decide)) (.write _ ⟨0, 0⟩ "2000" .null true rfl)
  have hfits : o.length + 2 ≤ maxArrayLength := by decide +kernel
  exact ⟨hmade, hfits, ((made_stack hmade).1 [.null, .bool true] hfits).2.2.1⟩

/-! ## Searching -/

/-- What operations make of an array is made by operations on objects. -/
theorem Made.formed (ho : o.Made) : ∃ names, o.Formed names := by
  induction ho with
  | ofList values h => exact ⟨_, .ofList values h⟩
  | @edit o o' ho he ih =>
    obtain ⟨names, hnames⟩ := ih
    cases he with
    | write h id key value enumerable hat => exact ⟨_, .write hnames h id key value enumerable hat⟩
    | erase h id key hat => exact ⟨_, .erase hnames h id key hat⟩
    | pushAll values => exact ⟨_, .pushAll hnames ho.packed.array values⟩
    | pop => exact ⟨_, .pop hnames⟩

/-- What a search for a value answers: nothing if no own index holds such a value; else the first index
that does, or, of an array with too many empty places, how many own indices stand before it. -/
structure Searches (o : Object) (is : List Nat) (v : Value) (found : Option Nat) : Prop where
  none : found = none → ∀ i ∈ is, (o.place i).strictEquals v = false
  filled : ∀ k, found = some k → o.length - o.elements.size ≤ maxDenseGap →
    k < o.length ∧ (o.place k).strictEquals v = true ∧
      ∀ i ∈ is, i < k → (o.place i).strictEquals v = false
  sparse : ∀ k, found = some k → maxDenseGap < o.length - o.elements.size →
    ∃ i, is[k]? = some i ∧ (o.place i).strictEquals v = true ∧
      ∀ j ∈ is, j < i → (o.place j).strictEquals v = false

/-- The values of an array with few empty places are those of its places. -/
theorem Orderly.values_filled {names : List String} (ho : o.Orderly names)
    (hfew : o.length - o.elements.size ≤ maxDenseGap) :
    o.values = (List.range o.length).map o.place := by
  have hvalues := ho.values_eq
  rw [if_pos hfew] at hvalues
  refine List.map_injective_iff.mpr (fun _ _ => Option.some.inj) (hvalues.trans ?_)
  rw [List.map_map]
  rfl

/-- The values of any other array are those of its own indices. -/
theorem Orderly.values_sparse {names : List String} (ho : o.Orderly names)
    (hmany : ¬o.length - o.elements.size ≤ maxDenseGap) : o.values = o.indices.map o.place := by
  have hvalues := ho.values_eq
  rw [if_neg hmany] at hvalues
  refine List.map_injective_iff.mpr (fun _ _ => Option.some.inj) (hvalues.trans ?_)
  rw [List.map_map]
  refine List.map_congr_left fun i hi => ?_
  have hown := (ho.mem_indices_iff.mp hi).2.2
  rw [← isSome_find?] at hown
  obtain ⟨w, hw⟩ := Option.isSome_iff_exists.mp hown
  rw [hw, Function.comp_apply, place, hw]
  rfl

/-- Own indices lie below the length. -/
theorem Orderly.index_lt {names : List String} (ho : o.Orderly names) {i : Nat} (hi : i ∈ o.indices) :
    i < o.length := by
  have hpacked := ho.packed (ho.mem_indices_iff.mp hi).1
  rcases List.mem_append.mp hi with hi | hi
  · exact Nat.lt_of_lt_of_le (List.mem_range.mp hi) hpacked.dense
  · obtain ⟨⟨j, p⟩, hp, rfl⟩ := List.mem_map.mp hi
    obtain ⟨-, hp, hkey⟩ := mem_sparse_iff.mp hp
    exact hpacked.sparse p.key (List.mem_map_of_mem hp) j hkey

/-- In an ascending list, what is less stands before. -/
theorem lt_of_getElem_lt {is : List Nat} (his : is.Pairwise (· < ·)) {k m : Nat} (hk : k < is.length)
    (hm : m < is.length) (hlt : is[m] < is[k]) : m < k := by
  by_contra hge
  rcases Nat.lt_or_eq_of_le (Nat.not_lt.mp hge) with hkm | rfl
  · exact Nat.lt_asymm hlt (List.pairwise_iff_getElem.mp his k m hk hm hkm)
  · exact Nat.lt_irrefl _ hlt

theorem Orderly.searches {names : List String} (ho : o.Orderly names) (v : Value) :
    o.Searches o.indices v (o.values.findIdx? (·.strictEquals v)) := by
  by_cases hfew : o.length - o.elements.size ≤ maxDenseGap
  · rw [ho.values_filled hfew]
    refine ⟨fun hnone i hi => ?_, fun k hk _ => ?_, fun k _ hmany => absurd hfew (Nat.not_le.mpr hmany)⟩
    · have hmem := List.mem_map_of_mem (f := o.place) (List.mem_range.mpr (ho.index_lt hi))
      exact Bool.eq_false_iff.mpr (List.findIdx?_eq_none_iff.mp hnone _ hmem ▸ Bool.false_ne_true)
    · obtain ⟨hlt, hfound, hbefore⟩ := List.findIdx?_eq_some_iff_getElem.mp hk
      simp only [List.length_map, List.length_range] at hlt
      simp only [List.getElem_map, List.getElem_range, Bool.not_eq_true] at hfound hbefore
      exact ⟨hlt, hfound, fun i _ hi => hbefore i hi⟩
  · rw [ho.values_sparse hfew]
    refine ⟨fun hnone i hi => ?_, fun k _ hfew' => absurd hfew' hfew, fun k hk _ => ?_⟩
    · have hmem := List.mem_map_of_mem (f := o.place) hi
      exact Bool.eq_false_iff.mpr (List.findIdx?_eq_none_iff.mp hnone _ hmem ▸ Bool.false_ne_true)
    · obtain ⟨hlt, hfound, hbefore⟩ := List.findIdx?_eq_some_iff_getElem.mp hk
      rw [List.length_map] at hlt
      simp only [List.getElem_map, Bool.not_eq_true] at hfound hbefore
      refine ⟨o.indices[k], List.getElem?_eq_getElem hlt, hfound, fun j hj hjk => ?_⟩
      obtain ⟨m, hm, rfl⟩ := List.getElem_of_mem hj
      exact hbefore m (lt_of_getElem_lt ho.ownIndices.ascending hlt hm hjk)

/-- **What a search answers**, on whatever operations make of an array: the first index that holds such a
value, and -1 if no own index does. Only of an array with too many empty places it answers how many own
indices stand before that one. -/
theorem made_indexIn (ho : o.Made) (v : Value) : ∃ is found, o.Indices is ∧ o.Searches is v found ∧
    Builtin.indexIn o.values v = found.elim (.number (-1)) .ofNat := by
  obtain ⟨names, hformed⟩ := ho.formed
  refine ⟨o.indices, _, hformed.orderly.ownIndices, hformed.orderly.searches v, ?_⟩
  unfold Builtin.indexIn
  cases o.values.findIdx? (·.strictEquals v) <;> rfl

/-- The value stands at the index 2000, but the answer is 1, where nothing is. -/
theorem made_indexIn_sparse :
    let o := ((Heap.newObject {} 0 (ofList [.null])).2.set ⟨0, 0⟩ "2000" (.bool true)).objects.get ⟨0, 0⟩
    (∃ is found, o.Indices is ∧ o.Searches is (.bool true) found ∧
      Builtin.indexIn o.values (.bool true) = found.elim (.number (-1)) .ofNat) ∧
      Builtin.indexIn o.values (.bool true) = .ofNat 1 ∧ o.hasOwn "1" = false ∧
      (o.find? "2000").any (·.strictEquals (.bool true)) = true := by
  intro o
  have hmade : o.Made :=
    .edit (.ofList [.null] (by decide)) (.write _ ⟨0, 0⟩ "2000" (.bool true) true rfl)
  have hfound : o.values.findIdx? (·.strictEquals (.bool true)) = some 1 := by decide +kernel
  refine ⟨made_indexIn hmade (.bool true), ?_, by decide +kernel, by decide +kernel⟩
  rw [Builtin.indexIn, hfound]

end Fermata.Object
