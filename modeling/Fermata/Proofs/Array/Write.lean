import Fermata.Proofs.Array.Packed

/-!
# Writing an index

What an array reads after an index has been written, for every key at once. A write behind the dense
run, but close to it, makes the run longer and takes over the properties that it reaches. An old
value of the very index that is written is among them, and taking it over puts it where the new
value has just been put: the array keeps the old value (`Object.Stale`). In every other case the
index reads what was written last.

* `Object.late?`: what a key will read when all reached properties have been taken over,
* `Object.late?_absorb`: taking over does not change it,
* `Object.find?_putIndex`: what each key reads after a write,
* `Object.made_set_index`: the same for arrays that operations made.
-/

namespace Fermata.Object

variable {o : Object} {key : String} {v : Value} {i : Nat}

/-- The value of a key, properties first. -/
def late? (o : Object) (key : String) : Option Value :=
  ((o.stored? key).map (·.value)).or ((arrayIndex? key).bind (o.elements[·]?))

/-- The index has an old value that a write will take over after the new one. -/
def Stale (o : Object) (i : Nat) : Prop :=
  o.elements.size < i ∧ i - o.elements.size ≤ maxDenseGap ∧ o.hasOwn (toString i) = true

/-- The key is an index in the gap that a write to an index closes. -/
def Covered (o : Object) (i : Nat) (key : String) : Prop :=
  i - o.elements.size ≤ maxDenseGap ∧ ∃ j, arrayIndex? key = some j ∧ o.elements.size ≤ j ∧ j < i

/-! ## Reading properties first -/

/-- A packed array can be read in either order, its length apart. -/
theorem Packed.find?_eq_late? (ho : o.Packed) (hkey : key ≠ "length") :
    o.find? key = o.late? key := by
  cases hindex : arrayIndex? key with
  | none => simp [find?, late?, ho.array, hkey, hindex]
  | some i =>
    rw [find?_index ho.array hindex, late?, hindex, Option.bind_some]
    by_cases hi : i < o.elements.size
    · rw [ho.stored?_eq_none hindex (Nat.le_of_lt hi), Option.map_none, Option.or_none,
        Option.none_or]
    · rw [Array.getElem?_eq_none (by omega), Option.or_none, Option.none_or]

/-- Taking a property away changes what is stored under its key and nothing else. -/
theorem Bounded.stored?_split {p : Property} {before after : List Property} (ho : o.Bounded)
    (hps : o.properties = before ++ p :: after) (key : String) :
    (key = p.key → o.stored? key = some p ∧ (before ++ after).find? (·.key == key) = none) ∧
    (key ≠ p.key → o.stored? key = (before ++ after).find? (·.key == key)) := by
  have hother : p.key ∉ (before ++ after).map (·.key) := by
    have hdistinct : (o.properties.map (·.key)).Nodup := ho.distinct
    rw [hps, (List.perm_middle.map _).nodup_iff, List.map_cons, List.nodup_cons] at hdistinct
    exact hdistinct.1
  have hnone : ∀ {ps : List Property}, (∀ q ∈ ps, q ∈ before ++ after) →
      ps.find? (·.key == p.key) = none := by
    intro ps hsub
    refine List.find?_eq_none.mpr fun q hq hkey => hother ?_
    exact List.mem_map.mpr ⟨q, hsub q hq, eq_of_beq hkey⟩
  rw [stored?, hps]
  constructor
  · rintro rfl
    rw [List.find?_append, List.find?_cons_of_pos (by simp),
      hnone fun q hq => List.mem_append_left after hq, Option.none_or]
    exact ⟨rfl, hnone fun _ => id⟩
  · intro hkey
    rw [List.find?_append, List.find?_cons_of_neg (by simpa using hkey.symm), List.find?_append]

/-- A round moves a value from the properties to the dense run and changes nothing else. -/
theorem Bounded.late?_takeIn {rest : List Property} (ho : o.Bounded)
    (htake : takeReached? o.elements.size o.properties = some (i, v, rest)) (key : String) :
    (o.takeIn i v rest).late? key = o.late? key := by
  obtain ⟨p, before, after, hps, rfl, rfl, hindex, hle⟩ := takeReached?_eq_some htake
  obtain ⟨hsame, hother⟩ := ho.stored?_split hps key
  have hstored : (o.takeIn i p.value (before ++ after)).stored? key =
      (before ++ after).find? (·.key == key) := rfl
  by_cases hkey : key = p.key
  · obtain ⟨hold, hnew⟩ := hsame hkey
    rw [late?, late?, hstored, hold, hnew, hkey, hindex, Option.bind_some, getElem?_takeIn hle,
      if_pos rfl]
    rfl
  · rw [late?, late?, hstored, hother hkey]
    congr 1
    cases hj : arrayIndex? key with
    | none => rfl
    | some j =>
      have hji : j ≠ i := by
        rintro rfl
        exact hkey (arrayIndex?_inj hj hindex)
      rw [Option.bind_some, getElem?_takeIn hle, if_neg hji]
      rfl

/-- Taking over changes no value. -/
theorem Bounded.late?_absorb (ho : o.Bounded) (fuel : Nat) (key : String) :
    (o.absorb fuel).late? key = o.late? key := by
  refine (absorb_induct (P := fun a => a.Bounded ∧ a.late? key = o.late? key) fuel ⟨ho, rfl⟩ ?_).2
  rintro a i v rest htake ⟨ha, hlate⟩
  exact ⟨ha.takeIn htake, (ha.late?_takeIn htake key).trans hlate⟩

/-! ## Reading after a write -/

/-- What an array reads after a value was written to an index. -/
structure Written (o : Object) (i : Nat) (v : Value) (o' : Object) : Prop where
  length : o'.length = max o.length (i + 1)
  lengthKey : o'.find? "length" = some (.ofNat (max o.length (i + 1)))
  new : ¬ o.Stale i → o'.find? (toString i) = some v
  stale : o.Stale i → o'.find? (toString i) = o.find? (toString i)
  kept : ∀ key w, key ≠ toString i → key ≠ "length" → o.find? key = some w →
    o'.find? key = some w
  covered : ∀ key, o.Covered i key → o.find? key = none → o'.find? key = some .undefined
  absent : ∀ key, key ≠ toString i → key ≠ "length" → ¬ o.Covered i key → o.find? key = none →
    o'.find? key = none

/-- The key of a stored property. -/
theorem key_of_stored? {p : Property} (h : o.stored? key = some p) : p.key = key := by
  unfold stored? at h
  simpa using List.find?_some h

/-- A change of the properties that keeps their keys changes what is stored under each. -/
theorem find?_map_key {f : Property → Property} (hf : ∀ p, (f p).key = p.key)
    (ps : List Property) (k : String) :
    (ps.map f).find? (·.key == k) = (ps.find? (·.key == k)).map f := by
  rw [List.find?_map]
  congr 2
  funext p
  rw [Function.comp_apply, hf]

/-- Storing a property changes what is stored under its key and nothing else. -/
theorem value_stored?_store {enumerable : Bool} (k : String) :
    ((o.store key v enumerable).stored? k).map (·.value) =
      if k = key then some v else (o.stored? k).map (·.value) := by
  unfold store
  split
  next hsome =>
    have hkeep : ∀ p : Property, (if p.key == key then { p with value := v } else p).key = p.key :=
      fun p => by split <;> rfl
    rw [stored?, find?_map_key hkeep, ← stored?, Option.map_map]
    obtain ⟨q, hq⟩ := Option.isSome_iff_exists.mp hsome
    cases hp : o.stored? k with
    | none =>
      have hk : k ≠ key := by
        rintro rfl
        rw [hq] at hp
        cases hp
      rw [if_neg hk]
      rfl
    | some p =>
      rw [Option.map_some, Function.comp_apply, key_of_stored? hp]
      by_cases hk : k = key
      · rw [if_pos (beq_iff_eq.mpr hk), if_pos hk]
      · rw [if_neg (mt beq_iff_eq.mp hk), if_neg hk]
        rfl
  next hnone =>
    have hnone : o.stored? key = none := by simpa using hnone
    rw [stored?, List.find?_append, ← stored?]
    by_cases hk : k = key
    · rw [hk, hnone, if_pos rfl]
      simp
    · rw [if_neg hk, List.find?_singleton, if_neg (mt beq_iff_eq.mp (Ne.symm hk)), Option.or_none]

/-- What is stored under another key stays, with its visibility. -/
theorem stored?_store_of_ne {enumerable : Bool} {k : String} (hne : k ≠ key) :
    (o.store key v enumerable).stored? k = o.stored? k := by
  unfold store
  split
  · have hkeep : ∀ p : Property, (if p.key == key then { p with value := v } else p).key = p.key :=
      fun p => by split <;> rfl
    rw [stored?, find?_map_key hkeep, ← stored?]
    cases hp : o.stored? k with
    | none => rfl
    | some p => rw [Option.map_some, key_of_stored? hp, if_neg (mt beq_iff_eq.mp hne)]
  · rw [stored?, List.find?_append, ← stored?, List.find?_singleton,
      if_neg (mt beq_iff_eq.mp (Ne.symm hne)), Option.or_none]

/-- The dense run after it was extended over a gap, up to an index. -/
theorem getElem?_extend {a : Array Value} (hi : a.size ≤ i) (j : Nat) :
    ((a ++ Array.replicate (i - a.size) Value.undefined).push v)[j]? =
      if j = i then some v else if a.size ≤ j ∧ j < i then some .undefined else a[j]? := by
  rw [Array.getElem?_push, Array.size_append, Array.size_replicate, Nat.add_sub_cancel' hi,
    Array.getElem?_append, Array.getElem?_replicate]
  split
  · rfl
  · grind

/-- What an index reads comes from the dense run if no property has its key. -/
theorem late?_toString (hi : i < maxArrayLength) :
    o.late? (toString i) = ((o.stored? (toString i)).map (·.value)).or o.elements[i]? := by
  rw [late?, arrayIndex?_toString hi, Option.bind_some]

/-- A change of one element is seen under its index and nowhere else. -/
theorem late?_elements {o' : Object} (hstored : o'.stored? = o.stored?)
    (helements : ∀ j, j ≠ i → o'.elements[j]? = o.elements[j]?) (hkey : key ≠ toString i) :
    o'.late? key = o.late? key := by
  rw [late?, late?, hstored]
  congr 1
  cases hj : arrayIndex? key with
  | none => rfl
  | some j =>
    refine helements j ?_
    rintro rfl
    exact hkey (arrayIndex?_eq_some_iff.mp hj).1

/-- A write to the dense run. -/
theorem Packed.late?_dense (ho : o.Packed) (hi : i < maxArrayLength) (hdense : i < o.elements.size)
    (key : String) :
    (o.putIndex i v).late? key = if key = toString i then some v else o.late? key := by
  unfold Object.putIndex
  rw [if_pos hdense]
  split
  next hkey =>
    have hnone : o.stored? (toString i) = none :=
      ho.stored?_eq_none (arrayIndex?_toString hi) (Nat.le_of_lt hdense)
    rw [hkey, late?_toString hi]
    show (((o.stored? (toString i)).map (·.value)).or (o.elements.setIfInBounds i v)[i]?) = some v
    rw [hnone, Array.getElem?_setIfInBounds_self_of_lt hdense]
    rfl
  next hkey =>
    refine late?_elements rfl (fun j hj => ?_) hkey
    exact Array.getElem?_setIfInBounds_ne hj.symm

/-- A write far behind the dense run. -/
theorem late?_far (hfar : ¬ i - o.elements.size ≤ maxDenseGap) (key : String) :
    (o.putIndex i v).late? key = if key = toString i then some v else o.late? key := by
  have hsize : ¬ i < o.elements.size := by omega
  have hlate : (o.putIndex i v).late? key =
      ((((o.store (toString i) v true).stored? key).map (·.value)).or
        ((arrayIndex? key).bind (o.elements[·]?))) := by
    unfold Object.putIndex
    simp only [hsize, hfar, if_false]
    rw [late?]
    simp only [elements_store]
    rfl
  rw [hlate, value_stored?_store]
  split
  · rfl
  · rfl

/-- A write that makes the dense run longer. -/
theorem Packed.late?_near (ho : o.Packed) (hi : i < maxArrayLength) (hle : o.elements.size ≤ i)
    (hnear : i - o.elements.size ≤ maxDenseGap) (key : String) :
    (o.putIndex i v).late? key =
      ((o.stored? key).map (·.value)).or ((arrayIndex? key).bind fun j =>
        if j = i then some v
        else if o.elements.size ≤ j ∧ j < i then some .undefined
        else o.elements[j]?) := by
  have hsize : ¬ i < o.elements.size := by omega
  unfold Object.putIndex
  simp only [hsize, hnear, if_false, if_true]
  rw [(ho.extend hi hle).late?_absorb, late?]
  simp only [getElem?_extend hle]
  rfl

/-- An index behind the dense run reads what is stored under its key. -/
theorem find?_behind (harray : o.isArray = true) (hkey : arrayIndex? key = some i)
    (hle : o.elements.size ≤ i) : o.find? key = (o.stored? key).map (·.value) := by
  rw [find?_index harray hkey, Array.getElem?_eq_none hle, Option.none_or]

/-- An index behind the dense run is an own key if a property is stored under it. -/
theorem hasOwn_behind (harray : o.isArray = true) (hkey : arrayIndex? key = some i)
    (hle : o.elements.size ≤ i) : o.hasOwn key = (o.stored? key).isSome := by
  unfold hasOwn
  simp [harray, ne_length_of_arrayIndex? hkey, hkey, Nat.not_lt.mpr hle]

/-- Taking over leaves the length. -/
theorem length_absorb (fuel : Nat) : (o.absorb fuel).length = o.length :=
  absorb_induct (P := fun a => a.length = o.length) fuel rfl fun _ _ _ _ _ h => h

/-- A write makes the array as long as its index asks for. -/
theorem length_putIndex : (o.putIndex i v).length = max o.length (i + 1) := by
  unfold putIndex
  dsimp only
  split
  · rfl
  · split
    · exact length_absorb _
    · rfl

/-- A write that changes the value of one key alone. -/
theorem Packed.written_of_late? (ho : o.Packed) (hi : i < maxArrayLength)
    (hstale : ¬ o.Stale i) (hcovered : ∀ key, ¬ o.Covered i key)
    (hlate : ∀ key, (o.putIndex i v).late? key = if key = toString i then some v else o.late? key) :
    Written o i v (o.putIndex i v) := by
  have ho' := ho.putIndex (v := v) hi
  have hkeep : ∀ key, key ≠ toString i → key ≠ "length" →
      (o.putIndex i v).find? key = o.find? key := by
    intro key hne hlength
    rw [ho'.find?_eq_late? hlength, hlate, if_neg hne, ho.find?_eq_late? hlength]
  exact
    { length := length_putIndex
      lengthKey := by simp [find?, ho'.array, length_putIndex]
      new := fun _ => by
        rw [ho'.find?_eq_late? (ne_length_of_arrayIndex? (arrayIndex?_toString hi)), hlate,
          if_pos rfl]
      stale := fun h => absurd h hstale
      kept := fun key w hne hlength hw => (hkeep key hne hlength).trans hw
      covered := fun key h => absurd h (hcovered key)
      absent := fun key hne hlength _ hnone => (hkeep key hne hlength).trans hnone }

/-! What keys read after a write that makes the dense run longer: the key itself, the keys of the
gap, and the others. -/

theorem Packed.find?_near (ho : o.Packed) (hi : i < maxArrayLength) (hle : o.elements.size ≤ i)
    (hnear : i - o.elements.size ≤ maxDenseGap) : (o.putIndex i v).find? (toString i) =
      ((o.stored? (toString i)).map (·.value)).or (some v) := by
  have hindex := arrayIndex?_toString hi
  rw [(ho.putIndex hi).find?_eq_late? (ne_length_of_arrayIndex? hindex),
    ho.late?_near hi hle hnear, hindex, Option.bind_some, if_pos rfl]

theorem Packed.find?_near_gap (ho : o.Packed) (hi : i < maxArrayLength)
    (hle : o.elements.size ≤ i) (hnear : i - o.elements.size ≤ maxDenseGap)
    (hcovered : o.Covered i key) :
    (o.putIndex i v).find? key = ((o.stored? key).map (·.value)).or (some .undefined) ∧
      o.find? key = (o.stored? key).map (·.value) := by
  obtain ⟨-, j, hkey, hj⟩ := hcovered
  refine ⟨?_, find?_behind ho.array hkey hj.1⟩
  rw [(ho.putIndex hi).find?_eq_late? (ne_length_of_arrayIndex? hkey),
    ho.late?_near hi hle hnear, hkey, Option.bind_some, if_neg (by omega), if_pos hj]

theorem Packed.find?_near_rest (ho : o.Packed) (hi : i < maxArrayLength)
    (hle : o.elements.size ≤ i) (hnear : i - o.elements.size ≤ maxDenseGap)
    (hne : key ≠ toString i) (hlength : key ≠ "length") (hcovered : ¬ o.Covered i key) :
    (o.putIndex i v).find? key = o.find? key := by
  rw [(ho.putIndex hi).find?_eq_late? hlength, ho.late?_near hi hle hnear,
    ho.find?_eq_late? hlength, late?]
  congr 1
  cases hj : arrayIndex? key with
  | none => rfl
  | some j =>
    have hji : j ≠ i := by
      rintro rfl
      exact hne (arrayIndex?_eq_some_iff.mp hj).1
    rw [Option.bind_some, Option.bind_some, if_neg hji,
      if_neg fun h => hcovered ⟨hnear, j, hj, h⟩]

/-- A write that makes the dense run longer. -/
theorem Packed.written_near (ho : o.Packed) (hi : i < maxArrayLength) (hle : o.elements.size ≤ i)
    (hnear : i - o.elements.size ≤ maxDenseGap) : Written o i v (o.putIndex i v) := by
  have ho' := ho.putIndex (v := v) hi
  have hindex := arrayIndex?_toString hi
  have hself := ho.find?_near (v := v) hi hle hnear
  refine ⟨length_putIndex, ?_, fun hfresh => ?_, fun hstale => ?_, fun key w hne hlength hw => ?_,
    fun key hcovered hnone => ?_, fun key hne hlength hcovered hnone => ?_⟩
  · simp [find?, ho'.array, length_putIndex]
  · have hnone : o.stored? (toString i) = none := by
      by_cases heq : o.elements.size = i
      · exact ho.stored?_eq_none hindex (Nat.le_of_eq heq.symm)
      · refine Option.not_isSome_iff_eq_none.mp fun hsome => hfresh ⟨by omega, hnear, ?_⟩
        rw [hasOwn_behind ho.array hindex hle, hsome]
    rw [hself, hnone]
    rfl
  · obtain ⟨_, _, hown⟩ := hstale
    rw [hasOwn_behind ho.array hindex hle] at hown
    obtain ⟨p, hp⟩ := Option.isSome_iff_exists.mp hown
    rw [hself, find?_behind ho.array hindex hle, hp]
    rfl
  · by_cases hcovered : o.Covered i key
    · obtain ⟨hnew, hold⟩ := ho.find?_near_gap (v := v) hi hle hnear hcovered
      rw [hnew, ← hold, hw, Option.some_or]
    · exact (ho.find?_near_rest hi hle hnear hne hlength hcovered).trans hw
  · obtain ⟨hnew, hold⟩ := ho.find?_near_gap (v := v) hi hle hnear hcovered
    rw [hnew, ← hold, hnone, Option.none_or]
  · exact (ho.find?_near_rest hi hle hnear hne hlength hcovered).trans hnone

/-- What each key reads after a write to an index. -/
theorem Packed.written (ho : o.Packed) (hi : i < maxArrayLength) :
    Written o i v (o.putIndex i v) := by
  by_cases hdense : i < o.elements.size
  · refine ho.written_of_late? hi (fun h => ?_) (fun key h => ?_) (ho.late?_dense hi hdense)
    · exact absurd h.1 (by omega)
    · obtain ⟨-, j, -, hj⟩ := h
      omega
  by_cases hnear : i - o.elements.size ≤ maxDenseGap
  · exact ho.written_near hi (by omega) hnear
  · exact ho.written_of_late? hi (fun h => hnear h.2.1) (fun key h => hnear h.1) (late?_far hnear)

/-- A value that is written to an index of an array, whatever operations made the array, is what the
index reads from then on, unless the index was kept among the properties and the write makes the
dense run reach it: then the index reads its old value. The array is as long as before or ends right
behind the index. Every other key reads the value that it had, and a key without one has none
either, except for the indices in a gap that the write closes, which read `undefined`. -/
theorem made_set_index (ho : o.Made) {h : Heap} {id : ObjectId} (hat : h.objects.get? id = some o)
    (hi : i < maxArrayLength) : Written o i v ((h.set id (toString i) v).objects.get id) := by
  have hput : (h.set id (toString i) v).objects.get id = o.putIndex i v := by
    have hkey := arrayIndex?_toString hi
    rw [Heap.set, get_write hat, put, if_pos ho.packed.array,
      if_neg (ne_length_of_arrayIndex? hkey), hkey]
  rw [hput]
  exact ho.packed.written hi

/-- An index far behind the dense run keeps its old value when the run has come closer. -/
theorem made_set_index_stale :
    let h₀ := (Heap.newObject {} 0 (ofList [])).2
    let h₁ := h₀.set ⟨0, 0⟩ "1025" (.string "old")
    let h₂ := h₁.set ⟨0, 0⟩ "0" .null
    let h₃ := h₂.set ⟨0, 0⟩ (toString 1025) (.string "new")
    Written (h₂.objects.get ⟨0, 0⟩) 1025 (.string "new") (h₃.objects.get ⟨0, 0⟩) ∧
      (h₃.objects.get ⟨0, 0⟩).find? (toString 1025) = some (.string "old") := by
  intro h₀ h₁ h₂ h₃
  have hfirst : Made (h₁.objects.get ⟨0, 0⟩) :=
    .edit (.ofList [] (by decide)) (.write h₀ ⟨0, 0⟩ "1025" (.string "old") true rfl)
  have hmade : Made (h₂.objects.get ⟨0, 0⟩) :=
    .edit hfirst (.write h₁ ⟨0, 0⟩ "0" .null true rfl)
  have hat : h₂.objects.get? ⟨0, 0⟩ = some (h₂.objects.get ⟨0, 0⟩) := rfl
  have hwritten := made_set_index (v := .string "new") hmade hat (by decide : 1025 < maxArrayLength)
  refine ⟨hwritten, (hwritten.stale ⟨?_, ?_, ?_⟩).trans ?_⟩
  · decide +kernel
  · decide +kernel
  · decide +kernel
  · cbv

end Fermata.Object
