import Fermata.Builtin.Basic
import Fermata.Proofs.Json.Text
import Fermata.Proofs.Walk.Text
import Mathlib.Data.String.Basic

/-!
# Data that goes through text

Data is what is made of null, truth values, texts, arrays and plain objects. As JSON it is a tree without
numbers in which no object has a name twice (`Json.Data`); as a value it is a finite tree of objects in a
heap (`Heap.Data`). Written as text and read again it is the same data.

* `Json.Canonical.sorted`: a tree whose members stand in ascending order is sorted.
* `Heap.Data.toJson`: the JSON of data is such a tree, and nests as deep as the data.
* `Heap.brings_ofJson`: what is built from a tree are new objects alone, which spell the tree.
* **`Builtin.parse_stringify`**: data nested at most 127 deep goes through text.
-/

namespace Fermata

namespace Json

/-! ## Trees -/

/-- A tree without numbers; `P` holds of the names of each of its objects. -/
inductive DataWith (P : List String → Prop) : Json → Prop
  | null : DataWith P .null
  | bool (b : Bool) : DataWith P (.bool b)
  | string (s : String) : DataWith P (.string s)
  | array {items : List Json} : (∀ j ∈ items, DataWith P j) → DataWith P (.array items)
  | object {members : List (String × Json)} : P (members.map (·.1)) →
      (∀ m ∈ members, DataWith P m.2) → DataWith P (.object members)

/-- A tree without numbers, in which no object has a name twice. -/
abbrev Data : Json → Prop := DataWith List.Nodup

/-- A tree without numbers, in which the names of each object ascend. -/
abbrev Canonical : Json → Prop := DataWith (List.Pairwise (· < ·))

variable {P : List String → Prop} {j : Json} {js : List Json} {ms : List (String × Json)} {n : Nat}

theorem DataWith.mono {Q : List String → Prop} (h : j.DataWith P) (hPQ : ∀ names, P names → Q names) :
    j.DataWith Q := by
  induction h with
  | null => exact .null
  | bool b => exact .bool b
  | string s => exact .string s
  | array _ ih => exact .array ih
  | object hnames _ ih => exact .object (hPQ _ hnames) ih

/-- Names that ascend are distinct. -/
theorem Canonical.data (h : j.Canonical) : j.Data :=
  h.mono fun _ hnames => hnames.imp fun hlt => ne_of_lt hlt

theorem legibleItems_iff : LegibleItems js ↔ ∀ j ∈ js, j.Legible := by
  induction js with
  | nil => simp [LegibleItems]
  | cons j js ih => simp [LegibleItems, ih]

theorem legibleMembers_iff : LegibleMembers ms ↔ ∀ m ∈ ms, m.2.Legible := by
  induction ms with
  | nil => simp [LegibleMembers]
  | cons m ms ih => simp [LegibleMembers, ih]

theorem DataWith.legible (h : j.DataWith P) : j.Legible := by
  induction h with
  | array _ ih => simpa only [Legible, legibleItems_iff] using ih
  | object _ _ ih => simpa only [Legible, legibleMembers_iff] using ih
  | _ => simp only [Legible]

theorem nestingItems_le : nestingItems js ≤ n ↔ ∀ j ∈ js, j.nesting ≤ n := by
  induction js with
  | nil => simp [nestingItems]
  | cons j js ih => simp [nestingItems, ih]

theorem nestingMembers_le : nestingMembers ms ≤ n ↔ ∀ m ∈ ms, m.2.nesting ≤ n := by
  induction ms with
  | nil => simp [nestingMembers]
  | cons m ms ih => simp [nestingMembers, ih]

/-! ### Members in their order -/

variable {name : String} {m : String × Json}

theorem mem_insert {v : Json} (hm : m ∈ insert name v ms) : m = (name, v) ∨ m ∈ ms := by
  induction ms with
  | nil => exact .inl (List.mem_singleton.mp hm)
  | cons e ms ih =>
    obtain ⟨k, w⟩ := e
    unfold insert at hm
    split at hm
    · exact List.mem_cons.mp hm
    · split at hm
      · exact (List.mem_cons.mp hm).imp_right (List.mem_cons_of_mem _)
      · rcases List.mem_cons.mp hm with rfl | hm
        · exact .inr List.mem_cons_self
        · exact (ih hm).imp_right (List.mem_cons_of_mem _)

/-- A member that is put in its place leaves the names ascending. -/
theorem ascending_insert {v : Json} (h : (ms.map (·.1)).Pairwise (· < ·)) :
    ((insert name v ms).map (·.1)).Pairwise (· < ·) := by
  induction ms with
  | nil => exact List.pairwise_singleton _ _
  | cons e ms ih =>
    obtain ⟨k, w⟩ := e
    rw [List.map_cons, List.pairwise_cons] at h
    unfold insert
    split
    next hlt =>
      refine List.pairwise_cons.mpr ⟨fun x hx => ?_, List.pairwise_cons.mpr h⟩
      rcases List.mem_cons.mp hx with rfl | hx
      · exact hlt
      · exact lt_trans hlt (h.1 x hx)
    next hge =>
      split
      next heq => exact List.pairwise_cons.mpr ⟨fun x hx => heq ▸ h.1 x hx, h.2⟩
      next hne =>
        refine List.pairwise_cons.mpr ⟨fun x hx => ?_, ih h.2⟩
        obtain ⟨m, hm, rfl⟩ := List.mem_map.mp hx
        rcases mem_insert hm with rfl | hm
        · exact lt_of_le_of_ne (not_lt.mp hge) (Ne.symm hne)
        · exact h.1 m.1 (List.mem_map_of_mem hm)

/-- A member whose name is behind all others is put last. -/
theorem insert_last {v : Json} (h : ∀ m ∈ ms, m.1 < name) :
    insert name v ms = ms ++ [(name, v)] := by
  induction ms with
  | nil => rfl
  | cons e ms ih =>
    obtain ⟨k, w⟩ := e
    have hk : k < name := h (k, w) List.mem_cons_self
    unfold insert
    rw [if_neg hk.asymm, if_neg hk.ne', ih fun m hm => h m (List.mem_cons_of_mem _ hm)]
    rfl

theorem mem_foldl_insert {sofar : List (String × Json)}
    (hm : m ∈ ms.foldl (fun sofar m => insert m.1 m.2 sofar) sofar) : m ∈ ms ∨ m ∈ sofar := by
  induction ms generalizing sofar with
  | nil => exact .inr hm
  | cons e ms ih =>
    rcases ih hm with hm | hm
    · exact .inl (List.mem_cons_of_mem _ hm)
    · exact (mem_insert hm).imp (fun (he : m = e) => he ▸ List.mem_cons_self) id

theorem ascending_foldl_insert {sofar : List (String × Json)}
    (h : (sofar.map (·.1)).Pairwise (· < ·)) :
    ((ms.foldl (fun sofar m => insert m.1 m.2 sofar) sofar).map (·.1)).Pairwise (· < ·) := by
  induction ms generalizing sofar with
  | nil => exact h
  | cons e ms ih => exact ih (ascending_insert h)

theorem foldl_insert_of_ascending {sofar : List (String × Json)}
    (h : ((sofar ++ ms).map (·.1)).Pairwise (· < ·)) :
    ms.foldl (fun sofar m => insert m.1 m.2 sofar) sofar = sofar ++ ms := by
  induction ms generalizing sofar with
  | nil => exact (List.append_nil _).symm
  | cons e ms ih =>
    have hlast : ∀ m ∈ sofar, m.1 < e.1 := fun m hm => by
      rw [List.map_append, List.pairwise_append] at h
      exact h.2.2 m.1 (List.mem_map_of_mem hm) e.1 List.mem_cons_self
    rw [List.foldl_cons, insert_last hlast, ih (by rwa [List.append_assoc]), List.append_assoc]
    rfl

/-- Members put in their places are an object whose names ascend. -/
theorem canonical_ofMembers (h : ∀ m ∈ ms, m.2.Canonical) : (ofMembers ms).Canonical :=
  .object (ascending_foldl_insert List.Pairwise.nil) fun m hm =>
    (mem_foldl_insert hm).elim (h m) fun hm => absurd hm List.not_mem_nil

theorem nesting_ofMembers_le (h : ∀ m ∈ ms, m.2.nesting ≤ n) : (ofMembers ms).nesting ≤ n + 1 := by
  simp only [ofMembers, nesting, Nat.add_le_add_iff_right, nestingMembers_le]
  exact fun m hm => (mem_foldl_insert hm).elim (h m) fun hm => absurd hm List.not_mem_nil

/-- **A tree whose names ascend is sorted.** -/
theorem Canonical.sorted (h : j.Canonical) : j.sorted = j := by
  induction h with
  | array _ ih =>
    simp only [Json.sorted, sortedItems_eq, array.injEq]
    exact (List.map_congr_left ih).trans (List.map_id' _)
  | @object members hnames _ ih =>
    have hsame : ∀ m ∈ members, (m.1, m.2.sorted) = m := fun m hm => Prod.ext rfl (ih m hm)
    have hmembers : sortedMembers members = members := by
      rw [sortedMembers_eq]
      exact (List.map_congr_left hsame).trans (List.map_id' _)
    simp only [Json.sorted, ofMembers, hmembers]
    exact congrArg Json.object (foldl_insert_of_ascending hnames)
  | _ => simp only [Json.sorted]

/-- An object made of members has a member of a name exactly if one of them has the name. -/
theorem isSome_member?_ofMembers :
    ((ofMembers ms).member? name).isSome = true ↔ name ∈ ms.map (·.1) := by
  simp only [ofMembers, member?, lookup_foldl_insert, List.lookup_nil, Option.or_none]
  rw [← List.mem_reverse, ← List.map_reverse]
  induction ms.reverse with
  | nil => simp
  | cons e es ih =>
    obtain ⟨k, w⟩ := e
    rw [lookup_cons, List.map_cons, List.mem_cons]
    split <;> simp_all

end Json

namespace Heap

/-! ## Values -/

/-- Data nested at most `n` deep: null, truth values and texts, arrays with data as elements, and plain
objects with data as properties. As it is a tree of this depth, it does not lead back into itself. -/
inductive Data (h : Heap) : Nat → Value → Prop
  | null (n : Nat) : Data h n .null
  | bool (n : Nat) (b : Bool) : Data h n (.bool b)
  | string (n : Nat) (s : String) : Data h n (.string s)
  | array {n : Nat} {id : ObjectId} {o : Object} : h.objects.get? id = some o → o.isArray = true →
      (∀ v ∈ o.values, Data h n v) → Data h (n + 1) (.object id)
  | plain {n : Nat} {id : ObjectId} {o : Object} : h.objects.get? id = some o → o.class_ = .plain →
      (∀ e ∈ o.entries, Data h n e.2) → Data h (n + 1) (.object id)

variable {h k : Heap} {n : Nat} {v w : Value} {id : ObjectId} {o : Object}

theorem get_of_get? (hat : h.objects.get? id = some o) : h.objects.get id = o := by
  rw [Store.get, hat]
  rfl

/-- JSON leaves no data out. -/
theorem Data.listed (hv : h.Data n v) : (v.isUndefined || v.isCallable) = false := by
  cases hv <;> rfl

theorem shown_of_plain (hat : h.objects.get? id = some o) (hplain : o.class_ = .plain)
    (hdata : ∀ e ∈ o.entries, h.Data n e.2) : h.shown id = o.entries := by
  have herror : o.class_ ≠ .error := by
    rw [hplain]
    decide
  rw [shown, get_of_get? hat, if_neg herror, List.filter_eq_self]
  exact fun e he => by rw [(hdata e he).listed]; rfl

theorem Data.part (hid : h.Data (n + 1) (.object id)) (hw : w ∈ h.shownParts id) : h.Data n w := by
  unfold shownParts at hw
  cases hid with
  | array hat harray hdata =>
    rw [get_of_get? hat, if_pos harray] at hw
    exact hdata w hw
  | plain hat hplain hdata =>
    rw [get_of_get? hat, Object.isArray, hplain, shown_of_plain hat hplain hdata,
      if_neg (by decide)] at hw
    obtain ⟨e, he, rfl⟩ := List.mem_map.mp hw
    exact hdata e he

theorem Data.mono {m : Nat} (hv : h.Data n v) (hmn : n ≤ m) : h.Data m v := by
  induction hv generalizing m with
  | null => exact .null m
  | bool _ b => exact .bool m b
  | string _ s => exact .string m s
  | array hat harray _ ih =>
    obtain ⟨m, rfl⟩ := Nat.exists_eq_succ_of_ne_zero (Nat.ne_zero_of_lt hmn)
    exact .array hat harray fun v hv => ih v hv (Nat.le_of_succ_le_succ hmn)
  | plain hat hplain _ ih =>
    obtain ⟨m, rfl⟩ := Nat.exists_eq_succ_of_ne_zero (Nat.ne_zero_of_lt hmn)
    exact .plain hat hplain fun e he => ih e he (Nat.le_of_succ_le_succ hmn)

theorem Data.comesTo (hv : h.Data n v) (hreach : h.ComesTo v id) : h.Data n (.object id) := by
  induction hreach generalizing n with
  | here id => exact hv
  | part hw _ ih =>
    cases n with
    | zero => cases hv
    | succ n => exact (ih (hv.part hw)).mono (Nat.le_succ n)

/-- Data does not lead back into itself. -/
theorem Data.acyclic (hid : h.Data n (.object id)) (hw : w ∈ h.shownParts id) : ¬ h.ComesTo w id := by
  induction n with
  | zero => cases hid
  | succ n ih => exact fun hreach => ih ((hid.part hw).comesTo hreach) hreach

/-- The JSON of data is made of the JSON of its parts. -/
theorem Data.toJson_object (hid : h.Data n (.object id)) :
    h.toJson (.object id) = h.objectJson h.toJson id := by
  have hpath : ∀ w ∈ h.shownParts id, h.Unfolds [id] w (h.toJson w) := fun w hw =>
    ((h.toJson_unfolds w).2.2.2 [id] w
      (fun x hx => List.mem_singleton.mp hx ▸ hid.acyclic hw) _).mpr rfl
  refine (((h.toJson_unfolds (.object id)).2.1 _).mp ?_).symm
  rw [objectJson_eq]
  split
  next harray =>
    refine .array List.not_mem_nil harray (List.length_map _) fun p hp => ?_
    rw [(mem_zip_map hp).2]
    refine hpath _ ?_
    rw [shownParts, if_pos harray]
    exact (mem_zip_map hp).1
  next hplain =>
    refine .object List.not_mem_nil (Bool.eq_false_iff.mpr hplain) (List.length_map _)
      (fun p hp => by rw [(mem_zip_map hp).2]) fun p hp => ?_
    rw [(mem_zip_map hp).2]
    refine hpath _ ?_
    rw [shownParts, if_neg hplain]
    exact List.mem_map_of_mem (mem_zip_map hp).1

theorem toJson_array (hid : h.Data n (.object id)) (hat : h.objects.get? id = some o)
    (harray : o.isArray = true) : h.toJson (.object id) = .array (o.values.map h.toJson) := by
  rw [hid.toJson_object, objectJson_eq, get_of_get? hat, if_pos harray]

theorem toJson_plain (hat : h.objects.get? id = some o) (hplain : o.class_ = .plain)
    (hdata : ∀ e ∈ o.entries, h.Data n e.2) :
    h.toJson (.object id) = .ofMembers (o.entries.map fun e => (e.1, h.toJson e.2)) := by
  rw [(Data.plain hat hplain hdata).toJson_object, objectJson_eq, get_of_get? hat,
    if_neg (by rw [Object.isArray, hplain]; decide), shown_of_plain hat hplain hdata]

/-- **The JSON of data has no numbers, its names ascend, and it nests as deep as the data.** -/
theorem Data.toJson (hv : h.Data n v) : (h.toJson v).Canonical ∧ (h.toJson v).nesting ≤ n := by
  induction hv with
  | null n => exact ⟨.null, Nat.zero_le n⟩
  | bool n b => exact ⟨.bool b, Nat.zero_le n⟩
  | string n s => exact ⟨.string s, Nat.zero_le n⟩
  | array hat harray hdata ih =>
    rw [toJson_array (.array hat harray hdata) hat harray]
    simp only [Json.nesting, Nat.add_le_add_iff_right, Json.nestingItems_le]
    constructor
    · refine .array fun j hj => ?_
      obtain ⟨v, hv, rfl⟩ := List.mem_map.mp hj
      exact (ih v hv).1
    · intro j hj
      obtain ⟨v, hv, rfl⟩ := List.mem_map.mp hj
      exact (ih v hv).2
  | plain hat hplain hdata ih =>
    rw [toJson_plain hat hplain hdata]
    constructor
    · refine Json.canonical_ofMembers fun m hm => ?_
      obtain ⟨e, he, rfl⟩ := List.mem_map.mp hm
      exact (ih e he).1
    · refine Json.nesting_ofMembers_le fun m hm => ?_
      obtain ⟨e, he, rfl⟩ := List.mem_map.mp hm
      exact (ih e he).2

theorem Data.entries (hid : h.Data n (.object id)) (hat : h.objects.get? id = some o)
    (hplain : o.class_ = .plain) : ∀ e ∈ o.entries, h.Data n e.2 := by
  cases hid with
  | array hat' harray =>
    cases hat.symm.trans hat'
    rw [Object.isArray, hplain] at harray
    cases harray
  | plain hat' _ hdata =>
    cases hat.symm.trans hat'
    exact fun e he => (hdata e he).mono (Nat.le_succ _)

/-- The names in the JSON of a plain object are its keys. -/
theorem Data.mem_keys (hid : h.Data n (.object id)) (hat : h.objects.get? id = some o)
    (hplain : o.class_ = .plain) (key : String) :
    key ∈ o.keys ↔ ((h.toJson (.object id)).member? key).isSome = true := by
  rw [toJson_plain hat hplain (hid.entries hat hplain), Json.isSome_member?_ofMembers, List.map_map,
    Object.keys]
  rfl

/-- Data whose JSON is an object is a plain object. -/
theorem Data.plain_of_toJson {ms : List (String × Json)} (hv : h.Data n v)
    (hjson : h.toJson v = .ofMembers ms) :
    ∃ id o, v = .object id ∧ h.objects.get? id = some o ∧ o.class_ = .plain := by
  cases hv with
  | null | bool | string => cases hjson
  | array hat harray hdata =>
    rw [toJson_array (.array hat harray hdata) hat harray] at hjson
    cases hjson
  | plain hat hplain => exact ⟨_, _, rfl, hat, hplain⟩

/-! ## Building

What is built from a tree consists of new objects. As none of them is shared with anything else, the value
spells the tree in every heap that has these objects as they were built.
-/

/-- The value spells the tree: it is data of its depth, and the sorted tree is its JSON. -/
def Spells (h : Heap) (v : Value) (j : Json) : Prop := h.Data j.nesting v ∧ h.toJson v = j.sorted

/-- Every object is still there, as it was. -/
def Keeps (h h' : Heap) : Prop := ∀ a o, h.objects.get? a = some o → h'.objects.get? a = some o

/-- The objects that `h'` has and `h` has not are there. -/
def HasNew (h h' k : Heap) : Prop :=
  ∀ a o, h.objects.get? a = none → h'.objects.get? a = some o → k.objects.get? a = some o

/-- From `h` to `h'`, new objects came that the value spells the tree with. -/
structure Brings (h h' : Heap) (v : Value) (j : Json) : Prop where
  kept : h.Keeps h'
  spells : ∀ k, HasNew h h' k → k.Spells v j

/-- From `h` to `h'`, new objects came that the values spell the trees with. -/
structure BringsAll (h h' : Heap) (vs : List Value) (js : List Json) : Prop where
  kept : h.Keeps h'
  spells : ∀ k, HasNew h h' k → List.Forall₂ k.Spells vs js

variable {h₁ h₂ h' : Heap} {vs : List Value} {j : Json} {js : List Json} {es : List (String × Value)}
  {ms : List (String × Json)} {name : String} {region : Nat}

theorem Keeps.refl (h : Heap) : h.Keeps h := fun _ _ hat => hat

theorem Keeps.trans (hkeeps : h.Keeps h₁) (hthen : h₁.Keeps h₂) : h.Keeps h₂ :=
  fun a o hat => hthen a o (hkeeps a o hat)

theorem Keeps.none (hkeeps : h.Keeps h') {a : ObjectId} (ha : h'.objects.get? a = none) :
    h.objects.get? a = none := by
  cases hat : h.objects.get? a with
  | none => rfl
  | some o => exact nomatch ha.symm.trans (hkeeps a o hat)

theorem HasNew.before (hnew : HasNew h h₂ k) (hkeeps : h₁.Keeps h₂) : HasNew h h₁ k :=
  fun a o hnone hat => hnew a o hnone (hkeeps a o hat)

theorem HasNew.after (hnew : HasNew h h₂ k) (hkeeps : h.Keeps h₁) : HasNew h₁ h₂ k :=
  fun a o hnone hat => hnew a o (hkeeps.none hnone) hat

theorem get?_newObject (h : Heap) (region : Nat) (o : Object) :
    (h.newObject region o).2.objects.get? (h.newObject region o).1 = some o := by
  rw [newObject, Store.get?_push, if_pos rfl]

theorem keeps_newObject (h : Heap) (region : Nat) (o : Object) : h.Keeps (h.newObject region o).2 := by
  intro a p hat
  rw [newObject, Store.get?_push, if_neg, hat]
  rintro rfl
  rw [Store.get?_next] at hat
  cases hat

/-- A value without parts. -/
theorem Brings.plain (hdata : ∀ k : Heap, k.Spells v j) (h : Heap) : Brings h h v j :=
  ⟨.refl h, fun k _ => hdata k⟩

/-! ### Arrays -/

theorem values_ofList (vs : List Value) : (Object.ofList vs).values = vs := by
  simp [Object.values, Object.ofList]

theorem spells_items (hvs : List.Forall₂ h.Spells vs js) :
    (∀ v ∈ vs, h.Data (Json.nestingItems js) v) ∧ vs.map h.toJson = Json.sortedItems js := by
  induction hvs with
  | nil => exact ⟨nofun, rfl⟩
  | @cons v j vs js hv _ ih =>
    rw [Json.nestingItems, Json.sortedItems, List.map_cons, hv.2, ih.2]
    refine ⟨fun w hw => ?_, rfl⟩
    rcases List.mem_cons.mp hw with rfl | hw
    · exact hv.1.mono (Nat.le_max_left ..)
    · exact (ih.1 w hw).mono (Nat.le_max_right ..)

theorem spells_array (hat : h.objects.get? id = some (.ofList vs)) (hvs : List.Forall₂ h.Spells vs js) :
    h.Spells (.object id) (.array js) := by
  obtain ⟨hparts, hitems⟩ := spells_items hvs
  have hdata : h.Data (Json.nestingItems js + 1) (.object id) :=
    .array hat rfl (by rwa [values_ofList])
  refine ⟨by rwa [Json.nesting], ?_⟩
  rw [toJson_array hdata hat rfl, values_ofList, hitems, Json.sorted]

theorem BringsAll.nil (h : Heap) : BringsAll h h [] [] := ⟨.refl h, fun _ _ => .nil⟩

theorem BringsAll.cons (hv : Brings h h₁ v j) (hvs : BringsAll h₁ h' vs js) :
    BringsAll h h' (v :: vs) (j :: js) where
  kept := hv.kept.trans hvs.kept
  spells k hnew := .cons (hv.spells k (hnew.before hvs.kept)) (hvs.spells k (hnew.after hv.kept))

/-- The elements come first, and then the array. -/
theorem BringsAll.array (hvs : BringsAll h h₁ vs js) (region : Nat) :
    Brings h (h₁.newObject region (.ofList vs)).2 (.object (h₁.newObject region (.ofList vs)).1)
      (.array js) where
  kept := hvs.kept.trans (keeps_newObject _ _ _)
  spells k hnew := by
    have hfresh : h.objects.get? (h₁.newObject region (.ofList vs)).1 = none :=
      hvs.kept.none (Store.get?_next ..)
    exact spells_array (hnew _ _ hfresh (get?_newObject ..))
      (hvs.spells k (hnew.before (keeps_newObject _ _ _)))

/-! ### Objects -/

/-- The plain object of these entries. -/
def ofEntries (es : List (String × Value)) : Object :=
  { class_ := .plain, properties := es.map fun e => ⟨e.1, e.2, true⟩ }

theorem entries_ofEntries (es : List (String × Value)) : (ofEntries es).entries = es := by
  simp [Object.entries, ofEntries, Object.sparse, Object.isArray, List.filter_map, Function.comp_def]

/-- A new key goes behind the others. -/
theorem put_ofEntries (hname : name ∉ es.map (·.1)) (v : Value) (n : Nat) :
    (ofEntries es).put name v n true = ofEntries (es ++ [(name, v)]) := by
  have hstored : ((ofEntries es).stored? name).isSome = false := by
    simp only [Object.stored?, ofEntries, List.find?_isSome, Bool.eq_false_iff, ne_eq]
    rintro ⟨p, hp, hkey⟩
    obtain ⟨e, he, rfl⟩ := List.mem_map.mp hp
    exact hname (beq_iff_eq.mp hkey ▸ List.mem_map_of_mem he)
  rw [Object.put, if_neg (show ¬ (ofEntries es).isArray = true from nofun), Object.store, hstored]
  simp [ofEntries]

theorem get?_set (hat : h.objects.get? id = some (ofEntries es)) (hname : name ∉ es.map (·.1))
    (v : Value) (a : ObjectId) :
    (h.set id name v).objects.get? a =
      if a = id then some (ofEntries (es ++ [(name, v)])) else h.objects.get? a := by
  rw [Heap.set, Heap.write, Store.get?_modify]
  split
  next ha => rw [ha, hat, Option.map_some, put_ofEntries hname]
  next => rfl

theorem spells_members (hes : List.Forall₂ (fun e m => e.1 = m.1 ∧ h.Spells e.2 m.2) es ms) :
    (∀ e ∈ es, h.Data (Json.nestingMembers ms) e.2) ∧
      es.map (fun e => (e.1, h.toJson e.2)) = Json.sortedMembers ms := by
  induction hes with
  | nil => exact ⟨nofun, rfl⟩
  | @cons e m es ms he _ ih =>
    rw [Json.nestingMembers, Json.sortedMembers, List.map_cons, he.1, he.2.2, ih.2]
    refine ⟨fun w hw => ?_, rfl⟩
    rcases List.mem_cons.mp hw with rfl | hw
    · exact he.2.1.mono (Nat.le_max_left ..)
    · exact (ih.1 w hw).mono (Nat.le_max_right ..)

theorem spells_object (hat : h.objects.get? id = some (ofEntries es))
    (hes : List.Forall₂ (fun e m => e.1 = m.1 ∧ h.Spells e.2 m.2) es ms) :
    h.Spells (.object id) (.object ms) := by
  obtain ⟨hparts, hmembers⟩ := spells_members hes
  have hdata : ∀ e ∈ (ofEntries es).entries, h.Data (Json.nestingMembers ms) e.2 := by
    rwa [entries_ofEntries]
  refine ⟨?_, ?_⟩
  · rw [Json.nesting]
    exact .plain hat rfl hdata
  · rw [toJson_plain hat rfl hdata, entries_ofEntries, hmembers, Json.sorted]

/-- From `h` to `h'`, the object got properties that spell the members, and the others stayed. -/
structure Fills (h h' : Heap) (id : ObjectId) (es : List (String × Value)) (ms : List (String × Json)) :
    Prop where
  others : ∀ a o, a ≠ id → h.objects.get? a = some o → h'.objects.get? a = some o
  filled : ∃ es', h'.objects.get? id = some (ofEntries (es ++ es')) ∧ ∀ k, HasNew h h' k →
    List.Forall₂ (fun e m => e.1 = m.1 ∧ k.Spells e.2 m.2) es' ms

theorem Fills.nil (hat : h.objects.get? id = some (ofEntries es)) : Fills h h id es [] :=
  ⟨fun _ _ _ hat => hat, [], by rwa [List.append_nil], fun _ _ => .nil⟩

theorem Fills.cons (hat : h.objects.get? id = some (ofEntries es)) (hv : Brings h h₁ v j)
    (hname : name ∉ es.map (·.1)) (hms : Fills (h₁.set id name v) h' id (es ++ [(name, v)]) ms) :
    Fills h h' id es ((name, j) :: ms) := by
  have hset : ∀ a, (h₁.set id name v).objects.get? a =
      if a = id then some (ofEntries (es ++ [(name, v)])) else h₁.objects.get? a :=
    get?_set (hv.kept id _ hat) hname v
  have hothers : ∀ a o, a ≠ id → h₁.objects.get? a = some o → h'.objects.get? a = some o :=
    fun a o hne hat => hms.others a o hne (by rwa [hset, if_neg hne])
  obtain ⟨es', hat', hspells⟩ := hms.filled
  refine ⟨fun a o hne hat => hothers a o hne (hv.kept a o hat), (name, v) :: es', ?_, ?_⟩
  · rw [hat', List.append_assoc, List.singleton_append]
  · refine fun k hnew => .cons ⟨rfl, hv.spells k fun a o hnone hat' => ?_⟩
      (hspells k fun a o hnone hat' => hnew a o ?_ hat')
    · -- the value was there before the object got it
      have hne : a ≠ id := by
        rintro rfl
        cases hat.symm.trans hnone
      exact hnew a o hnone (hothers a o hne hat')
    · rw [hset] at hnone
      split at hnone
      · cases hnone
      · exact hv.kept.none hnone

/-- The object comes first, and then its properties. -/
theorem Fills.object
    (hms : Fills (h.newObject region (.empty none)).2 h' (h.newObject region (.empty none)).1 [] ms) :
    Brings h h' (.object (h.newObject region (.empty none)).1) (.object ms) := by
  have hkeeps := keeps_newObject h region (.empty none)
  have hkept : h.Keeps h' := by
    intro a o hat
    refine hms.others a o ?_ (hkeeps a o hat)
    rintro rfl
    exact nomatch (Store.get?_next h.objects region).symm.trans hat
  obtain ⟨es, hat, hspells⟩ := hms.filled
  exact ⟨hkept, fun k hnew => spells_object (hnew _ _ (Store.get?_next ..) hat)
    (hspells k (hnew.after hkeeps))⟩

/-! ### Trees -/

theorem bringsAll_ofJsonItems (h : Heap) (region : Nat)
    (hjs : ∀ j ∈ js, ∀ h : Heap, Brings h (h.ofJson region j).2 (h.ofJson region j).1 j) :
    BringsAll h (h.ofJsonItems region js).2 (h.ofJsonItems region js).1 js := by
  induction js generalizing h with
  | nil => exact .nil h
  | cons j js ih =>
    exact .cons (hjs j List.mem_cons_self h) (ih _ fun k hk => hjs k (List.mem_cons_of_mem j hk))

theorem fills_ofJsonMembers (region : Nat)
    (hms : ∀ m ∈ ms, ∀ h : Heap, Brings h (h.ofJson region m.2).2 (h.ofJson region m.2).1 m.2)
    (hat : h.objects.get? id = some (ofEntries es)) (hnames : (es.map (·.1) ++ ms.map (·.1)).Nodup) :
    Fills h (h.ofJsonMembers region id ms) id es ms := by
  induction ms generalizing h es with
  | nil => exact .nil hat
  | cons m ms ih =>
    obtain ⟨name, j⟩ := m
    have hname : name ∉ es.map (·.1) := fun hmem =>
      (List.nodup_append.mp hnames).2.2 name hmem name List.mem_cons_self rfl
    have hv := hms (name, j) List.mem_cons_self h
    refine .cons hat hv hname (ih (fun m hm => hms m (List.mem_cons_of_mem _ hm)) ?_ ?_)
    · rw [get?_set (hv.kept id _ hat) hname, if_pos rfl]
    · rwa [List.map_append, List.append_assoc]

/-- **A value that is built from a tree spells the tree**, with new objects alone. -/
theorem brings_ofJson (hj : j.Data) (h : Heap) (region : Nat) :
    Brings h (h.ofJson region j).2 (h.ofJson region j).1 j := by
  induction hj generalizing h with
  | null => exact .plain (fun _ => ⟨.null _, rfl⟩) h
  | bool b => exact .plain (fun _ => ⟨.bool _ b, rfl⟩) h
  | string s => exact .plain (fun _ => ⟨.string _ s, rfl⟩) h
  | array _ ih => exact (bringsAll_ofJsonItems h region fun j hj h => ih j hj h).array region
  | object hnames _ ih =>
    refine Fills.object (fills_ofJsonMembers region (fun m hm h => ih m hm h) ?_ hnames)
    exact get?_newObject ..

/-- A value that is built from a tree has the tree as its JSON. -/
theorem spells_ofJson (hj : j.Data) (h : Heap) (region : Nat) :
    (h.ofJson region j).2.Spells (h.ofJson region j).1 j :=
  (brings_ofJson hj h region).spells _ fun _ _ _ hat => hat

end Heap

/-! ## Through text -/

namespace Builtin

theorem text_string (h : Heap) (s : String) : h.text (.string s) = s := by
  rw [Heap.text, Heap.textFrom_plain (v := .string s) nofun 0]
  rfl

/-- What data is written as is the text of its JSON. -/
theorem stringify_data {c : Core} {n : Nat} {v : Value} (hv : c.heap.Data n v) (this : Value) :
    run .jsonStringify this [v] c = .ok (.string (c.heap.toJson v).compact) c := by
  cases hv <;> rfl

/-- What is read from the text of a tree is built from the sorted tree. -/
theorem parse_text {j : Json} (hj : j.Legible) (hn : j.nesting < Json.depthLimit) (c : Core)
    (this : Value) :
    run .jsonParse this [.string j.compact] c =
      .ok (c.heap.ofJson c.engine.region j.sorted).1
        { c with heap := (c.heap.ofJson c.engine.region j.sorted).2 } := by
  have hread : Json.parse (c.heap.text (arg [.string j.compact] 0)) = .ok j.sorted := by
    rw [show arg [.string j.compact] 0 = .string j.compact from rfl, text_string]
    exact Json.parse_compact hj hn
  have hreads : ∀ q : String → Act Value, ((Act.reads (·.text (arg [.string j.compact] 0))) >>= q) c =
      q (c.heap.text (arg [.string j.compact] 0)) c := fun _ => rfl
  unfold run parse
  simp only [List.isEmpty_cons, Bool.false_eq_true, if_false]
  rw [hreads, hread]
  rfl

/-- **Data goes through text.** Writing data that is nested at most 127 deep gives a text, and reading that
text, now or later and in whatever engine, gives a value with the same JSON; a plain object keeps its keys.
Every text in quotes reads back as the text, and a tree without numbers whose names ascend is the JSON of the
value that is built from it. -/
theorem parse_stringify {c : Core} {v : Value} (hv : c.heap.Data 127 v) :
    (∃ text, ∀ this, run .jsonStringify this [v] c = .ok (.string text) c ∧
      ∀ (d : Core) (that : Value), ∃ w d', run .jsonParse that [.string text] d = .ok w d' ∧
        d'.heap.Data 127 w ∧ d'.heap.toJson w = c.heap.toJson v ∧
        ∀ id o, v = .object id → c.heap.objects.get? id = some o → o.class_ = .plain →
          ∃ id' o', w = .object id' ∧ d'.heap.objects.get? id' = some o' ∧ o'.class_ = .plain ∧
            ∀ key, key ∈ o'.keys ↔ key ∈ o.keys) ∧
      (∀ s, Json.parse (Json.quote s) = .ok (.string s)) ∧
      ∀ (j : Json) (h : Heap) (region : Nat), j.Canonical →
        (h.ofJson region j).2.toJson (h.ofJson region j).1 = j := by
  obtain ⟨hcanonical, hnesting⟩ := hv.toJson
  have hdeep : (c.heap.toJson v).nesting < Json.depthLimit := Nat.lt_succ_of_le hnesting
  refine ⟨⟨(c.heap.toJson v).compact, fun this => ⟨stringify_data hv this, fun d that => ?_⟩⟩,
    fun s => ?_, fun j h region hj => ?_⟩
  · have hread := parse_text hcanonical.legible hdeep d that
    rw [hcanonical.sorted] at hread
    obtain ⟨hdata, hjson⟩ := Heap.spells_ofJson hcanonical.data d.heap d.engine.region
    rw [hcanonical.sorted] at hjson
    refine ⟨_, _, hread, hdata.mono hnesting, hjson, ?_⟩
    rintro id o rfl hat hplain
    obtain ⟨id', o', hw, hat', hplain'⟩ :=
      hdata.plain_of_toJson (hjson.trans (Heap.toJson_plain hat hplain (hv.entries hat hplain)))
    rw [hw] at hdata hjson
    exact ⟨id', o', hw, hat', hplain', fun key => by
      rw [hdata.mem_keys hat' hplain', hv.mem_keys hat hplain, hjson]⟩
  · exact Json.parse_compact (j := .string s) (by simp only [Json.Legible]) (Nat.zero_lt_succ _)
  · rw [(Heap.spells_ofJson hj.data h region).2, hj.sorted]

/-- An object that has an index as its key, with a text that needs escapes. -/
theorem parse_stringify_escapes :
    let j : Json := .object [("0", .array [.null, .string "\"\n"])]
    let made := (default : Heap).ofJson 0 j
    let c : Core := { (default : Core) with heap := made.2 }
    c.heap.Data 127 made.1 ∧ ∃ text, run .jsonStringify .undefined [made.1] c = .ok (.string text) c ∧
      ∃ w d, run .jsonParse .undefined [.string text] c = .ok w d ∧ d.heap.toJson w = j := by
  intro j made c
  have hj : j.Canonical := .object (List.pairwise_singleton _ _) fun m hm => by
    rw [List.mem_singleton.mp hm]
    refine .array fun k hk => ?_
    rcases List.mem_cons.mp hk with rfl | hk
    · exact .null
    · exact List.mem_singleton.mp hk ▸ .string _
  obtain ⟨hdata, hjson⟩ := Heap.spells_ofJson hj.data default 0
  have hdeep : c.heap.Data 127 made.1 := hdata.mono (by simp [j, Json.nesting, Json.nestingMembers,
    Json.nestingItems])
  obtain ⟨⟨text, hwrite⟩, -⟩ := parse_stringify hdeep
  obtain ⟨w, d, hread, -, hsame, -⟩ := (hwrite .undefined).2 c .undefined
  exact ⟨hdeep, text, (hwrite .undefined).1, w, d, hread, hsame.trans (hjson.trans hj.sorted)⟩

end Builtin

end Fermata
