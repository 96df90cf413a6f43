import Fermata.Heap.Inspect
import Fermata.Proofs.Walk.Chain
import Fermata.Proofs.Walk.Depth
import Mathlib.Tactic.Linarith

/-!
# Texts and JSON of values

No text goes deeper than the square of the number of objects, and no JSON deeper than their number: between
two errors every array is written once, every error has its text once and for all, and JSON goes into
every object once. So the bound of JSON is never what decides: a greater one gives the same JSON.

* `Heap.textFrom_eq`: texts within the bound of the heap.
* `Heap.toJsonWithin_eq`: greater bounds for JSON.
-/

namespace Fermata

namespace Heap

variable {h : Heap} {m n : Nat} {seen : List ObjectId} {v : Value} {t u : String}

/-! ## Texts -/

theorem textWithin_unique (ht : h.textWithin m seen v = some t)
    (hu : h.textWithin n seen v = some u) : t = u :=
  Option.some.inj
    ((textWithin_mono (Nat.le_max_left m n) ht).symm.trans (textWithin_mono (Nat.le_max_right m n) hu))

/-- A bound on the depth of every text that ends: between two errors each array occurs once, and
each error once altogether. -/
def textDepth (h : Heap) : Nat := (h.objectCount + 1) * (h.objectCount + 1)

/-- The addresses of the objects of a class. -/
def idsOf (h : Heap) (c : ObjectClass) : Finset ObjectId :=
  h.objectIds.filter fun id => (h.objects.get id).class_ = c

theorem mem_idsOf {c : ObjectClass} {id : ObjectId} (hc : c ≠ .plain)
    (hid : (h.objects.get id).class_ = c) : id ∈ h.idsOf c := by
  refine Finset.mem_filter.mpr ⟨?_, hid⟩
  by_contra hmem
  rw [get_eq_default hmem] at hid
  exact hc hid.symm

theorem card_idsOf (h : Heap) :
    (h.idsOf .array).card + (h.idsOf .error).card ≤ h.objectCount := by
  have hdisjoint : Disjoint (h.idsOf .array) (h.idsOf .error) := by
    refine Finset.disjoint_left.mpr fun id harray herror => ?_
    have hclass := (Finset.mem_filter.mp harray).2
    rw [(Finset.mem_filter.mp herror).2] at hclass
    cases hclass
  rw [← Finset.card_union_of_disjoint hdisjoint]
  exact (Finset.card_le_card (Finset.union_subset (Finset.filter_subset _ _)
    (Finset.filter_subset _ _))).trans h.card_objectIds

/-- The error has a text within this bound. -/
def Ends (h : Heap) (n : Nat) (id : ObjectId) : Prop :=
  id ∈ h.idsOf .error ∧ (h.textWithin n [] (.object id)).isSome

theorem Ends.mono {id : ObjectId} (hmn : m ≤ n) (hid : h.Ends m id) : h.Ends n id := by
  obtain ⟨s, hs⟩ := Option.isSome_iff_exists.mp hid.2
  refine ⟨hid.1, ?_⟩
  rw [textWithin_mono hmn hs]
  rfl

/-- Where errors have their texts, arrays can only be nested as deep as there are arrays. -/
theorem textWithin_arrays (hnodup : seen.Nodup) (hseen : ∀ id ∈ seen, id ∈ h.idsOf .array)
    (hends : ∀ id, h.Ends m id → h.Ends n id) (ht : h.textWithin m seen v = some t) :
    h.textWithin (n + 1 + ((h.idsOf .array).card - seen.length)) seen v = some t := by
  induction m generalizing seen v t with
  | zero =>
    by_cases hv : ∃ id, v = .object id
    · obtain ⟨id, rfl⟩ := hv
      rw [textWithin_zero] at ht
      cases ht
    · exact (textWithin_plain (fun id hid => hv ⟨id, hid⟩) _ 0 seen).trans ht
  | succ m ih =>
    have hpart : ∀ (seen : List ObjectId) (v : Value) (t : String), seen.Nodup →
        (∀ id ∈ seen, id ∈ h.idsOf .array) → h.textWithin m seen v = some t →
        h.textWithin (n + 1 + ((h.idsOf .array).card - seen.length)) seen v = some t :=
      fun _ _ _ hnodup hseen =>
        ih hnodup hseen fun id hid => hends id (hid.mono (Nat.le_succ m))
    by_cases hv : ∃ id, v = .object id
    · obtain ⟨id, rfl⟩ := hv
      have hwhole := ht
      rw [textWithin_succ] at ht
      rw [Nat.add_right_comm, textWithin_succ]
      by_cases hin : seen.contains id = true
      · rwa [if_pos hin] at ht ⊢
      · have hfresh : id ∉ seen := fun h => hin (List.contains_iff_mem.mpr h)
        rw [if_neg hin] at ht ⊢
        by_cases herror : (h.objects.get id).class_ = .error
        · -- the error ends with nothing around it, within `n`
          have hid : h.Ends (m + 1) id := by
            refine ⟨mem_idsOf (by decide) herror, ?_⟩
            rw [textWithin_succ, if_neg (by simp), objectText_error herror [] seen, ht]
            rfl
          obtain ⟨s, hs⟩ := Option.isSome_iff_exists.mp (hends id hid).2
          have hs' := textWithin_mono (n := n + ((h.idsOf .array).card - seen.length) + 1) (by omega) hs
          rw [textWithin_succ, if_neg (by simp), objectText_error herror [] seen] at hs'
          have hs₀ : h.textWithin (m + 1) [] (.object id) = some t := by
            rw [textWithin_succ, if_neg (by simp), objectText_error herror [] seen, ht]
          exact textWithin_unique hs hs₀ ▸ hs'
        · refine objectText_of_some (fun harray w s hs => ?_) (fun hc => absurd hc herror) ht
          have hid := mem_idsOf (by decide) harray
          have hless : seen.length < (h.idsOf .array).card := by
            have hinsert : insert id seen.toFinset ⊆ h.idsOf .array :=
              Finset.insert_subset hid fun x hx => hseen x (List.mem_toFinset.mp hx)
            have hcard := Finset.card_le_card hinsert
            rw [Finset.card_insert_of_notMem (by rwa [List.mem_toFinset]),
              List.toFinset_card_of_nodup hnodup] at hcard
            exact hcard
          refine textWithin_mono ?_ (hpart (id :: seen) w s (List.nodup_cons.mpr ⟨hfresh, hnodup⟩)
            (fun x hx => (List.mem_cons.mp hx).elim (fun heq => heq ▸ hid) (hseen x)) hs)
          rw [List.length_cons]
          omega
    · exact (textWithin_plain (fun id hid => hv ⟨id, hid⟩) _ (m + 1) seen).trans ht

/-- Every error that has a text has it within this bound. -/
theorem ends_bound {id : ObjectId} (hid : h.Ends n id) :
    h.Ends ((h.idsOf .error).card * ((h.idsOf .array).card + 2)) id := by
  refine holds_at_card (P := h.Ends) _ _ Ends.mono (fun hx => hx.1) (fun {m n x} hall hx => ?_) hid
  obtain ⟨t, ht⟩ := Option.isSome_iff_exists.mp hx.2
  refine ⟨hx.1, ?_⟩
  have herror := (Finset.mem_filter.mp hx.1).2
  rw [textWithin_succ, if_neg (by simp)] at ht
  rw [show n + ((h.idsOf .array).card + 2) = n + 1 + (h.idsOf .array).card + 1 by omega,
    textWithin_succ, if_neg (by simp)]
  rw [objectText_of_some (fun harray => ?_) (fun _ w s hs => ?_) ht]
  · rfl
  · rw [herror] at harray
    cases harray
  · exact textWithin_arrays List.nodup_nil nofun hall hs

/-- Every text that there is is found within the bound of the heap. -/
theorem textWithin_depth (ht : h.textWithin n [] v = some t) :
    h.textWithin h.textDepth [] v = some t := by
  refine textWithin_mono ?_ (textWithin_arrays List.nodup_nil nofun (fun id hid => ends_bound hid) ht)
  have hcard := h.card_idsOf
  rw [textDepth, List.length_nil, Nat.sub_zero]
  generalize (h.idsOf .error).card = e at hcard ⊢
  generalize (h.idsOf .array).card = a at hcard ⊢
  have hsquare : (e + a + 1) * (e + a + 1) ≤ (h.objectCount + 1) * (h.objectCount + 1) :=
    Nat.mul_le_mul (by omega) (by omega)
  nlinarith

/-- **A text that there is is found within the bound of the heap.** -/
theorem textFrom_eq (h : Heap) (v : Value) : h.textFrom [] v = h.textWithin h.textDepth [] v := by
  refine Option.ext fun t => ?_
  rw [textFrom_eq_some_iff]
  exact ⟨fun ⟨n, ht⟩ => textWithin_depth ht, fun ht => ⟨_, ht⟩⟩

/-! ## JSON -/

/-- The JSON of an object, its parts being unfolded by `part`. -/
def objectJson (h : Heap) (part : Value → Json) (id : ObjectId) : Json :=
  match (h.objects.get id).class_ with
  | .array => .array ((h.objects.get id).values.map part)
  | .error =>
    .ofMembers ([Object.nameKey, Object.messageKey].filterMap fun k =>
      (h.lookup? id k).map fun v => (k, part v))
  | .plain | .function =>
    .ofMembers (((h.objects.get id).entries.filter fun e => !skipped e.2).map fun e =>
      (e.1, part e.2))

theorem toJsonWithin_succ (h : Heap) (n : Nat) (path : List ObjectId) (id : ObjectId) :
    h.toJsonWithin (n + 1) path (.object id) =
      if path.contains id then .null else h.objectJson (h.toJsonWithin n (id :: path)) id := by
  rw [toJsonWithin]
  by_cases hin : path.contains id
  · rw [if_pos hin, if_pos hin]
  · rw [if_neg hin, if_neg hin]
    unfold objectJson
    generalize h.objects.get id = o
    obtain ⟨class_, properties, elements, length, proto⟩ := o
    cases class_ <;> rfl

/-- What has no identity, or no parts, is unfolded at once. -/
theorem toJsonWithin_plain (hv : ∀ id, v ≠ .object id) (m n : Nat) (path : List ObjectId) :
    h.toJsonWithin m path v = h.toJsonWithin n path v := by
  cases v with
  | object id => exact absurd rfl (hv id)
  | _ =>
    unfold toJsonWithin
    rfl

theorem length_lt_of_fresh {path : List ObjectId} {id : ObjectId} (hnodup : (id :: path).Nodup)
    (hpath : ∀ x ∈ id :: path, x ∈ h.objectIds) : path.length < h.objectCount := by
  have hcard := Finset.card_le_card (s := (id :: path).toFinset) (t := h.objectIds)
    fun x hx => hpath x (List.mem_toFinset.mp hx)
  rw [List.toFinset_card_of_nodup hnodup, List.length_cons] at hcard
  exact hcard.trans h.card_objectIds

/-- A greater bound leaves the JSON of a value. -/
theorem toJsonWithin_eq {path : List ObjectId} (hnodup : path.Nodup)
    (hpath : ∀ id ∈ path, id ∈ h.objectIds) (hm : h.objectCount + 1 ≤ m + path.length)
    (hn : h.objectCount + 1 ≤ n + path.length) (v : Value) :
    h.toJsonWithin m path v = h.toJsonWithin n path v := by
  by_cases hv : ∃ id, v = .object id
  · obtain ⟨id, rfl⟩ := hv
    have hshort : path.length ≤ h.objectCount := by
      cases path with
      | nil => exact Nat.zero_le _
      | cons x path => exact length_lt_of_fresh hnodup hpath
    induction m generalizing n path id with
    | zero => omega
    | succ m ih =>
      obtain ⟨n, rfl⟩ := Nat.exists_eq_succ_of_ne_zero (show n ≠ 0 by omega)
      rw [toJsonWithin_succ, toJsonWithin_succ]
      split
      · rfl
      · rename_i hin
        by_cases hid : id ∈ h.objectIds
        · have hnodup : (id :: path).Nodup :=
            List.nodup_cons.mpr ⟨fun h => hin (List.contains_iff_mem.mpr h), hnodup⟩
          have hpath : ∀ x ∈ id :: path, x ∈ h.objectIds := List.forall_mem_cons.mpr ⟨hid, hpath⟩
          have hlong := length_lt_of_fresh hnodup hpath
          refine congrArg (h.objectJson · id) (funext fun w => ?_)
          by_cases hw : ∃ x, w = .object x
          · obtain ⟨x, rfl⟩ := hw
            exact ih hnodup hpath (by rw [List.length_cons]; omega) (by rw [List.length_cons]; omega)
              x hlong
          · exact toJsonWithin_plain (fun x hx => hw ⟨x, hx⟩) m n _
        · unfold objectJson
          rw [get_eq_default hid]
          rfl
  · exact toJsonWithin_plain (fun id hid => hv ⟨id, hid⟩) m n path

/-- JSON takes no more steps than there are objects, and one. -/
theorem toJson_eq (hn : h.objectCount + 1 ≤ n) (v : Value) : h.toJsonWithin n [] v = h.toJson v :=
  toJsonWithin_eq List.nodup_nil nofun hn le_rfl v

end Heap

/-!
## JSON as an unfolding

Objects form a graph, with sharing and with cycles; JSON is a tree. The tree of a value is its unfolding:
a reference to an object that is being unfolded further up is null, and nothing else is cut short. What
stands beside an object never hides it, so what is shared is written out wherever it is met.

* `Heap.Unfolds`: the unfolding below a path of objects, as rules. A derivation is finite, so a value with
  an unfolding is one whose writing ends.
* `Heap.unfolds_within`, `Heap.Unfolds.eq_within`: the writer finds the unfolding, and there is only one.
* `Heap.Unfolds.congr`: a path matters only as far as the value leads back to it.
* `Heap.toJson_unfolds`: all of it together.
-/

namespace Heap

/-- The properties that an object has in JSON: an error its name and its message, any other object what
enumeration shows of it, functions and undefined values apart. -/
def shown (h : Heap) (id : ObjectId) : List (String × Value) :=
  if (h.objects.get id).class_ = .error then
    [Object.nameKey, Object.messageKey].filterMap fun k => (h.lookup? id k).map (k, ·)
  else (h.objects.get id).entries.filter fun e => !(e.2.isUndefined || e.2.isCallable)

/-- The values that the JSON of an object is made of. -/
def shownParts (h : Heap) (id : ObjectId) : List Value :=
  if (h.objects.get id).isArray then (h.objects.get id).values else (h.shown id).map (·.2)

/-- `j` is the unfolding of a value below the objects `path`. -/
inductive Unfolds (h : Heap) : List ObjectId → Value → Json → Prop
  | undefined {path} : Unfolds h path .undefined .null
  | null {path} : Unfolds h path .null .null
  | bool {path} (b : Bool) : Unfolds h path (.bool b) (.bool b)
  | number {path} (x : Float) : Unfolds h path (.number x) (numberJson x)
  | string {path} (s : String) : Unfolds h path (.string s) (.string s)
  | function {path} (id : ClosureId) : Unfolds h path (.function id) .null
  | native {path} (id : NativeId) : Unfolds h path (.native id) .null
  | pending {path} (id : PendingId) : Unfolds h path (.pending id) .null
  /-- The object is on the path. -/
  | cycle {path id} : id ∈ path → Unfolds h path (.object id) .null
  | array {path id items} : id ∉ path → (h.objects.get id).isArray →
      items.length = (h.objects.get id).values.length →
      (∀ p ∈ (h.objects.get id).values.zip items, Unfolds h (id :: path) p.1 p.2) →
      Unfolds h path (.object id) (.array items)
  /-- The members stand in the order of their names. -/
  | object {path id members} : id ∉ path → (h.objects.get id).isArray = false →
      members.length = (h.shown id).length → (∀ p ∈ (h.shown id).zip members, p.2.1 = p.1.1) →
      (∀ p ∈ (h.shown id).zip members, Unfolds h (id :: path) p.1.2 p.2.2) →
      Unfolds h path (.object id) (.ofMembers members)

/-- A value comes to an object along what its JSON is made of. -/
inductive ComesTo (h : Heap) : Value → ObjectId → Prop
  | here (id : ObjectId) : ComesTo h (.object id) id
  | part {id w x} : w ∈ h.shownParts id → ComesTo h w x → ComesTo h (.object id) x

/-! ### The writer -/

variable {h : Heap} {path : List ObjectId} {id : ObjectId} {v : Value} {j : Json}

theorem skipped_eq (v : Value) : skipped v = (v.isUndefined || v.isCallable) := by
  cases v <;> rfl

/-- The writer goes through the elements of an array and the shown properties of anything else. -/
theorem objectJson_eq (h : Heap) (part : Value → Json) (id : ObjectId) :
    h.objectJson part id =
      if (h.objects.get id).isArray then .array ((h.objects.get id).values.map part)
      else .ofMembers ((h.shown id).map fun e => (e.1, part e.2)) := by
  unfold objectJson shown Object.isArray
  cases (h.objects.get id).class_ with
  | array => rfl
  | error =>
    simp only [reduceCtorEq, if_true, beq_iff_eq, if_false, List.map_filterMap, Option.map_map]
    rfl
  | plain | function =>
    simp only [reduceCtorEq, if_false, beq_iff_eq, skipped_eq]

/-- How many objects are not on a path. -/
def unseen (h : Heap) (path : List ObjectId) : Nat := (h.objectIds \ path.toFinset).card

theorem unseen_le (h : Heap) (path : List ObjectId) : h.unseen path ≤ h.objectCount :=
  (Finset.card_le_card Finset.sdiff_subset).trans h.card_objectIds

theorem unseen_cons (hid : id ∈ h.objectIds) (hpath : id ∉ path) :
    h.unseen (id :: path) < h.unseen path := by
  refine Finset.card_lt_card (Finset.ssubset_iff_of_subset ?_ |>.mpr ⟨id, ?_, ?_⟩)
  · exact Finset.sdiff_subset_sdiff subset_rfl fun x hx => by
      rw [List.mem_toFinset] at hx ⊢
      exact List.mem_cons_of_mem id hx
  · rw [Finset.mem_sdiff, List.mem_toFinset]
    exact ⟨hid, hpath⟩
  · rw [Finset.mem_sdiff, List.mem_toFinset]
    exact fun hx => hx.2 List.mem_cons_self

/-- Where there is no object, nothing is shown. -/
theorem shown_eq_nil (hid : id ∉ h.objectIds) : h.shown id = [] := by
  unfold shown
  rw [get_eq_default hid]
  rfl

theorem mem_zip_map {α β : Type} {f : α → β} {as : List α} {p : α × β} (hp : p ∈ as.zip (as.map f)) :
    p.1 ∈ as ∧ p.2 = f p.1 := by
  induction as with
  | nil => cases hp
  | cons a as ih =>
    rcases List.mem_cons.mp hp with rfl | hp
    · exact ⟨List.mem_cons_self, rfl⟩
    · exact ⟨List.mem_cons_of_mem a (ih hp).1, (ih hp).2⟩

theorem eq_map_of_zip {α β : Type} {f : α → β} {as : List α} {bs : List β}
    (hlength : bs.length = as.length) (hzip : ∀ p ∈ as.zip bs, p.2 = f p.1) : bs = as.map f := by
  induction as generalizing bs with
  | nil => exact List.length_eq_zero_iff.mp hlength
  | cons a as ih =>
    cases bs with
    | nil => cases hlength
    | cons b bs =>
      have hfirst : b = f a := hzip (a, b) List.mem_cons_self
      rw [List.map_cons, hfirst,
        ih (Nat.succ.inj hlength) fun p hp => hzip p (List.mem_cons_of_mem _ hp)]

/-- **The writer unfolds**, given as many steps as there are objects off the path, and one. -/
theorem unfolds_within {n : Nat} (hn : h.unseen path < n) :
    h.Unfolds path v (h.toJsonWithin n path v) := by
  induction n generalizing path v with
  | zero => exact absurd hn (Nat.not_lt_zero _)
  | succ n ih =>
    cases v with
    | object id =>
      rw [toJsonWithin_succ]
      by_cases hin : id ∈ path
      · rw [if_pos (List.contains_iff_mem.mpr hin)]
        exact .cycle hin
      · rw [if_neg fun hc => hin (List.contains_iff_mem.mp hc), objectJson_eq]
        by_cases hid : id ∈ h.objectIds
        · have hless : h.unseen (id :: path) < n :=
            Nat.lt_of_lt_of_le (unseen_cons hid hin) (Nat.le_of_lt_succ hn)
          split
          next harray =>
            refine .array hin harray (List.length_map _) fun p hp => ?_
            rw [(mem_zip_map hp).2]
            exact ih hless
          next hplain =>
            refine .object hin (Bool.eq_false_iff.mpr hplain) (List.length_map _) (fun p hp => ?_)
              fun p hp => ?_
            · rw [(mem_zip_map hp).2]
            · rw [(mem_zip_map hp).2]
              exact ih hless
        · have hplain : (h.objects.get id).isArray = false := by
            rw [get_eq_default hid]
            rfl
          rw [hplain, if_neg Bool.false_ne_true, shown_eq_nil hid]
          refine .object hin hplain (by rw [shown_eq_nil hid]; rfl) ?_ ?_ <;>
            exact fun p hp => absurd (shown_eq_nil hid ▸ hp) List.not_mem_nil
    | _ => constructor

/-- **There is one unfolding**, the one that the writer finds. -/
theorem Unfolds.eq_within (hj : h.Unfolds path v j) {n : Nat} (hn : h.unseen path < n) :
    j = h.toJsonWithin n path v := by
  induction hj generalizing n with
  | @cycle path id hin =>
    obtain ⟨n, rfl⟩ := Nat.exists_eq_succ_of_ne_zero (Nat.ne_zero_of_lt hn)
    rw [toJsonWithin_succ, if_pos (List.contains_iff_mem.mpr hin)]
  | @array path id items hin harray hlength _ ih =>
    obtain ⟨n, rfl⟩ := Nat.exists_eq_succ_of_ne_zero (Nat.ne_zero_of_lt hn)
    have hid : id ∈ h.objectIds := by
      by_contra hid
      rw [get_eq_default hid] at harray
      cases harray
    have hless : h.unseen (id :: path) < n :=
      Nat.lt_of_lt_of_le (unseen_cons hid hin) (Nat.le_of_lt_succ hn)
    rw [toJsonWithin_succ, if_neg fun hc => hin (List.contains_iff_mem.mp hc), objectJson_eq,
      if_pos harray]
    exact congrArg Json.array (eq_map_of_zip hlength fun p hp => ih p hp hless)
  | @object path id members hin hplain hlength hnames _ ih =>
    obtain ⟨n, rfl⟩ := Nat.exists_eq_succ_of_ne_zero (Nat.ne_zero_of_lt hn)
    rw [toJsonWithin_succ, if_neg fun hc => hin (List.contains_iff_mem.mp hc), objectJson_eq, hplain,
      if_neg Bool.false_ne_true]
    refine congrArg Json.ofMembers (eq_map_of_zip hlength fun p hp => Prod.ext (hnames p hp) ?_)
    have hid : id ∈ h.objectIds := by
      by_contra hid
      exact absurd (shown_eq_nil hid ▸ hp) List.not_mem_nil
    exact ih p hp (Nat.lt_of_lt_of_le (unseen_cons hid hin) (Nat.le_of_lt_succ hn))
  | _ =>
    unfold toJsonWithin
    rfl

/-! ### Paths -/

/-- A path matters only as far as the value leads back to it. -/
theorem Unfolds.congr {other : List ObjectId} (hj : h.Unfolds path v j)
    (hsame : ∀ x, h.ComesTo v x → (x ∈ path ↔ x ∈ other)) : h.Unfolds other v j := by
  induction hj generalizing other with
  | @cycle path id hin => exact .cycle ((hsame id (.here id)).mp hin)
  | @array path id items hin harray hlength _ ih =>
    refine .array (fun h => hin ((hsame id (.here id)).mpr h)) harray hlength fun p hp =>
      ih p hp fun x hx => ?_
    have hpart : p.1 ∈ h.shownParts id := by
      rw [shownParts, if_pos harray]
      exact (List.of_mem_zip hp).1
    rw [List.mem_cons, List.mem_cons, hsame x (.part hpart hx)]
  | @object path id members hin hplain hlength hnames _ ih =>
    refine .object (fun h => hin ((hsame id (.here id)).mpr h)) hplain hlength hnames fun p hp =>
      ih p hp fun x hx => ?_
    have hpart : p.1.2 ∈ h.shownParts id := by
      rw [shownParts, hplain, if_neg Bool.false_ne_true]
      exact List.mem_map_of_mem (List.of_mem_zip hp).1
    rw [List.mem_cons, List.mem_cons, hsame x (.part hpart hx)]
  | _ => constructor

/-- **JSON is the unfolding of a value**, for every graph of objects. Writing it ends: it never goes
deeper than there are objects, and one. The result is the one tree that the rules allow: an object is
null where it is on the path from the root, and nowhere else, and what does not lead back to the path is
written in full, as it would be by itself. -/
theorem toJson_unfolds (h : Heap) (v : Value) :
    (∀ n, h.objectCount < n → h.toJsonWithin n [] v = h.toJson v) ∧
      (∀ j, h.Unfolds [] v j ↔ j = h.toJson v) ∧
      (∀ path id j, h.Unfolds path (.object id) j → (j = .null ↔ id ∈ path)) ∧
      ∀ path w, (∀ x ∈ path, ¬ h.ComesTo w x) → ∀ j, h.Unfolds path w j ↔ j = h.toJson w := by
  have hroot : ∀ w j, h.Unfolds [] w j ↔ j = h.toJson w := fun w j =>
    have hn := Nat.lt_succ_of_le (h.unseen_le [])
    ⟨fun hj => hj.eq_within hn, fun hj => hj ▸ unfolds_within hn⟩
  refine ⟨fun n hn => toJson_eq hn v, hroot v, fun path id j hj => ?_, fun path w hfree j => ?_⟩
  · cases hj with
    | cycle hin => exact ⟨fun _ => hin, fun _ => rfl⟩
    | array hin => exact ⟨nofun, fun h => absurd h hin⟩
    | object hin => exact ⟨nofun, fun h => absurd h hin⟩
  · have hsame : ∀ x, h.ComesTo w x → (x ∈ path ↔ x ∈ ([] : List ObjectId)) := fun x hx =>
      ⟨fun hin => absurd hx (hfree x hin), nofun⟩
    rw [← hroot w j]
    exact ⟨fun hj => hj.congr hsame, fun hj => hj.congr fun x hx => (hsame x hx).symm⟩

/-- Two references to one array, and one back to the object itself. -/
example :
    let shared : Value := .object ⟨0, 1⟩
    let fields : List Property := [⟨"a", shared, true⟩, ⟨"b", shared, true⟩, ⟨"c", .object ⟨0, 0⟩, true⟩]
    let h : Heap := { objects := ⟨#[#[{ class_ := .plain, properties := fields },
      .ofList [.undefined, .bool true]]]⟩ }
    h.toJson (.object ⟨0, 0⟩) = .object
      [("a", .array [.null, .bool true]), ("b", .array [.null, .bool true]), ("c", .null)] := by
  rfl

end Heap

end Fermata
