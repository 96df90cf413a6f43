import Fermata.Proofs.Walk.Text
import Mathlib.Logic.Relation

/-!
# Texts that do not end

Writing an array remembers the arrays around it, so that arrays inside one another are written once each.
Writing an error remembers nothing: its name and its message are written from the start. So arrays alone
never keep a text from ending, and an error that leads back to itself always does.

* `Heap.Asks`: writing one object comes to another.
* `Heap.isSome_of_clear`: what comes to an error without going round has no text before the error does.
* `Heap.isSome_of_acyclic`: where no error leads back to itself, there is a text.
* `Heap.text_ends_iff`: the two together.
-/

namespace Fermata

open Relation (ReflTransGen TransGen)

theorem mapM_isSome {α β : Type} {f : α → Option β} {as : List α} :
    (as.mapM f).isSome ↔ ∀ a ∈ as, (f a).isSome := by
  induction as with
  | nil => simp
  | cons a as ih =>
    rw [List.mapM_cons, List.forall_mem_cons, ← ih]
    cases f a with
    | none => simp
    | some b => cases as.mapM f <;> simp

namespace Object

variable {o : Object}

theorem find?_store (hplain : o.isArray = false) (key : String) (v : Value) (enumerable : Bool) :
    (o.store key v enumerable).find? key = some v := by
  have hstored : ((o.store key v enumerable).stored? key).map (·.value) = some v := by
    unfold store
    split
    next hold =>
      obtain ⟨p, hp⟩ := Option.isSome_iff_exists.mp hold
      have hfound : o.properties.find? (fun q : Property => q.key == key) = some p := hp
      have hkey : (p.key == key) = true := List.find?_some (p := fun q : Property => q.key == key) hfound
      have hsame : (fun q : Property => (if (q.key == key) = true then { q with value := v } else q).key ==
          key) = fun q => q.key == key := by
        funext q
        split <;> rfl
      have hmapped : (o.properties.map fun q => if q.key == key then { q with value := v } else q).find?
          (·.key == key) = some { p with value := v } := by
        rw [List.find?_map, Function.comp_def, hsame]
        rw [hfound, Option.map_some, if_pos hkey]
      exact congrArg (Option.map (·.value)) hmapped
    next hnew =>
      have hnone : o.properties.find? (·.key == key) = none := Option.not_isSome_iff_eq_none.mp hnew
      unfold stored?
      rw [List.find?_append, hnone, List.find?_singleton, if_pos (beq_self_eq_true key)]
      rfl
  have hclass : (o.store key v enumerable).isArray = false := by
    unfold store
    split <;> exact hplain
  rw [find?, hclass, if_neg Bool.false_ne_true, hstored]

theorem class_store (key : String) (v : Value) (enumerable : Bool) :
    (o.store key v enumerable).class_ = o.class_ := by
  unfold store
  split <;> rfl

end Object

namespace Heap

variable {h : Heap} {n : Nat} {seen : List ObjectId} {id x y e : ObjectId} {v : Value}

/-- The values that the text of an object is made of. -/
def textParts (h : Heap) (id : ObjectId) : List Value :=
  match (h.objects.get id).class_ with
  | .array => (h.objects.get id).values
  | .error => [Object.nameKey, Object.messageKey].filterMap (h.lookup? id)
  | .plain | .function => []

/-- Writing one object comes to another one. -/
def Asks (h : Heap) (x y : ObjectId) : Prop := .object y ∈ h.textParts x

/-- The objects that are being written around the parts of an object: errors start anew. -/
def around (h : Heap) (seen : List ObjectId) (id : ObjectId) : List ObjectId :=
  if (h.objects.get id).class_ = .error then [] else id :: seen

/-- **An object has a text if the objects that it comes to have one.** -/
theorem objectText_isSome {part : List ObjectId → Value → Option String}
    (hplain : ∀ s w, (∀ y, w ≠ .object y) → (part s w).isSome) (seen : List ObjectId) (id : ObjectId) :
    (h.objectText part seen id).isSome ↔
      ∀ y, h.Asks id y → (part (h.around seen id) (.object y)).isSome := by
  -- a part that is no object has its text in any case
  have hparts : (∀ y, h.Asks id y → (part (h.around seen id) (.object y)).isSome) ↔
      ∀ w ∈ h.textParts id, (part (h.around seen id) w).isSome := by
    refine ⟨fun hall w hw => ?_, fun hall y hy => hall _ hy⟩
    by_cases hobject : ∃ y, w = .object y
    · obtain ⟨y, rfl⟩ := hobject
      exact hall y hw
    · exact hplain _ w fun y hy => hobject ⟨y, hy⟩
  rw [hparts]
  unfold objectText textParts around
  have hsome : ∀ {α β : Type} (a : Option α) (f : α → β),
      (a.bind fun x => some (f x)).isSome = a.isSome := fun a f => by cases a <;> rfl
  cases (h.objects.get id).class_ with
  | plain | function => simp
  | array =>
    simp only [reduceCtorEq, if_false]
    refine (Bool.eq_iff_iff.mp (hsome _ _)).trans (mapM_isSome.trans ?_)
    refine forall₂_congr fun w _ => ?_
    split
    next hnull =>
      have hw : (part (id :: seen) w).isSome := hplain _ w fun y hy => by
        rw [hy] at hnull
        cases hnull
      exact ⟨fun _ => hw, fun _ => rfl⟩
    next => exact Iff.rfl
  | error =>
    have hfield : ∀ (field : Option Value) (other : String),
        (field.elim (some other) (part [])).isSome ↔ ∀ w ∈ field, (part [] w).isSome := by
      intro field other
      cases field <;> simp
    have hbind : ∀ (a b : Option String) (f : String → String → String),
        (a.bind fun x => b.bind fun y => some (f x y)).isSome ↔ a.isSome ∧ b.isSome := by
      intro a b f
      cases a <;> cases b <;> simp
    refine (hbind _ _ _).trans ?_
    rw [hfield, hfield, if_pos rfl]
    simp only [List.mem_filterMap, List.mem_cons, List.not_mem_nil, or_false, Option.mem_def]
    constructor
    · rintro ⟨hname, hmessage⟩ w ⟨k, rfl | rfl, hw⟩
      · exact hname w hw
      · exact hmessage w hw
    · exact fun hall => ⟨fun w hw => hall w ⟨_, .inl rfl, hw⟩, fun w hw => hall w ⟨_, .inr rfl, hw⟩⟩

theorem textWithin_isSome (hv : ∀ y, v ≠ .object y) (n : Nat) (seen : List ObjectId) :
    (h.textWithin n seen v).isSome := by
  cases v with
  | object id => exact absurd rfl (hv id)
  | _ =>
    unfold textWithin
    rfl

/-! ## Errors that lead back to themselves -/

/-- `x` comes to `e` along objects that are not among `seen`. -/
inductive Clear (h : Heap) (seen : List ObjectId) : ObjectId → ObjectId → Prop
  | here {x : ObjectId} : x ∉ seen → Clear h seen x x
  | step {x y e : ObjectId} : x ∉ seen → h.Asks x y → Clear h seen y e → Clear h seen x e

theorem Clear.of_reach (hreach : ReflTransGen h.Asks x e) : h.Clear [] x e := by
  induction hreach using ReflTransGen.head_induction_on with
  | refl => exact .here List.not_mem_nil
  | head hxy _ ih => exact .step List.not_mem_nil hxy ih

theorem Clear.reach (hclear : h.Clear seen x e) : ReflTransGen h.Asks x e := by
  induction hclear with
  | here => exact .refl
  | step _ hask _ ih => exact .head hask ih

theorem Clear.not_mem (hclear : h.Clear seen x e) : x ∉ seen := by
  cases hclear <;> assumption

/-- A way to somewhere else need not come back to where it starts. -/
theorem Clear.leave (hclear : h.Clear seen x e) (hne : x ≠ e) :
    ∃ y, h.Asks x y ∧ h.Clear (x :: seen) y e := by
  -- from any object on the way, either `x` does not come again or one can start over from there
  have hway : ∀ {z}, h.Clear seen z e →
      h.Clear (x :: seen) z e ∨ ∃ y, h.Asks x y ∧ h.Clear (x :: seen) y e := by
    clear hclear
    intro z hz
    induction hz with
    | here hz => exact .inl (.here (List.not_mem_cons_of_ne_of_not_mem hne.symm hz))
    | @step z y e hz hask _ ih =>
      rcases ih hne with hclear | hfound
      · by_cases hzx : z = x
        · exact .inr ⟨y, hzx ▸ hask, hclear⟩
        · exact .inl (.step (List.not_mem_cons_of_ne_of_not_mem hzx hz) hask hclear)
      · exact .inr hfound
  exact (hway hclear).resolve_left fun hx => hx.not_mem List.mem_cons_self

/-- **An object is not written before the errors that it comes to.** -/
theorem isSome_of_clear (herror : (h.objects.get e).class_ = .error) (hclear : h.Clear seen x e)
    (hx : (h.textWithin n seen (.object x)).isSome) : (h.textWithin n [] (.object e)).isSome := by
  induction n generalizing seen x with
  | zero =>
    rw [textWithin_zero] at hx
    cases hx
  | succ n ih =>
    have hfresh : ∀ {s : List ObjectId} {z}, z ∉ s → ¬ s.contains z = true :=
      fun hz hc => hz (List.contains_iff_mem.mp hc)
    rw [textWithin_succ, if_neg (hfresh hclear.not_mem)] at hx
    by_cases hxe : x = e
    · rw [textWithin_succ, if_neg (hfresh List.not_mem_nil), ← hxe,
        objectText_error (hxe ▸ herror) [] seen]
      exact hx
    · obtain ⟨y, hask, hclear⟩ := hclear.leave hxe
      have hy := (objectText_isSome (fun s w hw => textWithin_isSome hw n s) seen x).mp hx y hask
      have hclear : h.Clear (h.around seen x) y e := by
        unfold around
        split
        · exact .of_reach (hclear.reach)
        · exact hclear
      obtain ⟨t, ht⟩ := Option.isSome_iff_exists.mp (ih hclear hy)
      rw [textWithin_mono (Nat.le_succ n) ht]
      rfl

/-- An error that leads back to itself has no text. -/
theorem not_isSome_of_cycle (herror : (h.objects.get e).class_ = .error) (hcycle : TransGen h.Asks e e)
    (n : Nat) : ¬ (h.textWithin n [] (.object e)).isSome := by
  obtain ⟨y, hask, hback⟩ := TransGen.head'_iff.mp hcycle
  induction n with
  | zero =>
    rw [textWithin_zero]
    exact Bool.false_ne_true
  | succ n ih =>
    intro he
    rw [textWithin_succ, if_neg (by simp)] at he
    have hy := (objectText_isSome (fun s w hw => textWithin_isSome hw n s) [] e).mp he y hask
    rw [around, if_pos herror] at hy
    exact ih (isSome_of_clear herror (.of_reach hback) hy)

/-! ## Where there are none -/

theorem textFrom_isSome (hv : ∀ y, v ≠ .object y) (seen : List ObjectId) :
    (h.textFrom seen v).isSome := by
  rw [textFrom_plain hv 0]
  exact textWithin_isSome hv 0 seen

open Classical in
/-- The errors that an object comes to. -/
noncomputable def errorsFrom (h : Heap) (x : ObjectId) : Finset ObjectId :=
  (h.idsOf .error).filter (ReflTransGen h.Asks x)

theorem mem_errorsFrom : e ∈ h.errorsFrom x ↔ e ∈ h.idsOf .error ∧ ReflTransGen h.Asks x e := by
  classical exact Finset.mem_filter

theorem errorsFrom_subset (hask : h.Asks x y) : h.errorsFrom y ⊆ h.errorsFrom x := by
  intro e he
  obtain ⟨herror, hreach⟩ := mem_errorsFrom.mp he
  exact mem_errorsFrom.mpr ⟨herror, .head hask hreach⟩

theorem errorsFrom_ssubset (herror : (h.objects.get e).class_ = .error)
    (hcycle : ¬ TransGen h.Asks e e) (hask : h.Asks e y) : h.errorsFrom y ⊂ h.errorsFrom e := by
  refine (Finset.ssubset_iff_of_subset (errorsFrom_subset hask)).mpr ⟨e, ?_, fun he => ?_⟩
  · exact mem_errorsFrom.mpr ⟨mem_idsOf (by decide) herror, .refl⟩
  · exact hcycle (.head' hask (mem_errorsFrom.mp he).2)

/-- Where there is no object, writing comes to no other. -/
theorem mem_of_asks (hask : h.Asks x y) : x ∈ h.objectIds := by
  by_contra hx
  unfold Asks textParts at hask
  rw [get_eq_default hx] at hask
  cases hask

/-- **Where no error leads back to itself, every object has a text.** From an error to its fields there are
fewer errors to come to; from an array to its elements there are not more, and one array fewer to write. -/
theorem isSome_of_acyclic {x : ObjectId}
    (hfree : ∀ e, (h.objects.get e).class_ = .error → ReflTransGen h.Asks x e → ¬ TransGen h.Asks e e)
    (seen : List ObjectId) : (h.textFrom seen (.object x)).isSome := by
  induction hn : (h.errorsFrom x).card using Nat.strong_induction_on generalizing x seen with
  | _ n ihErrors =>
    induction hm : h.unseen seen using Nat.strong_induction_on generalizing x seen with
    | _ m ihSeen =>
      rw [textFrom_object]
      split
      · rfl
      next hin =>
        refine (objectText_isSome (fun s w hw => textFrom_isSome hw s) seen x).mpr fun y hask => ?_
        have hfree' : ∀ e, (h.objects.get e).class_ = .error → ReflTransGen h.Asks y e →
            ¬ TransGen h.Asks e e := fun e he hreach => hfree e he (.head hask hreach)
        rw [around]
        split
        next herror =>
          have hless := Finset.card_lt_card (errorsFrom_ssubset herror (hfree x herror .refl) hask)
          exact ihErrors _ (hn ▸ hless) hfree' [] rfl
        next =>
          have hle := Finset.card_le_card (errorsFrom_subset hask)
          rcases Nat.lt_or_eq_of_le hle with hless | heq
          · exact ihErrors _ (hn ▸ hless) hfree' _ rfl
          · have hfresh := unseen_cons (mem_of_asks hask)
              fun hseen => hin (List.contains_iff_mem.mpr hseen)
            exact ihSeen _ (hm ▸ hfresh) hfree' _ (heq.trans hn) rfl

/-! ## What has a text -/

/-- An error that is given itself as its message has it. -/
theorem asks_own_message (herror : (h.objects.get e).class_ = .error) :
    let k := h.set e Object.messageKey (.object e)
    (k.objects.get e).class_ = .error ∧ k.Asks e e := by
  intro k
  have hplain : (h.objects.get e).isArray = false := by
    rw [Object.isArray, herror]
    rfl
  obtain ⟨o, ho⟩ : ∃ o, h.objects.get? e = some o := by
    cases hget : h.objects.get? e with
    | some o => exact ⟨o, rfl⟩
    | none =>
      rw [Store.get, hget] at herror
      cases herror
  have hgot : h.objects.get e = o := by rw [Store.get, ho]; rfl
  have hget? : k.objects.get? e = some (o.store Object.messageKey (.object e) true) := by
    refine (Store.get?_modify _ _ _ _).trans ?_
    rw [if_pos rfl, ho, Option.map_some, Object.put, ← hgot, hplain, if_neg Bool.false_ne_true]
  have hget : k.objects.get e = o.store Object.messageKey (.object e) true := by
    rw [Store.get, hget?]
    rfl
  have hclass : (k.objects.get e).class_ = .error := by rw [hget, Object.class_store, ← hgot, herror]
  have hfound : k.lookup? e Object.messageKey = some (.object e) := by
    have hmem : e ∈ k.objectIds := by
      refine List.mem_toFinset.mpr (k.objects.mem_addresses e ?_)
      rw [hget?]
      rfl
    have hcount : 0 < k.objectCount := (Finset.card_pos.mpr ⟨e, hmem⟩).trans_le k.card_objectIds
    obtain ⟨n, hn⟩ := Nat.exists_eq_succ_of_ne_zero hcount.ne'
    rw [lookup?, hn, alongChain, hget, Object.find?_store (hgot ▸ hplain)]
  refine ⟨hclass, ?_⟩
  unfold Asks textParts
  rw [hclass]
  exact List.mem_filterMap.mpr ⟨_, List.mem_cons_of_mem _ (List.mem_singleton_self _), hfound⟩

/-- **What has a text.** Writing a value ends, at a depth that the number of objects bounds, unless it comes
to an error that leads back to itself through elements, names and messages. So arrays may contain one
another in any way; but an error that is its own message has no text. -/
theorem text_ends_iff (h : Heap) (v : Value) :
    ((h.textFrom [] v).isSome ↔ ∀ x e, v = .object x → (h.objects.get e).class_ = .error →
        ReflTransGen h.Asks x e → ¬ TransGen h.Asks e e) ∧
      h.textFrom [] v = h.textWithin h.textDepth [] v ∧
      ∀ e, (h.objects.get e).class_ = .error →
        (h.set e Object.messageKey (.object e)).textFrom [] (.object e) = none := by
  have hiff : ∀ (h : Heap) (v : Value), (h.textFrom [] v).isSome ↔ ∀ x e, v = .object x →
      (h.objects.get e).class_ = .error → ReflTransGen h.Asks x e → ¬ TransGen h.Asks e e := by
    intro h v
    by_cases hv : ∃ x, v = .object x
    · obtain ⟨x, rfl⟩ := hv
      refine ⟨fun hsome y e hy herror hreach hcycle => ?_, fun hfree => ?_⟩
      · rw [textFrom_eq] at hsome
        cases hy
        exact not_isSome_of_cycle herror hcycle _ (isSome_of_clear herror (.of_reach hreach) hsome)
      · exact isSome_of_acyclic (fun e => hfree x e rfl) []
    · exact ⟨fun _ x _ hx => absurd ⟨x, hx⟩ hv,
        fun _ => textFrom_isSome (fun y hy => hv ⟨y, hy⟩) []⟩
  refine ⟨hiff h v, textFrom_eq h v, fun e herror => ?_⟩
  obtain ⟨herror, hself⟩ := asks_own_message herror
  rw [← Option.not_isSome_iff_eq_none, hiff]
  exact fun hfree => hfree e e rfl herror .refl (.single hself)

end Heap

end Fermata
