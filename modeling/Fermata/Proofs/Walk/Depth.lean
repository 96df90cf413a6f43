import Fermata.Heap.Convert

/-!
# Texts by depth

Writing a text goes as deep as the objects lead it. `Heap.textWithin` is the same with a bound on the
depth: it is written by recursion on the bound, so that what holds of texts can be shown by induction.

* `Heap.textFrom_object`: what the text of an object is made of.
* `Heap.textWithin_mono`: a text that there is stays the same under every greater bound.
* `Heap.textFrom_eq_some_iff`: the texts are those that some bound allows.
-/

namespace Fermata

theorem mapM_of_some {α β : Type} {f g : α → Option β} {as : List α} {bs : List β}
    (hfg : ∀ a ∈ as, ∀ b, f a = some b → g a = some b) (h : as.mapM f = some bs) :
    as.mapM g = some bs := by
  induction as generalizing bs with
  | nil => exact h
  | cons a as ih =>
    rw [List.mapM_cons] at h ⊢
    obtain ⟨b, hb, h⟩ := Option.bind_eq_some_iff.mp h
    obtain ⟨more, hmore, h⟩ := Option.bind_eq_some_iff.mp h
    have hrest := ih (fun x hx => hfg x (List.mem_cons_of_mem a hx)) hmore
    exact Option.bind_eq_some_iff.mpr ⟨b, hfg a List.mem_cons_self b hb,
      Option.bind_eq_some_iff.mpr ⟨more, hrest, h⟩⟩

namespace Heap

variable {h : Heap} {m n : Nat} {seen : List ObjectId} {v : Value} {t : String}

/-- The text of a value, if writing it goes no deeper than `fuel` objects. -/
def textWithin (h : Heap) (fuel : Nat) (seen : List ObjectId) (v : Value) : Option String :=
  match v with
  | .undefined => some "undefined"
  | .null => some "null"
  | .bool b => some (if b then "true" else "false")
  | .number x => some (Number.display x)
  | .string s => some s
  | .function id => some ("function " ++ (h.closures.get id).name ++ "() \x7b [guest code] \x7d")
  | .native id => some ("function " ++ (h.natives.get id).name ++ "() \x7b [native code] \x7d")
  | .pending id => some ("[object Pending " ++ toString (h.numbers.get id) ++ "]")
  | .object id =>
    match fuel with
    | 0 => none
    | fuel + 1 =>
      if seen.contains id then some ""
      else
        let o := h.objects.get id
        match o.class_ with
        | .array => do
          let parts ← o.values.mapM fun e =>
            if e.isNullish then some "" else textWithin h fuel (id :: seen) e
          some (",".intercalate parts)
        | .error => do
          let name ← match h.lookup? id Object.nameKey with
            | some n => textWithin h fuel [] n
            | none => some errorName
          let message ← match h.lookup? id Object.messageKey with
            | some m => textWithin h fuel [] m
            | none => some ""
          some (if message.isEmpty then name else name ++ ": " ++ message)
        | .plain | .function => some "[object Object]"

/-- What is written of an object that is not written already, its parts being written by `part` below
these objects. -/
def objectText (h : Heap) (part : List ObjectId → Value → Option String) (seen : List ObjectId)
    (id : ObjectId) : Option String :=
  match (h.objects.get id).class_ with
  | .array => do
    let parts ← (h.objects.get id).values.mapM fun e =>
      if e.isNullish then some "" else part (id :: seen) e
    some (",".intercalate parts)
  | .error => do
    let name ← (h.lookup? id Object.nameKey).elim (some errorName) (part [])
    let message ← (h.lookup? id Object.messageKey).elim (some "") (part [])
    some (if message.isEmpty then name else name ++ ": " ++ message)
  | .plain | .function => some "[object Object]"

theorem textWithin_succ (h : Heap) (n : Nat) (seen : List ObjectId) (id : ObjectId) :
    h.textWithin (n + 1) seen (.object id) =
      if seen.contains id then some "" else h.objectText (h.textWithin n) seen id := by
  rw [textWithin]
  unfold objectText
  dsimp only
  split
  · rfl
  · cases (h.objects.get id).class_ with
    | error =>
      cases h.lookup? id Object.nameKey <;> cases h.lookup? id Object.messageKey <;> rfl
    | _ => rfl

/-- An object is written alike where its parts are. -/
theorem objectText_of_some {part more : List ObjectId → Value → Option String} {id : ObjectId}
    (harray : (h.objects.get id).class_ = .array → ∀ v t, part (id :: seen) v = some t →
      more (id :: seen) v = some t)
    (herror : (h.objects.get id).class_ = .error → ∀ v t, part [] v = some t → more [] v = some t)
    (ht : h.objectText part seen id = some t) : h.objectText more seen id = some t := by
  unfold objectText at ht ⊢
  cases hclass : (h.objects.get id).class_ with
  | plain | function =>
    rw [hclass] at ht
    exact ht
  | array =>
    simp only [hclass] at ht ⊢
    obtain ⟨parts, hparts, ht⟩ := Option.bind_eq_some_iff.mp ht
    refine Option.bind_eq_some_iff.mpr ⟨parts, mapM_of_some (fun e _ s hs => ?_) hparts, ht⟩
    by_cases hnull : e.isNullish = true
    · rw [if_pos hnull] at hs ⊢
      exact hs
    · rw [if_neg hnull] at hs ⊢
      exact harray hclass e s hs
  | error =>
    have hfield : ∀ (field : Option Value) (other : Option String) (s : String),
        field.elim other (part []) = some s → field.elim other (more []) = some s := by
      intro field other s hs
      cases field with
      | none => exact hs
      | some w => exact herror hclass w s hs
    simp only [hclass] at ht ⊢
    obtain ⟨name, hname, ht⟩ := Option.bind_eq_some_iff.mp ht
    obtain ⟨message, hmessage, ht⟩ := Option.bind_eq_some_iff.mp ht
    exact Option.bind_eq_some_iff.mpr ⟨name, hfield _ _ _ hname,
      Option.bind_eq_some_iff.mpr ⟨message, hfield _ _ _ hmessage, ht⟩⟩

/-- What is written around an error does not matter to it. -/
theorem objectText_error {part : List ObjectId → Value → Option String} {id : ObjectId}
    (herror : (h.objects.get id).class_ = .error) (seen other : List ObjectId) :
    h.objectText part seen id = h.objectText part other id := by
  simp only [objectText, herror]

/-- What has no identity, or no parts, is written at once. -/
theorem textWithin_plain (hv : ∀ id, v ≠ .object id) (m n : Nat) (seen : List ObjectId) :
    h.textWithin m seen v = h.textWithin n seen v := by
  cases v with
  | object id => exact absurd rfl (hv id)
  | _ =>
    unfold textWithin
    rfl

theorem textWithin_zero (h : Heap) (seen : List ObjectId) (id : ObjectId) :
    h.textWithin 0 seen (.object id) = none := by
  unfold textWithin
  rfl

/-- A greater bound gives the same text. -/
theorem textWithin_mono (hmn : m ≤ n) (ht : h.textWithin m seen v = some t) :
    h.textWithin n seen v = some t := by
  by_cases hv : ∃ id, v = .object id
  · obtain ⟨id, rfl⟩ := hv
    induction m generalizing n seen id t with
    | zero =>
      rw [textWithin_zero] at ht
      cases ht
    | succ m ih =>
      obtain ⟨n, rfl⟩ := Nat.exists_eq_add_of_lt hmn
      have hpart : ∀ (seen : List ObjectId) (v : Value) (t : String),
          h.textWithin m seen v = some t → h.textWithin (m + n) seen v = some t := by
        intro seen v t ht
        by_cases hv : ∃ id, v = .object id
        · obtain ⟨id, rfl⟩ := hv
          exact ih (Nat.le_add_right m n) id ht
        · rwa [textWithin_plain (fun id hid => hv ⟨id, hid⟩) (m + n) m seen]
      rw [textWithin_succ] at ht ⊢
      by_cases hin : seen.contains id = true
      · rwa [if_pos hin] at ht ⊢
      · rw [if_neg hin] at ht ⊢
        exact objectText_of_some (fun _ => hpart _) (fun _ => hpart _) ht
  · rwa [textWithin_plain (fun id hid => hv ⟨id, hid⟩) n m seen]

/-! ## Every depth -/

/-- An object is written once its parts are. -/
theorem textFrom_object (h : Heap) (seen : List ObjectId) (id : ObjectId) :
    h.textFrom seen (.object id) =
      if seen.contains id then some "" else h.objectText h.textFrom seen id := by
  rw [textFrom]
  unfold objectText
  dsimp only
  split
  · rfl
  · cases (h.objects.get id).class_ with
    | error =>
      cases h.lookup? id Object.nameKey <;> cases h.lookup? id Object.messageKey <;> rfl
    | _ => rfl

/-- What has no identity, or no parts, is written at once. -/
theorem textFrom_plain (hv : ∀ id, v ≠ .object id) (n : Nat) (seen : List ObjectId) :
    h.textFrom seen v = h.textWithin n seen v := by
  rw [textFrom.eq_def]
  cases v with
  | object id => exact absurd rfl (hv id)
  | _ =>
    unfold textWithin
    rfl

theorem textFrom_of_textWithin (ht : h.textWithin n seen v = some t) :
    h.textFrom seen v = some t := by
  by_cases hv : ∃ id, v = .object id
  · obtain ⟨id, rfl⟩ := hv
    induction n generalizing seen id t with
    | zero =>
      rw [textWithin_zero] at ht
      cases ht
    | succ n ih =>
      have hpart : ∀ (seen : List ObjectId) (v : Value) (t : String),
          h.textWithin n seen v = some t → h.textFrom seen v = some t := by
        intro seen v t ht
        by_cases hv : ∃ id, v = .object id
        · obtain ⟨id, rfl⟩ := hv
          exact ih id ht
        · rwa [textFrom_plain (fun id hid => hv ⟨id, hid⟩) n seen]
      rw [textWithin_succ] at ht
      rw [textFrom_object]
      by_cases hin : seen.contains id = true
      · rwa [if_pos hin] at ht ⊢
      · rw [if_neg hin] at ht ⊢
        exact objectText_of_some (fun _ => hpart _) (fun _ => hpart _) ht
  · rwa [textFrom_plain (fun id hid => hv ⟨id, hid⟩) n seen]

/-- Finitely many texts that each have a bound have one in common. -/
theorem mapM_textWithin {part : Value → Option String} {es : List Value} {ts : List String}
    (hpart : ∀ e t, part e = some t → ∃ n, h.textWithin n seen e = some t)
    (hts : (es.mapM fun e => if e.isNullish then some "" else part e) = some ts) :
    ∃ n, (es.mapM fun e => if e.isNullish then some "" else h.textWithin n seen e) = some ts := by
  induction es generalizing ts with
  | nil => exact ⟨0, hts⟩
  | cons e es ih =>
    rw [List.mapM_cons] at hts
    obtain ⟨t, ht, hts⟩ := Option.bind_eq_some_iff.mp hts
    obtain ⟨more, hmore, hts⟩ := Option.bind_eq_some_iff.mp hts
    obtain ⟨n, hn⟩ := ih hmore
    have hfirst : ∃ m, (if e.isNullish then some "" else h.textWithin m seen e) = some t := by
      by_cases hnull : e.isNullish = true
      · rw [if_pos hnull] at ht
        exact ⟨0, (if_pos hnull).trans ht⟩
      · rw [if_neg hnull] at ht
        obtain ⟨m, hm⟩ := hpart e t ht
        exact ⟨m, (if_neg hnull).trans hm⟩
    obtain ⟨m, hm⟩ := hfirst
    have hgrow : ∀ k l, k ≤ l → ∀ e s, (if e.isNullish then some "" else h.textWithin k seen e) = some s →
        (if e.isNullish then some "" else h.textWithin l seen e) = some s := by
      intro k l hkl e s hs
      split at hs
      next hnull => exact (if_pos hnull).trans hs
      next hnull => exact (if_neg hnull).trans (textWithin_mono hkl hs)
    refine ⟨max m n, ?_⟩
    rw [List.mapM_cons]
    exact Option.bind_eq_some_iff.mpr ⟨t, hgrow m _ (Nat.le_max_left m n) e t hm,
      Option.bind_eq_some_iff.mpr ⟨more,
        mapM_of_some (fun e _ s => hgrow n _ (Nat.le_max_right m n) e s) hn, hts⟩⟩

/-- An object whose parts are written within some bound is so itself. -/
theorem objectText_within {part : List ObjectId → Value → Option String} {id : ObjectId}
    (hpart : ∀ seen v t, part seen v = some t → ∃ n, h.textWithin n seen v = some t)
    (ht : h.objectText part seen id = some t) :
    ∃ n, h.objectText (h.textWithin n) seen id = some t := by
  unfold objectText at ht ⊢
  cases hclass : (h.objects.get id).class_ with
  | plain | function =>
    rw [hclass] at ht
    exact ⟨0, ht⟩
  | array =>
    simp only [hclass] at ht ⊢
    obtain ⟨parts, hparts, ht⟩ := Option.bind_eq_some_iff.mp ht
    obtain ⟨n, hn⟩ := mapM_textWithin (hpart (id :: seen)) hparts
    exact ⟨n, Option.bind_eq_some_iff.mpr ⟨parts, hn, ht⟩⟩
  | error =>
    have hfield : ∀ (field : Option Value) (other : Option String) (s : String),
        field.elim other (part []) = some s →
          ∃ n, ∀ m, n ≤ m → field.elim other (h.textWithin m []) = some s := by
      intro field other s hs
      cases field with
      | none => exact ⟨0, fun _ _ => hs⟩
      | some w =>
        obtain ⟨n, hn⟩ := hpart [] w s hs
        exact ⟨n, fun m hm => textWithin_mono hm hn⟩
    simp only [hclass] at ht ⊢
    obtain ⟨name, hname, ht⟩ := Option.bind_eq_some_iff.mp ht
    obtain ⟨message, hmessage, ht⟩ := Option.bind_eq_some_iff.mp ht
    obtain ⟨m, hm⟩ := hfield _ _ _ hname
    obtain ⟨n, hn⟩ := hfield _ _ _ hmessage
    exact ⟨max m n, Option.bind_eq_some_iff.mpr ⟨name, hm _ (Nat.le_max_left m n),
      Option.bind_eq_some_iff.mpr ⟨message, hn _ (Nat.le_max_right m n), ht⟩⟩⟩

/-- **The texts are those that some bound allows.** -/
theorem textFrom_eq_some_iff :
    h.textFrom seen v = some t ↔ ∃ n, h.textWithin n seen v = some t := by
  refine ⟨fun ht => ?_, fun ⟨n, ht⟩ => textFrom_of_textWithin ht⟩
  refine textFrom.partial_correctness h
    (fun seen v t => ∃ n, h.textWithin n seen v = some t) (fun part hpart seen v t ht => ?_) seen v t ht
  cases v with
  | object id =>
    have hobject : (if seen.contains id then some "" else h.objectText part seen id) = some t := by
      rw [← ht]
      unfold objectText
      dsimp only
      split
      · rfl
      · cases (h.objects.get id).class_ with
        | error =>
          cases h.lookup? id Object.nameKey <;> cases h.lookup? id Object.messageKey <;> rfl
        | _ => rfl
    by_cases hin : seen.contains id = true
    · rw [if_pos hin] at hobject
      exact ⟨1, by rw [textWithin_succ, if_pos hin, hobject]⟩
    · rw [if_neg hin] at hobject
      obtain ⟨n, hn⟩ := objectText_within hpart hobject
      exact ⟨n + 1, by rw [textWithin_succ, if_neg hin, hn]⟩
  | _ => exact ⟨0, by unfold textWithin; exact ht⟩

/-- Where all bounds allow the same, the texts are the same. -/
theorem textFrom_congr {k : Heap} {other : List ObjectId} {w : Value}
    (heq : ∀ n, h.textWithin n seen v = k.textWithin n other w) :
    h.textFrom seen v = k.textFrom other w := by
  refine Option.ext fun t => ?_
  simp only [textFrom_eq_some_iff, heq]

end Heap

end Fermata
