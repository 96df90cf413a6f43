import Fermata.Proofs.Prune.Reach

/-!
# Walks along prototypes

A walk along a prototype chain takes at most as many steps as there are objects. No walk needs more:
whoever goes on finds what was found before. So a walk that ends with an answer ends with the same one
under every greater bound, and the bound says nothing about the rest of the heap.

* `holds_at_card`: what spreads step by step over a finite set has spread after as many steps as the set
  has elements.
* `Heap.alongChain_eq`, `Heap.collectKeys_eq`, `Heap.inheritsWithin_eq`: walks with more steps.
-/

namespace Fermata

open Classical in
/-- Something spreads over a finite set, and each round of `cost` steps reaches whatever depends on the
elements reached before. Then as many rounds as there are elements reach all that is ever reached. -/
theorem holds_at_card {α : Type} (S : Finset α) {P : Nat → α → Prop} (cost : Nat)
    (hmono : ∀ {m n x}, m ≤ n → P m x → P n x) (hmem : ∀ {n x}, P n x → x ∈ S)
    (hstep : ∀ {m n x}, (∀ y, P m y → P n y) → P (m + 1) x → P (n + cost) x) {n : Nat} {x : α}
    (h : P n x) : P (S.card * cost) x := by
  let rank n := (S.filter (P n)).card
  have hrank : ∀ n x, P n x → P (rank n * cost) x := by
    intro n
    induction n with
    | zero => exact fun x hx => hmono (Nat.zero_le _) hx
    | succ n ih =>
      intro x hx
      have hsub : S.filter (P n) ⊆ S.filter (P (n + 1)) := fun y hy =>
        have ⟨hS, hy⟩ := Finset.mem_filter.mp hy
        Finset.mem_filter.mpr ⟨hS, hmono (Nat.le_succ n) hy⟩
      by_cases hold : P n x
      · exact hmono (Nat.mul_le_mul_right _ (Finset.card_le_card hsub)) (ih x hold)
      · have hless : rank n < rank (n + 1) := by
          refine Finset.card_lt_card ((Finset.ssubset_iff_of_subset hsub).mpr ⟨x, ?_, ?_⟩)
          · exact Finset.mem_filter.mpr ⟨hmem hx, hx⟩
          · exact fun hx => hold (Finset.mem_filter.mp hx).2
        have hround := hstep ih hx
        refine hmono ?_ hround
        calc rank n * cost + cost = (rank n + 1) * cost := by rw [Nat.add_mul, Nat.one_mul]
          _ ≤ rank (n + 1) * cost := Nat.mul_le_mul_right _ hless
  exact hmono (Nat.mul_le_mul_right _ (Finset.card_filter_le S _)) (hrank n x h)

namespace Heap

variable {α : Type} {h : Heap} {f : Object → Option α} {m n : Nat} {id : ObjectId}

/-- The addresses of the objects. -/
def objectIds (h : Heap) : Finset ObjectId := h.objects.addresses.toFinset

theorem card_objectIds (h : Heap) : h.objectIds.card ≤ h.objectCount := by
  have hlength : h.objects.addresses.length = h.objectCount := h.objects.length_addresses
  exact hlength ▸ List.toFinset_card_le _

/-- Where there is no object, a walk sees a plain one without properties. -/
theorem get_eq_default (hid : id ∉ h.objectIds) : h.objects.get id = default := by
  have hnone : h.objects.get? id = none := by
    cases hget : h.objects.get? id with
    | none => rfl
    | some o =>
      refine absurd (List.mem_toFinset.mpr (h.objects.mem_addresses id ?_)) hid
      rw [hget]
      rfl
  rw [Store.get, hnone]
  rfl

theorem mem_objectIds_of_proto {p : ObjectId} (hp : (h.objects.get id).proto = some p) :
    id ∈ h.objectIds := by
  by_contra hid
  rw [get_eq_default hid] at hp
  cases hp

/-- What spreads along prototypes has spread after as many steps as there are objects. -/
theorem holds_at_objectCount {P : Nat → ObjectId → Prop}
    (hmono : ∀ {m n x}, m ≤ n → P m x → P n x) (hmem : ∀ {n x}, P n x → x ∈ h.objectIds)
    (hstep : ∀ {m n x}, (∀ y, P m y → P n y) → P (m + 1) x → P (n + 1) x) (hid : P n id) :
    P h.objectCount id := by
  have hcard := holds_at_card (P := P) h.objectIds 1 hmono hmem hstep hid
  rw [Nat.mul_one] at hcard
  exact hmono h.card_objectIds hcard

/-! ## The first answer -/

theorem alongChain_mono {a : α} (hmn : m ≤ n) (ha : h.alongChain f m id = some a) :
    h.alongChain f n id = some a := by
  induction m generalizing n id with
  | zero => cases ha
  | succ m ih =>
    obtain ⟨n, rfl⟩ := Nat.exists_eq_add_of_lt hmn
    unfold alongChain at ha ⊢
    dsimp only at ha ⊢
    split at ha
    · exact ha
    · split at ha
      · exact ih (Nat.le_add_right m n) ha
      · cases ha

/-- An answer needs no more steps than there are objects. -/
theorem alongChain_eq (hf : f default = none) (hn : h.objectCount ≤ n) (id : ObjectId) :
    h.alongChain f n id = h.alongChain f h.objectCount id := by
  cases hc : h.alongChain f h.objectCount id with
  | some a => exact alongChain_mono hn hc
  | none =>
    by_contra hne
    have hsome : (h.alongChain f n id).isSome := Option.isSome_iff_ne_none.mpr hne
    have hall := holds_at_objectCount (h := h) (P := fun n id => (h.alongChain f n id).isSome)
      (fun hmn hx => ?_) (fun {n x} hx => ?_) (fun {m n x} hall hx => ?_) hsome
    · rw [hc] at hall
      cases hall
    · obtain ⟨a, ha⟩ := Option.isSome_iff_exists.mp hx
      rw [alongChain_mono hmn ha]
      rfl
    · by_contra hmem
      cases n with
      | zero => cases hx
      | succ n =>
        unfold alongChain at hx
        dsimp only at hx
        rw [get_eq_default hmem, hf] at hx
        cases hx
    · unfold alongChain at hx ⊢
      dsimp only at hx ⊢
      split at hx
      · rfl
      · split at hx
        · exact hall _ hx
        · cases hx

/-! ## All keys -/

/-- The first objects of a chain, at most `n` of them. -/
def chain (h : Heap) : Nat → ObjectId → List ObjectId
  | 0, _ => []
  | n + 1, id =>
    id :: match (h.objects.get id).proto with
      | some p => chain h n p
      | none => []

/-- Add keys to others, each once. -/
def addKeys (keys more : List String) : List String :=
  more.foldl (fun ks k => if ks.contains k then ks else ks ++ [k]) keys

theorem collectKeys_eq_foldl (h : Heap) (n : Nat) (id : ObjectId) (keys : List String) :
    h.collectKeys n id keys =
      (h.chain n id).foldl (fun ks x => addKeys ks (h.objects.get x).keys) keys := by
  induction n generalizing id keys with
  | zero => rfl
  | succ n ih =>
    unfold collectKeys chain
    dsimp only
    rw [List.foldl_cons]
    cases (h.objects.get id).proto with
    | some p => exact ih p _
    | none => rfl

theorem chain_initial (hmn : m ≤ n) : h.chain m id <+: h.chain n id := by
  induction m generalizing n id with
  | zero => exact List.nil_prefix
  | succ m ih =>
    obtain ⟨n, rfl⟩ := Nat.exists_eq_add_of_lt hmn
    unfold chain
    rw [List.cons_prefix_cons]
    refine ⟨rfl, ?_⟩
    cases (h.objects.get id).proto with
    | some p => exact ih (Nat.le_add_right m n)
    | none => exact List.prefix_rfl

/-- Every object of a chain is among the first ones. -/
theorem mem_chain {x : ObjectId} (hx : x ∈ h.objectIds) (hid : x ∈ h.chain n id) :
    x ∈ h.chain h.objectCount id := by
  refine holds_at_objectCount (P := fun n id => x ∈ h.chain n id)
    (fun hmn hid => (chain_initial hmn).subset hid) (fun {n y} hy => ?_)
    (fun {m n y} hall hy => ?_) hid
  · cases n with
    | zero => cases hy
    | succ n =>
      rcases List.mem_cons.mp hy with rfl | hy
      · exact hx
      · cases hp : (h.objects.get y).proto with
        | some p => exact mem_objectIds_of_proto hp
        | none =>
          rw [hp] at hy
          cases hy
  · rcases List.mem_cons.mp hy with rfl | hy
    · exact List.mem_cons_self
    · refine List.mem_cons_of_mem _ ?_
      cases hp : (h.objects.get y).proto with
      | some p =>
        rw [hp] at hy
        exact hall p hy
      | none =>
        rw [hp] at hy
        cases hy

theorem addKeys_of_subset {keys more : List String} (hmore : ∀ k ∈ more, k ∈ keys) :
    addKeys keys more = keys := by
  unfold addKeys
  induction more with
  | nil => rfl
  | cons k more ih =>
    rw [List.foldl_cons, if_pos (List.contains_iff_mem.mpr (hmore k List.mem_cons_self))]
    exact ih fun l hl => hmore l (List.mem_cons_of_mem k hl)

theorem mem_addKeys {k : String} {keys more : List String} (hk : k ∈ keys ∨ k ∈ more) :
    k ∈ addKeys keys more := by
  unfold addKeys
  induction more generalizing keys with
  | nil => exact hk.resolve_right List.not_mem_nil
  | cons l more ih =>
    rw [List.foldl_cons]
    refine ih ?_
    by_cases hl : keys.contains l
    · rw [if_pos hl]
      rcases hk with hk | hk
      · exact .inl hk
      · rcases List.mem_cons.mp hk with rfl | hk
        · exact .inl (List.contains_iff_mem.mp hl)
        · exact .inr hk
    · rw [if_neg hl]
      rcases hk with hk | hk
      · exact .inl (List.mem_append_left _ hk)
      · rcases List.mem_cons.mp hk with rfl | hk
        · exact .inl (List.mem_append_right _ (List.mem_singleton_self k))
        · exact .inr hk

/-- All keys are collected with no more steps than there are objects. -/
theorem collectKeys_eq (hn : h.objectCount ≤ n) (id : ObjectId) :
    h.collectKeys n id [] = h.collectKeys h.objectCount id [] := by
  have hchain : h.chain h.objectCount id <+: h.chain n id := chain_initial hn
  obtain ⟨rest, hrest⟩ := hchain
  have hcollected : ∀ (xs : List ObjectId) (keys : List String),
      (∀ k ∈ keys, k ∈ xs.foldl (fun ks x => addKeys ks (h.objects.get x).keys) keys) ∧
        ∀ x ∈ xs, ∀ k ∈ (h.objects.get x).keys,
          k ∈ xs.foldl (fun ks x => addKeys ks (h.objects.get x).keys) keys := by
    intro xs
    induction xs with
    | nil => exact fun keys => ⟨fun _ hk => hk, nofun⟩
    | cons x xs ih =>
      intro keys
      obtain ⟨hkeys, hmore⟩ := ih (addKeys keys (h.objects.get x).keys)
      refine ⟨fun k hk => hkeys k (mem_addKeys (.inl hk)), fun y hy k hk => ?_⟩
      rcases List.mem_cons.mp hy with rfl | hy
      · exact hkeys k (mem_addKeys (.inr hk))
      · exact hmore y hy k hk
  rw [collectKeys_eq_foldl, collectKeys_eq_foldl, ← hrest, List.foldl_append]
  -- what comes later in the chain was met before, or is not there at all
  have hlate : ∀ x ∈ rest, ∀ k ∈ (h.objects.get x).keys, k ∈ (h.chain h.objectCount id).foldl
      (fun ks x => addKeys ks (h.objects.get x).keys) [] := by
    intro x hx k hk
    by_cases hmem : x ∈ h.objectIds
    · refine (hcollected _ _).2 x (mem_chain hmem (n := n) ?_) k hk
      rw [← hrest]
      exact List.mem_append_right _ hx
    · rw [get_eq_default hmem] at hk
      cases hk
  generalize (h.chain h.objectCount id).foldl (fun ks x => addKeys ks (h.objects.get x).keys) [] =
    keys at hlate
  clear hrest
  induction rest with
  | nil => rfl
  | cons x rest ih =>
    rw [List.foldl_cons, addKeys_of_subset (hlate x List.mem_cons_self)]
    exact ih fun y hy => hlate y (List.mem_cons_of_mem x hy)

/-! ## Prototypes -/

/-- `proto` stands on the chain behind an object, at most `n` objects away. -/
def inheritsWithin (h : Heap) (n : Nat) (id proto : ObjectId) : Bool :=
  (h.objects.get id).proto.any (inherits.go h proto n)

theorem inherits_eq_within (h : Heap) (id proto : ObjectId) :
    h.inherits id proto = h.inheritsWithin h.objectCount id proto := by
  unfold inherits inheritsWithin
  cases (h.objects.get id).proto <;> rfl

theorem inherits_go_succ (h : Heap) (n : Nat) (id proto : ObjectId) :
    inherits.go h proto (n + 1) id = (decide (id = proto) || h.inheritsWithin n id proto) := by
  unfold inherits.go inheritsWithin
  by_cases hid : id = proto
  · simp [hid]
  · cases (h.objects.get id).proto <;> simp [hid]

theorem inheritsWithin_succ (h : Heap) (n : Nat) (id proto : ObjectId) :
    h.inheritsWithin (n + 1) id proto = true ↔
      ∃ p, (h.objects.get id).proto = some p ∧ (p = proto ∨ h.inheritsWithin n p proto = true) := by
  rw [inheritsWithin, Option.any_eq_true]
  simp only [inherits_go_succ, Bool.or_eq_true, decide_eq_true_eq]

theorem inheritsWithin_zero (h : Heap) (id proto : ObjectId) :
    h.inheritsWithin 0 id proto = false := by
  unfold inheritsWithin
  cases (h.objects.get id).proto <;> rfl

theorem inheritsWithin_mono {proto : ObjectId} (hmn : m ≤ n)
    (hp : h.inheritsWithin m id proto = true) : h.inheritsWithin n id proto = true := by
  induction m generalizing n id with
  | zero =>
    rw [inheritsWithin_zero] at hp
    cases hp
  | succ m ih =>
    obtain ⟨n, rfl⟩ := Nat.exists_eq_add_of_lt hmn
    obtain ⟨p, hfirst, hp⟩ := (inheritsWithin_succ ..).mp hp
    exact (inheritsWithin_succ ..).mpr ⟨p, hfirst, hp.imp_right (ih (Nat.le_add_right m n))⟩

/-- A prototype is found with no more steps than there are objects. -/
theorem inheritsWithin_eq (hn : h.objectCount ≤ n) (id proto : ObjectId) :
    h.inheritsWithin n id proto = h.inherits id proto := by
  rw [inherits_eq_within, Bool.eq_iff_iff]
  refine ⟨fun hp => ?_, inheritsWithin_mono hn⟩
  refine holds_at_objectCount (P := fun n id => h.inheritsWithin n id proto = true)
    inheritsWithin_mono (fun {n x} hx => ?_) (fun {m n x} hall hx => ?_) hp
  · cases hproto : (h.objects.get x).proto with
    | some p => exact mem_objectIds_of_proto hproto
    | none =>
      unfold inheritsWithin at hx
      rw [hproto] at hx
      cases hx
  · obtain ⟨p, hfirst, hp⟩ := (inheritsWithin_succ ..).mp hx
    exact (inheritsWithin_succ ..).mpr ⟨p, hfirst, hp.imp_right (hall p)⟩

end Heap

end Fermata
