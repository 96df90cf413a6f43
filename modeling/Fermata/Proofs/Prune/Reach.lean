import Fermata.Link.Prune
import Mathlib.Data.Finset.Card
import Mathlib.Data.List.TakeWhile

/-!
# What the search for held cells finds

`Cell.visit` goes through a worklist and stops after as many cells as there are on the heap. It finds
exactly the cells that follow from the work (`Cell.mem_visit`): every cell it visits is on the heap, so
the bound is never met with work left. So each set that `Heap.prune` computes is what it says.

* `Cell.Follows`: what follows from a list of cells.
* `Cell.visit_sound`, `Cell.visit_closed`: the search adds only what it has to, and all of that.
* `Heap.Reaches`: the cells behind a list of roots (`Heap.mem_reach`).
* `Heap.OnCircle`, `Heap.Present`: the cells that hold themselves, and those that have a count
  (`Heap.mem_present`).
* `Heap.InGraph`: the cells behind the table (`Heap.mem_graph`). Its scopes are those that the scopes of
  the table reach (`Heap.inGraph_scope`).
* `Heap.Reaches.mono`: holding more reaches more.
-/

namespace Fermata

/-! ## The cells of a store -/

namespace Store

variable {k : Kind} {α : Type}

theorem mem_addresses (s : Store k α) (a : Addr k) (h : (s.get? a).isSome) : a ∈ s.addresses := by
  obtain ⟨region, index⟩ := a
  rw [get?_eq] at h
  cases hr : s.regions[region]? with
  | none => simp [hr] at h
  | some r =>
    have hi : index < r.size := by simpa [hr] using h
    refine List.mem_flatMap.mpr ⟨(r, region), ?_, ?_⟩
    · rw [List.mem_zipIdx_iff_getElem?]
      simpa using hr
    · exact List.mem_map.mpr ⟨index, List.mem_range.mpr hi, rfl⟩

theorem length_addresses (s : Store k α) : s.addresses.length = s.size := by
  have hsum : ∀ (rs : List (Array α)) (n i : Nat),
      n + ((rs.zipIdx i).flatMap fun r =>
        (List.range r.1.size).map (⟨r.2, ·⟩ : Nat → Addr k)).length =
      rs.foldl (fun n r => n + r.size) n := by
    intro rs
    induction rs with
    | nil => intro n i; rfl
    | cons r rs ih =>
      intro n i
      rw [List.foldl_cons, ← ih _ (i + 1)]
      simp only [List.zipIdx_cons, List.flatMap_cons, List.length_append, List.length_map,
        List.length_range]
      omega
  have h := hsum s.regions.toList 0 0
  rw [Nat.zero_add] at h
  rw [size, ← Array.foldl_toList, ← h]
  rfl

end Store

/-! ## The search -/

/-- What is in a set of cells with one more. -/
theorem Cells.mem_insert {seen : Cells} {c d : Cell} : d ∈ seen.insert c ↔ d = c ∨ d ∈ seen := by
  rw [Std.TreeSet.mem_insert, Std.LawfulEqCmp.compare_eq_iff_eq, eq_comm]

namespace Cell

/-- No value refers to a scope. -/
theorem scope_notMem_ofValues {vs : List Value} {id : ScopeId} : Cell.scope id ∉ ofValues vs := by
  intro hmem
  obtain ⟨v, -, hv⟩ := List.mem_filterMap.mp hmem
  cases v <;> cases hv

variable {next : Cell → List Cell} {work : List Cell}

/-- What follows from a list of cells. -/
inductive Follows (next : Cell → List Cell) (work : List Cell) : Cell → Prop
  | work {c} : c ∈ work → Follows next work c
  | next {c d} : Follows next work c → d ∈ next c → Follows next work d

/-- The first cell of the work that was not seen yet. -/
theorem work_of_dropWhile {seen : Cells} {work rest : List Cell} {c : Cell}
    (h : work.dropWhile seen.contains = c :: rest) :
    c ∈ work ∧ c ∉ seen ∧ (∀ d ∈ rest, d ∈ work) ∧ ∀ d ∈ work, d ∈ seen ∨ d = c ∨ d ∈ rest := by
  have hsplit := List.takeWhile_append_dropWhile (p := seen.contains) (l := work)
  rw [h] at hsplit
  have hmem : ∀ d, d ∈ work ↔ d ∈ work.takeWhile seen.contains ∨ d = c ∨ d ∈ rest := fun d => by
    rw [← List.mem_cons, ← List.mem_append, hsplit]
  have hnot : ¬seen.contains c = true := fun hc => by
    have hhead := List.head_dropWhile_not seen.contains (l := work) (by simp [h])
    simp [h, hc] at hhead
  refine ⟨(hmem c).mpr (.inr (.inl rfl)), hnot, fun d hd => (hmem d).mpr (.inr (.inr hd)),
    fun d hd => ((hmem d).mp hd).imp_left fun hd => ?_⟩
  exact List.all_eq_true.mp List.all_takeWhile d hd

theorem seen_of_dropWhile {seen : Cells} {work : List Cell}
    (h : work.dropWhile seen.contains = []) : ∀ d ∈ work, d ∈ seen := fun d hd =>
  List.dropWhile_eq_nil_iff.mp h d hd

/-- Whatever holds of the roots and is handed on holds of all that the search finds. -/
theorem visit_sound (P : Cell → Prop) (hnext : ∀ c, P c → ∀ d ∈ next c, P d) (fuel : Nat)
    (work : List Cell) (seen : Cells) (hwork : ∀ c ∈ work, P c) (hseen : ∀ c ∈ seen, P c) :
    ∀ c ∈ visit next fuel work seen, P c := by
  fun_induction visit next fuel work seen with
  | case1 => exact hseen
  | case2 => exact hseen
  | case3 fuel work seen c rest hrest ih =>
    obtain ⟨hc, -, hsub, -⟩ := work_of_dropWhile hrest
    refine ih (fun d hd => ?_) fun d hd => ?_
    · rcases List.mem_append.mp hd with hd | hd
      · exact hnext c (hwork c hc) d hd
      · exact hwork d (hsub d hd)
    · rcases Cells.mem_insert.mp hd with rfl | hd
      · exact hwork _ hc
      · exact hseen d hd

/-- The cells of `U` that were not seen yet. -/
def unseen (U : Finset Cell) (seen : Cells) : Finset Cell := U.filter (· ∉ seen)

theorem card_unseen_insert (U : Finset Cell) (seen : Cells) (c : Cell) (hU : c ∈ U)
    (hc : c ∉ seen) : (unseen U (seen.insert c)).card < (unseen U seen).card := by
  refine Finset.card_lt_card ((Finset.ssubset_iff_of_subset fun d hd => ?_).mpr ⟨c, ?_, ?_⟩)
  · obtain ⟨hd, hn⟩ := Finset.mem_filter.mp hd
    exact Finset.mem_filter.mpr ⟨hd, fun h => hn (Cells.mem_insert.mpr (.inr h))⟩
  · exact Finset.mem_filter.mpr ⟨hU, hc⟩
  · exact fun h => (Finset.mem_filter.mp h).2 (Cells.mem_insert.mpr (.inl rfl))

/-- With fuel for all cells that were not seen yet, the search ends with a set that has the work and
what was seen, and hands everything on to itself. -/
theorem visit_closed (U : Finset Cell) (hU : ∀ c, ∀ d ∈ next c, d ∈ U) (fuel : Nat)
    (work : List Cell) (seen : Cells) (hfuel : (unseen U seen).card ≤ fuel)
    (hwork : ∀ c ∈ work, c ∈ U) (hseen : ∀ c ∈ seen, ∀ d ∈ next c, d ∈ seen ∨ d ∈ work) :
    (∀ c ∈ work, c ∈ visit next fuel work seen) ∧ (∀ c ∈ seen, c ∈ visit next fuel work seen) ∧
      ∀ c ∈ visit next fuel work seen, ∀ d ∈ next c, d ∈ visit next fuel work seen := by
  fun_induction visit next fuel work seen with
  | case1 work seen =>
    -- nothing is unseen, so the work is done although it was not gone through
    have hall : ∀ d ∈ U, d ∈ seen := by
      intro d hd
      by_contra hn
      have hmem : d ∈ unseen U seen := Finset.mem_filter.mpr ⟨hd, hn⟩
      rw [Finset.card_eq_zero.mp (Nat.le_zero.mp hfuel)] at hmem
      exact Finset.notMem_empty d hmem
    exact ⟨fun d hd => hall d (hwork d hd), fun d hd => hd, fun d _ e he => hall e (hU d e he)⟩
  | case2 fuel work seen hdone =>
    have hall := seen_of_dropWhile hdone
    exact ⟨hall, fun c hc => hc, fun c hc d hd => (hseen c hc d hd).elim id (hall d)⟩
  | case3 fuel work seen c rest hrest ih =>
    obtain ⟨hc, hnew, hsub, hcover⟩ := work_of_dropWhile hrest
    have hless : (unseen U (seen.insert c)).card ≤ fuel := by
      have h := card_unseen_insert U seen c (hwork c hc) hnew
      omega
    have hcovered : ∀ d ∈ work, d ∈ seen.insert c ∨ d ∈ next c ++ rest := by
      intro d hd
      rcases hcover d hd with hd | rfl | hd
      · exact .inl (Cells.mem_insert.mpr (.inr hd))
      · exact .inl (Cells.mem_insert.mpr (.inl rfl))
      · exact .inr (List.mem_append_right (next c) hd)
    have hstill : ∀ d ∈ seen.insert c, ∀ e ∈ next d, e ∈ seen.insert c ∨ e ∈ next c ++ rest := by
      intro d hd e he
      rcases Cells.mem_insert.mp hd with rfl | hd
      · exact .inr (List.mem_append_left rest he)
      · exact (hseen d hd e he).elim (fun h => .inl (Cells.mem_insert.mpr (.inr h))) (hcovered e)
    have hmore : ∀ d ∈ next c ++ rest, d ∈ U := by
      intro d hd
      rcases List.mem_append.mp hd with hd | hd
      · exact hU c d hd
      · exact hwork d (hsub d hd)
    obtain ⟨h1, h2, h3⟩ := ih hless hmore hstill
    refine ⟨fun d hd => ?_, fun d hd => h2 d (Cells.mem_insert.mpr (.inr hd)), h3⟩
    exact (hcovered d hd).elim (h2 d) (h1 d)

/-- **The search is exact**, if there is fuel for all that may follow. Beyond what was seen, it finds what
follows from the work. -/
theorem mem_visit (U : Finset Cell) (hU : ∀ c, ∀ d ∈ next c, d ∈ U) (hwork : ∀ c ∈ work, c ∈ U)
    {fuel : Nat} (hfuel : U.card ≤ fuel) {seen : Cells} (hseen : ∀ c ∈ seen, ∀ d ∈ next c, d ∈ seen)
    {c : Cell} : c ∈ visit next fuel work seen ↔ c ∈ seen ∨ Follows next work c := by
  have hunseen : (unseen U seen).card ≤ fuel :=
    Nat.le_trans (Finset.card_filter_le _ _) hfuel
  obtain ⟨hfound, hstays, hclosed⟩ :=
    visit_closed U hU fuel work seen hunseen hwork fun c hc d hd => .inl (hseen c hc d hd)
  constructor
  · refine visit_sound (fun c => c ∈ seen ∨ Follows next work c) (fun c hc d hd => ?_) fuel work seen
      (fun c hc => .inr (.work hc)) (fun c hc => .inl hc) c
    exact hc.imp (fun hc => hseen c hc d hd) fun hc => .next hc hd
  · rintro (hc | hc)
    · exact hstays c hc
    · induction hc with
      | work hc => exact hfound _ hc
      | next _ hd ih => exact hclosed _ ih _ hd

end Cell

/-! ## The cells of a heap -/

namespace Heap

variable {h k : Heap} {links kinks : Links} {roots : List Cell}

/-- The cell is behind these roots. -/
inductive Reaches (h : Heap) (links : Links) (roots : List Cell) : Cell → Prop
  | root {c} : c ∈ roots → h.contains c → Reaches h links roots c
  | held {c d} : Reaches h links roots c → d ∈ h.heldBy links c → h.contains d →
      Reaches h links roots d

theorem Reaches.contains {c : Cell} (hc : h.Reaches links roots c) : h.contains c := by
  cases hc <;> assumption

theorem mem_leads {c d : Cell} : d ∈ h.leads links c ↔ d ∈ h.heldBy links c ∧ h.contains d :=
  List.mem_filter

theorem contains_of_mem_leads (c : Cell) : ∀ d ∈ h.leads links c, h.contains d := fun _ hd =>
  (mem_leads.mp hd).2

theorem reaches_iff_follows {c : Cell} :
    h.Reaches links roots c ↔ Cell.Follows (h.leads links) (roots.filter h.contains) c := by
  constructor
  · intro hc
    induction hc with
    | root hc hin => exact .work (List.mem_filter.mpr ⟨hc, hin⟩)
    | held _ hd hin ih => exact .next ih (mem_leads.mpr ⟨hd, hin⟩)
  · intro hc
    induction hc with
    | work hc => exact .root (List.mem_filter.mp hc).1 (List.mem_filter.mp hc).2
    | next _ hd ih => exact .held ih (mem_leads.mp hd).1 (mem_leads.mp hd).2

/-- Holding more reaches more. -/
theorem Reaches.mono {roots sroots : List Cell} {c : Cell}
    (hin : ∀ c, h.contains c → k.contains c)
    (hroots : ∀ c ∈ roots, h.contains c → k.Reaches kinks sroots c)
    (hheld : ∀ c d, h.Reaches links roots c → d ∈ h.heldBy links c → d ∈ k.heldBy kinks c)
    (hc : h.Reaches links roots c) : k.Reaches kinks sroots c := by
  induction hc with
  | root hc hcin => exact hroots _ hc hcin
  | held hc hd hdin ih => exact .held ih (hheld _ _ hc hd) (hin _ hdin)

/-- What is behind cells that are reached is reached. -/
theorem Reaches.trans {sroots : List Cell} {c : Cell}
    (hroots : ∀ c ∈ roots, h.contains c → h.Reaches links sroots c)
    (hc : h.Reaches links roots c) : h.Reaches links sroots c :=
  hc.mono (fun _ hin => hin) hroots fun _ _ _ hd => hd

/-- What is behind what a cell holds is behind the cell. -/
theorem Reaches.of_heldBy {c d : Cell} (hc : h.contains c) (hd : h.Reaches links (h.heldBy links c) d) :
    h.Reaches links [c] d :=
  hd.trans fun _ he hin => .held (.root List.mem_cons_self hc) he hin

theorem Reaches.append {sroots : List Cell} {c : Cell} (hc : h.Reaches links (roots ++ sroots) c) :
    h.Reaches links roots c ∨ h.Reaches links sroots c := by
  induction hc with
  | root hc hin => exact (List.mem_append.mp hc).imp (.root · hin) (.root · hin)
  | held _ hd hin ih => exact ih.imp (.held · hd hin) (.held · hd hin)

/-! ## The bound -/

theorem length_cells (h : Heap) : h.cells.length = h.cellCount := by
  simp only [cells, cellCount, List.length_append, List.length_map, Store.length_addresses]

theorem mem_cells (h : Heap) (c : Cell) (hc : h.contains c) : c ∈ h.cells := by
  simp only [cells, List.mem_append]
  cases c with
  | object id => exact .inl (.inl (.inl (.inl (List.mem_map_of_mem (h.objects.mem_addresses id hc)))))
  | closure id => exact .inl (.inl (.inl (.inr (List.mem_map_of_mem (h.closures.mem_addresses id hc)))))
  | native id => exact .inl (.inl (.inr (List.mem_map_of_mem (h.natives.mem_addresses id hc))))
  | scope id => exact .inl (.inr (List.mem_map_of_mem (h.scopes.mem_addresses id hc)))
  | pending id => exact .inr (List.mem_map_of_mem (h.pendings.mem_addresses id hc))

/-- A search through the heap has fuel for all of it. -/
theorem mem_visit (h : Heap) {next : Cell → List Cell} {work : List Cell} {seen : Cells}
    (hnext : ∀ c, ∀ d ∈ next c, h.contains d) (hwork : ∀ c ∈ work, h.contains c)
    (hseen : ∀ c ∈ seen, ∀ d ∈ next c, d ∈ seen) {c : Cell} :
    c ∈ Cell.visit next h.cellCount work seen ↔ c ∈ seen ∨ Cell.Follows next work c := by
  have hcells : ∀ c, h.contains c → c ∈ h.cells.toFinset := fun c hc =>
    List.mem_toFinset.mpr (h.mem_cells c hc)
  have hcard : h.cells.toFinset.card ≤ h.cellCount :=
    Nat.le_trans (List.toFinset_card_le _) (Nat.le_of_eq h.length_cells)
  exact Cell.mem_visit h.cells.toFinset (fun c d hd => hcells d (hnext c d hd))
    (fun c hc => hcells c (hwork c hc)) hcard hseen

theorem contains_of_mem_filter {cs : List Cell} : ∀ c ∈ cs.filter h.contains, h.contains c := fun _ hc =>
  (List.mem_filter.mp hc).2

/-- **The search for what is held is exact.** It finds the cells behind the roots, all of them and no
others. -/
theorem mem_reach (h : Heap) (links : Links) (roots : List Cell) (c : Cell) :
    c ∈ h.reach links roots ↔ h.Reaches links roots c := by
  have hempty : ∀ c : Cell, c ∉ (∅ : Cells) := fun _ => Std.TreeSet.not_mem_emptyc
  rw [reaches_iff_follows, reach, h.mem_visit contains_of_mem_leads contains_of_mem_filter
    fun c hc => absurd hc (hempty c)]
  exact or_iff_right (hempty c)

/-! ## What is there -/

/-- The cell, which is no scope, holds itself by way of others. -/
structure OnCircle (h : Heap) (links : Links) (c : Cell) : Prop where
  noScope : c.isScope = false
  back : h.Reaches links (h.heldBy links c) c

/-- The cell is there: it is reached from the roots or the table, or it is behind a circle. -/
inductive Present (h : Heap) (links : Links) (roots : List Cell) : Cell → Prop
  | reached {c} : h.Reaches links (roots ++ tableScopes links) c → Present h links roots c
  | circle {c} : h.OnCircle links c → Present h links roots c
  | held {c d} : Present h links roots c → d ∈ h.heldBy links c → h.contains d →
      Present h links roots d

theorem Present.contains {c : Cell} (hc : h.Present links roots c) : h.contains c := by
  cases hc with
  | reached hc => exact hc.contains
  | circle hc => exact hc.back.contains
  | held _ _ hin => exact hin

theorem Present.reaches {c d : Cell} (hc : h.Present links roots c) (hd : h.Reaches links [c] d) :
    h.Present links roots d := by
  induction hd with
  | root hd _ => exact List.mem_singleton.mp hd ▸ hc
  | held _ he hin ih => exact .held ih he hin

theorem reach_closed (h : Heap) (links : Links) (roots : List Cell) :
    ∀ c ∈ h.reach links roots, ∀ d ∈ h.leads links c, d ∈ h.reach links roots := fun c hc d hd => by
  rw [mem_reach] at hc ⊢
  exact .held hc (mem_leads.mp hd).1 (mem_leads.mp hd).2

theorem mem_leaked {c : Cell} :
    c ∈ h.leaked links (h.reach links roots) ↔ ¬h.Reaches links roots c ∧ h.OnCircle links c := by
  have hcircle : h.Reaches links (h.heldBy links c) c ↔
      Cell.Follows (h.leads links) (h.leads links c) c := reaches_iff_follows
  have hfound : c ∈ Cell.visit (h.leads links) h.cellCount (h.leads links c) (h.reach links roots) ↔
      h.Reaches links roots c ∨ h.Reaches links (h.heldBy links c) c := by
    rw [h.mem_visit contains_of_mem_leads (contains_of_mem_leads c) (h.reach_closed links roots),
      mem_reach, hcircle]
  have hnew : (!(h.reach links roots).contains c) = true ↔ ¬h.Reaches links roots c := by
    rw [Bool.not_eq_true', ← Bool.not_eq_true, Std.TreeSet.contains_iff_mem, mem_reach]
  simp only [leaked, List.mem_filter, Bool.and_eq_true, hnew, Bool.not_eq_true',
    Std.TreeSet.contains_iff_mem, hfound]
  exact ⟨fun ⟨_, ⟨hs, hn⟩, hc⟩ => ⟨hn, hs, hc.resolve_left hn⟩,
    fun ⟨hn, hs, hc⟩ => ⟨h.mem_cells c hc.contains, ⟨hs, hn⟩, .inr hc⟩⟩

/-- What was found to be there is there, and nothing else. -/
theorem mem_present {c : Cell} : c ∈ h.present links roots ↔ h.Present links roots c := by
  have hleaked : ∀ c ∈ h.leaked links (h.reach links (roots ++ tableScopes links)), h.contains c :=
    fun c hc => (mem_leaked.mp hc).2.back.contains
  unfold present
  dsimp only
  rw [h.mem_visit contains_of_mem_leads hleaked (h.reach_closed links (roots ++ tableScopes links)),
    mem_reach]
  constructor
  · rintro (hc | hc)
    · exact .reached hc
    · induction hc with
      | work hc => exact .circle (mem_leaked.mp hc).2
      | next _ hd ih => exact .held ih (mem_leads.mp hd).1 (mem_leads.mp hd).2
  · intro hc
    induction hc with
    | reached hc => exact .inl hc
    | @circle c hc =>
      by_cases hr : h.Reaches links (roots ++ tableScopes links) c
      · exact .inl hr
      · exact .inr (.work (mem_leaked.mpr ⟨hr, hc⟩))
    | held _ hd hin ih =>
      exact ih.imp (fun hc => .held hc hd hin) fun hc => .next hc (mem_leads.mpr ⟨hd, hin⟩)

/-! ## The graph behind the table -/

/-- A cell of each association of a table. -/
theorem mem_tableCells {f : Association → Cell} {c : Cell} :
    c ∈ tableCells links f ↔ ∃ (n : Nat) (a : Association), links[n]? = some a ∧ c = f a := by
  have hfold : ∀ (es : List (Nat × Association)) (cells : List Cell),
      c ∈ es.foldl (fun cells e => f e.2 :: cells) cells ↔ c ∈ cells ∨ ∃ e ∈ es, c = f e.2 := by
    intro es
    induction es with
    | nil => simp
    | cons e es ih =>
      intro cells
      rw [List.foldl_cons, ih]
      simp only [List.mem_cons, exists_eq_or_imp]
      tauto
  unfold tableCells
  rw [Std.TreeMap.foldl_eq_foldl_toList, hfold]
  simp only [List.not_mem_nil, false_or, Prod.exists, Std.TreeMap.mem_toList_iff_getElem?_eq_some]

/-- The scopes of a table are those of its entries. -/
theorem mem_tableScopes {c : Cell} :
    c ∈ tableScopes links ↔ ∃ (n : Nat) (a : Association), links[n]? = some a ∧ c = .scope a.scope :=
  mem_tableCells

/-- The cell is behind the table, with no native function and no pending value on the way. -/
inductive InGraph (h : Heap) (links : Links) (roots : List Cell) : Cell → Prop
  | scope {c} : c ∈ tableScopes links → h.contains c → InGraph h links roots c
  | closure {c} : c ∈ tableClosures links → h.Present links roots c → InGraph h links roots c
  | held {c d} : InGraph h links roots c → d ∈ h.heldBy links c → h.contains d →
      d.isSealed = false → InGraph h links roots d

theorem InGraph.contains {c : Cell} (hc : h.InGraph links roots c) : h.contains c := by
  cases hc with
  | scope _ hin => exact hin
  | closure _ hc => exact hc.contains
  | held _ _ hin _ => exact hin

/-- The graph is what is behind the table. -/
theorem mem_graph {c : Cell} :
    c ∈ h.graph links (h.present links roots) ↔ h.InGraph links roots c := by
  have hempty : ∀ c : Cell, c ∉ (∅ : Cells) := fun _ => Std.TreeSet.not_mem_emptyc
  rw [graph, h.mem_visit (fun c d hd => ?_) (fun c hc => ?_) fun c hc => absurd hc (hempty c),
    or_iff_right (hempty c)]
  · constructor
    · intro hc
      induction hc with
      | work hc =>
        simp only [List.mem_append, List.mem_filter, Std.TreeSet.contains_iff_mem, mem_present] at hc
        exact hc.elim (fun hc => .scope hc.1 hc.2) fun hc => .closure hc.1 hc.2
      | next _ hd ih =>
        simp only [List.mem_filter, Bool.not_eq_true', mem_leads] at hd
        exact .held ih hd.1.1 hd.1.2 hd.2
    · intro hc
      induction hc with
      | scope hc hin => exact .work (List.mem_append_left _ (List.mem_filter.mpr ⟨hc, hin⟩))
      | closure hc hin =>
        have hfound := Std.TreeSet.contains_iff_mem.mpr (mem_present.mpr hin)
        exact .work (List.mem_append_right _ (List.mem_filter.mpr ⟨hc, hfound⟩))
      | held _ hd hin hopen ih =>
        exact .next ih (List.mem_filter.mpr ⟨mem_leads.mpr ⟨hd, hin⟩, by rw [hopen]; rfl⟩)
  · exact (mem_leads.mp (List.mem_filter.mp hd).1).2
  · simp only [List.mem_append, List.mem_filter, Std.TreeSet.contains_iff_mem, mem_present] at hc
    exact hc.elim (fun hc => hc.2) fun hc => hc.2.contains

/-- A scope is held as the parent of a scope, or as where a closure of the table was made. -/
theorem scope_mem_heldBy {c : Cell} {id : ScopeId} (hd : .scope id ∈ h.heldBy links c) :
    (∃ child, c = .scope child) ∨ .scope id ∈ tableScopes links := by
  cases c with
  | scope child => exact .inl ⟨child, rfl⟩
  | closure f =>
    simp only [heldBy, List.mem_cons, Option.mem_toList, Option.map_eq_some_iff] at hd
    rcases hd with hd | ⟨s, hs, hd⟩
    · cases hd
    · unfold Links.definingScope? at hs
      split at hs
      next a ha =>
        split at hs
        · cases hs
          exact .inr (mem_tableScopes.mpr ⟨_, a, ha, hd.symm⟩)
        · cases hs
      next => cases hs
  | native n => cases List.mem_singleton.mp hd
  | _ => exact absurd hd Cell.scope_notMem_ofValues

/-- The scopes of the graph are those that the scopes of the table reach. -/
theorem inGraph_scope {id : ScopeId} :
    h.InGraph links roots (.scope id) ↔ h.Reaches links (tableScopes links) (.scope id) := by
  constructor
  · intro hc
    generalize hs : Cell.scope id = c at hc
    induction hc generalizing id with
    | scope hc hin => exact .root hc hin
    | closure hc _ =>
      obtain ⟨n, a, -, ha⟩ := mem_tableCells.mp hc
      rw [ha] at hs
      cases hs
    | held _ hd hin _ ih =>
      subst hs
      rcases scope_mem_heldBy hd with ⟨child, rfl⟩ | htable
      · exact .held (ih rfl) hd hin
      · exact .root htable hin
  · intro hc
    generalize hs : Cell.scope id = c at hc
    induction hc generalizing id with
    | root hc hin => exact .scope hc hin
    | held _ hd hin ih =>
      subst hs
      rcases scope_mem_heldBy hd with ⟨child, rfl⟩ | htable
      · exact .held (ih rfl) hd hin rfl
      · exact .scope htable hin

end Heap

end Fermata
