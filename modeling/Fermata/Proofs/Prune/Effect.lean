import Fermata.Proofs.Act.Invariant
import Fermata.Proofs.Prune.Reach
import Fermata.Proofs.Session.Life

/-!
# What pruning changes

Pruning takes associations out of the table and clears scopes. It does nothing to what is held from
outside (`Heap.Kept`), and to the rest of the heap it does nothing but set the local bindings of
scopes to `undefined`.

* `Heap.getElem?_prune`: an association stays exactly if its closure is held from outside.
* `Heap.get?_prune`: a scope stays as it is or is cleared.
* `Heap.get?_prune_kept`: a scope that is held from outside stays as it is.
-/

namespace Fermata

/-- The scope with every local binding set to `undefined`. -/
def Scope.cleared (s : Scope) : Scope :=
  match s.storage with
  | .locals bindings =>
    { s with storage := .locals (bindings.map fun b => { b with value := .undefined }) }
  | .global _ => s

theorem Scope.cleared_cleared (s : Scope) : s.cleared.cleared = s.cleared := by
  obtain ⟨parent, owner, storage, thisValue⟩ := s
  cases storage with
  | global o => rfl
  | locals bindings => simp [cleared]

namespace Heap

variable {h : Heap} {links : Links} {roots : List Cell}

/-- What holds from outside of the graph behind the table. -/
abbrev outer (h : Heap) (links : Links) (roots : List Cell) : List Cell :=
  outside roots (h.present links roots) (h.graph links (h.present links roots))

/-- The cell is held from outside. -/
def Kept (h : Heap) (links : Links) (roots : List Cell) (c : Cell) : Prop :=
  h.Reaches links (h.outer links roots) c

theorem mem_outer (h : Heap) (links : Links) (roots : List Cell) (c : Cell) :
    c ∈ h.outer links roots ↔
      c ∈ roots ∨ h.Present links roots c ∧ ¬h.InGraph links roots c := by
  simp only [outer, outside, List.mem_append, List.mem_filter, Std.TreeSet.mem_toList, mem_present,
    Bool.not_eq_true', ← Bool.not_eq_true, Std.TreeSet.contains_iff_mem, mem_graph]

theorem Reaches.kept {c : Cell} (hc : h.Reaches links roots c) : h.Kept links roots c :=
  hc.trans fun c hc hin => .root ((h.mem_outer links roots c).mpr (.inl hc)) hin

theorem InGraph.not_sealed {c : Cell} (hc : h.InGraph links roots c) : c.isSealed = false := by
  cases hc with
  | scope hc _ | closure hc _ =>
    obtain ⟨n, a, -, rfl⟩ := mem_tableCells.mp hc
    rfl
  | held _ _ _ hopen => exact hopen

/-- What native functions and pending values hold is held from outside, if they are there. -/
theorem Present.kept_sealed {c : Cell} (hc : h.Present links roots c) (hs : c.isSealed) :
    h.Kept links roots c := by
  refine .root ((h.mem_outer links roots c).mpr (.inr ⟨hc, fun hin => ?_⟩)) hc.contains
  rw [hin.not_sealed] at hs
  cases hs

/-- What is there is held from outside, or is in the graph. -/
theorem Present.kept_or_inGraph {c : Cell} (hc : h.Present links roots c) :
    h.Kept links roots c ∨ h.InGraph links roots c := by
  by_cases hin : h.InGraph links roots c
  · exact .inr hin
  · exact .inl (.root ((h.mem_outer links roots c).mpr (.inr ⟨hc, hin⟩)) hc.contains)

/-- An association stays exactly if its closure is held from outside. -/
theorem getElem?_prune (h : Heap) (links : Links) (roots : List Cell) (n : Nat) (a : Association) :
    (h.prune links roots).1[n]? = some a ↔
      links[n]? = some a ∧ h.Kept links roots (.closure a.closure) := by
  have hkept : h.Kept links roots (.closure a.closure) ↔
      (h.reach links (h.outer links roots)).contains (.closure a.closure) = true := by
    rw [Std.TreeSet.contains_iff_mem, mem_reach]
    rfl
  rw [hkept]
  simp only [prune, Std.TreeMap.getElem?_filter', Option.filter_eq_some_iff]

/-! ## Scopes -/

/-- Clear those scopes of a list of cells that are not in a set. -/
def clearing (kept : Cells) (h : Heap) (c : Cell) : Heap :=
  match c with
  | .scope id => if kept.contains c then h else h.clearBindings id
  | _ => h

theorem clearBindings_eq (h : Heap) (id : ScopeId) :
    h.clearBindings id = { h with scopes := h.scopes.modify id Scope.cleared } := rfl

theorem clearing_eq (kept : Cells) (h : Heap) (c : Cell) :
    clearing kept h c = { h with scopes := (clearing kept h c).scopes } := by
  unfold clearing
  cases c with
  | scope id =>
    dsimp only
    split <;> rfl
  | _ => rfl

theorem foldl_clearing_eq (kept : Cells) (cs : List Cell) (h : Heap) :
    cs.foldl (clearing kept) h = { h with scopes := (cs.foldl (clearing kept) h).scopes } := by
  induction cs generalizing h with
  | nil => rfl
  | cons c cs ih =>
    rw [List.foldl_cons, ih, clearing_eq]

theorem get?_clearing (kept : Cells) (h : Heap) (c : Cell) (id : ScopeId) :
    (clearing kept h c).scopes.get? id =
      if c = .scope id ∧ c ∉ kept then (h.scopes.get? id).map Scope.cleared
      else h.scopes.get? id := by
  cases c with
  | scope n =>
    by_cases hk : Cell.scope n ∈ kept
    · simp [clearing, hk]
    · by_cases hn : id = n
      · simp [clearing, hk, hn, clearBindings_eq, Store.get?_modify]
      · simp [clearing, hk, hn, Ne.symm hn, clearBindings_eq, Store.get?_modify]
  | _ => simp [clearing]

theorem get?_foldl_clearing (kept : Cells) (cs : List Cell) (h : Heap) (id : ScopeId) :
    (cs.foldl (clearing kept) h).scopes.get? id =
      if .scope id ∈ cs ∧ .scope id ∉ kept then (h.scopes.get? id).map Scope.cleared
      else h.scopes.get? id := by
  induction cs generalizing h with
  | nil => simp
  | cons c cs ih =>
    rw [List.foldl_cons, ih, get?_clearing]
    by_cases hk : Cell.scope id ∈ kept
    · by_cases hc : c = .scope id
      · simp [hk, hc]
      · simp [hk, hc]
    · by_cases hc : c = .scope id
      · subst hc
        by_cases hcs : Cell.scope id ∈ cs
        · have htwice : Scope.cleared ∘ Scope.cleared = Scope.cleared :=
            funext Scope.cleared_cleared
          simp [hk, hcs, htwice]
        · simp [hk, hcs]
      · simp [hk, hc, Ne.symm hc]

theorem prune_eq (h : Heap) (links : Links) (roots : List Cell) :
    (h.prune links roots).2 = { h with scopes := (h.prune links roots).2.scopes } :=
  foldl_clearing_eq _ _ h

/-- A scope that is not held from outside and stands behind the table is cleared; no other is. -/
theorem get?_prune (h : Heap) (links : Links) (roots : List Cell) (id : ScopeId) :
    ((h.Reaches links (tableScopes links) (.scope id) ∧ ¬h.Kept links roots (.scope id)) ∧
        (h.prune links roots).2.scopes.get? id = (h.scopes.get? id).map Scope.cleared) ∨
      ((h.Reaches links (tableScopes links) (.scope id) → h.Kept links roots (.scope id)) ∧
        (h.prune links roots).2.scopes.get? id = h.scopes.get? id) := by
  have hget := get?_foldl_clearing (h.reach links (h.outer links roots))
    (h.graph links (h.present links roots)).toList h id
  have hiff : (Cell.scope id ∈ (h.graph links (h.present links roots)).toList ∧
      Cell.scope id ∉ h.reach links (h.outer links roots)) ↔
      h.Reaches links (tableScopes links) (.scope id) ∧ ¬h.Kept links roots (.scope id) := by
    rw [Std.TreeSet.mem_toList, mem_graph, inGraph_scope, mem_reach]
    rfl
  by_cases hc : h.Reaches links (tableScopes links) (.scope id) ∧ ¬h.Kept links roots (.scope id)
  · exact .inl ⟨hc, hget.trans (if_pos (hiff.mpr hc))⟩
  · exact .inr ⟨fun hr => not_not.mp fun hk => hc ⟨hr, hk⟩,
      hget.trans (if_neg fun hin => hc (hiff.mp hin))⟩

/-- A scope that is held from outside stays as it is. -/
theorem get?_prune_kept {id : ScopeId} (hk : h.Kept links roots (.scope id)) :
    (h.prune links roots).2.scopes.get? id = h.scopes.get? id := by
  rcases h.get?_prune links roots id with ⟨⟨-, hn⟩, -⟩ | ⟨-, heq⟩
  · exact absurd hk hn
  · exact heq

theorem objects_prune (h : Heap) (links : Links) (roots : List Cell) :
    (h.prune links roots).2.objects = h.objects := by
  rw [prune_eq]

theorem closures_prune (h : Heap) (links : Links) (roots : List Cell) :
    (h.prune links roots).2.closures = h.closures := by
  rw [prune_eq]

theorem pendings_prune (h : Heap) (links : Links) (roots : List Cell) :
    (h.prune links roots).2.pendings = h.pendings := by
  rw [prune_eq]

/-! ## What is behind the roots afterwards -/

theorem contains_prune (h : Heap) (links : Links) (roots : List Cell) (c : Cell) :
    (h.prune links roots).2.contains c = h.contains c := by
  cases c with
  | scope id =>
    rcases h.get?_prune links roots id with ⟨-, heq⟩ | ⟨-, heq⟩
    · simp only [contains, heq, Option.isSome_map]
    · simp only [contains, heq]
  | _ => rw [prune_eq]; rfl

theorem ofValues_held_cleared (s : Scope) : ∀ d ∈ Cell.ofValues s.cleared.held,
    d ∈ Cell.ofValues s.held := by
  obtain ⟨parent, owner, storage, thisValue⟩ := s
  cases storage with
  | global o => exact fun d hd => hd
  | locals bindings =>
    intro d hd
    obtain ⟨v, hv, hcell⟩ := List.mem_filterMap.mp hd
    refine List.mem_filterMap.mpr ⟨v, ?_, hcell⟩
    simp only [Scope.cleared, Scope.held, List.map_map, List.mem_cons, List.mem_map,
      Function.comp_apply] at hv ⊢
    rcases hv with hv | ⟨b, -, rfl⟩
    · exact .inl hv
    · exact absurd hcell nofun

theorem definingScope?_prune (h : Heap) (links : Links) (roots : List Cell) (id : ClosureId)
    (scope : ScopeId) :
    (h.prune links roots).1.definingScope? (h.prune links roots).2 id = some scope ↔
      links.definingScope? h id = some scope ∧ h.Kept links roots (.closure id) := by
  unfold Links.definingScope?
  rw [closures_prune]
  cases hn : (h.prune links roots).1[(h.closures.get id).serial]? with
  | none =>
    cases ho : links[(h.closures.get id).serial]? with
    | none => simp
    | some a =>
      have hout : ¬h.Kept links roots (.closure a.closure) := fun hk => by
        have hsome := (h.getElem?_prune links roots _ a).mpr ⟨ho, hk⟩
        rw [hn] at hsome
        cases hsome
      by_cases hid : a.closure = id
      · subst hid
        simp [hout]
      · simp [hid]
  | some a =>
    obtain ⟨ho, hk⟩ := (h.getElem?_prune links roots _ a).mp hn
    by_cases hid : a.closure = id
    · subst hid
      simp [ho, hk]
    · simp [ho, hid]

/-- Pruning takes away, it never gives. -/
theorem heldBy_prune (h : Heap) (links : Links) (roots : List Cell) (c d : Cell)
    (hd : d ∈ (h.prune links roots).2.heldBy (h.prune links roots).1 c) : d ∈ h.heldBy links c := by
  cases c with
  | closure id =>
    simp only [heldBy, List.mem_cons, Option.mem_toList, Option.map_eq_some_iff] at hd ⊢
    rcases hd with hd | ⟨scope, hs, hd⟩
    · rw [prune_eq] at hd
      exact .inl hd
    · exact .inr ⟨scope, ((h.definingScope?_prune links roots id scope).mp hs).1, hd⟩
  | scope id =>
    rcases h.get?_prune links roots id with ⟨-, heq⟩ | ⟨-, heq⟩
    · cases hs : h.scopes.get? id with
      | none =>
        rw [hs] at heq
        simpa only [heldBy, Store.get, hs, heq, Option.map_none] using hd
      | some s =>
        rw [hs] at heq
        simp only [heldBy, Store.get, heq, hs, Option.map_some, Option.getD_some,
          List.mem_append] at hd ⊢
        refine hd.imp (fun hd => ?_) fun hd => ofValues_held_cleared s d hd
        obtain ⟨parent, owner, storage, thisValue⟩ := s
        cases storage <;> exact hd
    · simpa only [heldBy, Store.get, heq] using hd
  | _ =>
    rw [prune_eq] at hd
    exact hd

/-- What is behind the roots after pruning was behind them before. -/
theorem Reaches.of_prune {roots held : List Cell} {c : Cell}
    (hc : (h.prune links held).2.Reaches (h.prune links held).1 roots c) :
    h.Reaches links roots c :=
  hc.mono (fun c hin => h.contains_prune links held c ▸ hin)
    (fun c hc hin => .root hc (h.contains_prune links held c ▸ hin))
    fun c d _ hd => h.heldBy_prune links held c d hd

end Heap

/-!
## Numbers of closures

An engine numbers its closures in order. As long as it meets no closures of other engines, a number
that it gives out is new to its table of associations.

* `Core.Counted`: numbers to come are free.
* `Invariant.counted`: they stay so.
-/

/-- Numbers of closures to come are free, and those of closures are not to come. -/
structure Core.Counted (c : Core) : Prop where
  free : ∀ n, c.engine.nextSerial ≤ n → c.engine.links[n]? = none
  given : ∀ id, (c.heap.closures.get id).serial < c.engine.nextSerial

namespace Core.Counted

variable {c : Core}

theorem bearing (h : c.Counted) (fn : FunctionNode) (u : CodeUnit) : (c.bearing fn u).Counted := by
  refine ⟨fun n hn => h.free n (Nat.le_of_succ_le hn), fun id => ?_⟩
  change ((c.heap.closures.push _ (c.nextClosure fn u)).get id).serial < c.engine.nextSerial + 1
  have hold := h.given id
  unfold Store.get at hold ⊢
  rw [Store.get?_push]
  split
  · exact Nat.lt_succ_self _
  · exact Nat.lt_succ_of_lt hold

/-- An association of a number that was given out. -/
theorem associate (h : c.Counted) {n : Nat} (hn : n < c.engine.nextSerial) (a : Association) :
    Counted { c with engine := { c.engine with links := (c.engine.links.associate n a).2 } } := by
  refine ⟨fun m hm => ?_, h.given⟩
  have hm : c.engine.nextSerial ≤ m := hm
  change (c.engine.links.associate n a).2[m]? = none
  rw [Links.getElem?_associate, if_neg fun heq => ?_]
  · exact h.free m hm
  · omega

theorem ended (h : c.Counted) (held : List Cell) : (c.ended held).Counted := by
  refine ⟨fun n hn => ?_, ?_⟩
  · cases ha : (c.ended held).engine.links[n]? with
    | none => rfl
    | some a =>
      obtain ⟨ha, -⟩ := (Heap.getElem?_prune ..).mp ha
      rw [h.free n hn] at ha
      cases ha
  · change ∀ id, ((c.heap.prune c.engine.links held).2.closures.get id).serial < _
    rw [Heap.closures_prune]
    exact h.given

end Core.Counted

/-- Numbers are given out in order. -/
def Invariant.counted : Invariant where
  holds _ c := c.Counted
  quiet h _ := ⟨h.free, h.given⟩
  binding h _ _ _ := ⟨h.free, h.given⟩
  birth h _ := h.bearing _ _
  link h _ _ _ := (h.bearing _ _).associate (Nat.lt_succ_self _) _
  capture _ h _ _ _ _ := ⟨h.free, h.given⟩
  share _ h _ _ _ := h
  code h _ := h
  mark h _ := h
  close h := h

end Fermata
