import Fermata.Proofs.Name.Unit
import Fermata.Proofs.Prune.Effect
import Fermata.Proofs.Session.Create

/-!
# Chains of scopes

A scope keeps its parent and its names for life, so a name that leads to a binding leads there for
ever: new scopes, writes and pruning do not matter (`Heap.Retains`).

* `Heap.outline`: what a scope keeps.
* `Heap.place_own`, `Heap.place_below`: where a name leads to, scope by scope.
* `Heap.exists_place_of_visible`: every visible name leads to a binding.
* `Heap.Leads`: what it means for reading and writing that a name leads to a binding.
-/

namespace Fermata

namespace Storage

/-- What does not change: the global object, or the names. -/
def shape : Storage → ObjectId ⊕ List String
  | .global o => .inl o
  | .locals bindings => .inr (bindings.map Binding.name)

theorem shape_eq_inl {s : Storage} {o : ObjectId} (h : s.shape = .inl o) : s = .global o := by
  cases s with
  | global o' => exact congrArg Storage.global (Sum.inl.inj h)
  | locals bindings => cases h

theorem shape_eq_inr {s : Storage} {ns : List String} (h : s.shape = .inr ns) :
    ∃ bindings, s = .locals bindings ∧ bindings.map Binding.name = ns := by
  cases s with
  | global o => cases h
  | locals bindings => exact ⟨bindings, rfl, Sum.inr.inj h⟩

theorem any_iff {bindings : List Binding} {x : String} :
    bindings.any (·.name == x) = true ↔ x ∈ bindings.map Binding.name := by
  simp [List.any_eq_true]

theorem shape_setLocal (s : Storage) (x : String) (v : Value) :
    (s.setLocal x v).shape = s.shape := by
  cases s with
  | global o => rfl
  | locals bindings =>
    have hnames : (overwrite x v bindings).map Binding.name = bindings.map Binding.name := by
      induction bindings with
      | nil => rfl
      | cons b bs ih =>
        unfold overwrite
        split
        · rfl
        · rw [List.map_cons, ih, List.map_cons]
    exact congrArg Sum.inr hnames

end Storage

/-- What a scope keeps: its parent, and the global object or its names. -/
def Scope.outline (s : Scope) : Option ScopeId × (ObjectId ⊕ List String) :=
  (s.parent, s.storage.shape)

theorem Scope.outline_cleared (s : Scope) : s.cleared.outline = s.outline := by
  obtain ⟨parent, owner, storage, thisValue⟩ := s
  cases storage with
  | global o => rfl
  | locals bindings => simp [cleared, outline, Storage.shape, Function.comp_def]

namespace Heap

variable {h k : Heap} {x : String} {id b : ScopeId} {n m : Nat} {parent : Option ScopeId}
  {ns : List String}

/-! ## What scopes keep -/

/-- What the scope keeps, if it is there. -/
def outline (h : Heap) (id : ScopeId) : Option (Option ScopeId × (ObjectId ⊕ List String)) :=
  (h.scopes.get? id).map Scope.outline

theorem outline_push {region : Nat} {s : Scope} (heq : k.scopes = h.scopes.push region s)
    (id : ScopeId) :
    k.outline id = if id = h.scopes.next region then some s.outline else h.outline id := by
  rw [outline, heq, Store.get?_push]
  split <;> rfl

theorem outline_next (h : Heap) (region : Nat) : h.outline (h.scopes.next region) = none := by
  rw [outline, Store.get?_next]
  rfl

theorem outline_setLocal (h : Heap) (scope : ScopeId) (x : String) (v : Value) :
    (h.setLocal scope x v).outline = h.outline := by
  funext id
  unfold outline setLocal
  dsimp only
  rw [Store.get?_modify]
  split
  · cases h.scopes.get? id with
    | none => rfl
    | some s => exact congrArg (fun shape => some (s.parent, shape)) (s.storage.shape_setLocal x v)
  · rfl

theorem outline_prune (h : Heap) (links : Links) (roots : List Cell) :
    (h.prune links roots).2.outline = h.outline := by
  funext id
  unfold outline
  rcases h.get?_prune links roots id with ⟨-, heq⟩ | ⟨-, heq⟩
  · rw [heq, Option.map_map]
    exact congrArg (fun f => Option.map f (h.scopes.get? id)) (funext Scope.outline_cleared)
  · rw [heq]

/-- Every scope is still there, with its parent and its names. -/
def Retains (h k : Heap) : Prop := ∀ id o, h.outline id = some o → k.outline id = some o

theorem Retains.of_eq (heq : k.outline = h.outline) : h.Retains k := fun _ _ ho => heq ▸ ho

theorem Retains.of_push {region : Nat} {s : Scope} (heq : k.scopes = h.scopes.push region s) :
    h.Retains k := by
  intro id o ho
  rw [outline_push heq, if_neg]
  · exact ho
  · rintro rfl
    rw [outline_next] at ho
    cases ho

/-! ## Where names lead to -/

theorem get_of_outline (ho : h.outline id = some (parent, .inr ns)) :
    (h.scopes.get id).parent = parent ∧ ∃ bindings,
      (h.scopes.get id).storage = .locals bindings ∧ bindings.map Binding.name = ns := by
  obtain ⟨s, hs, heq⟩ := Option.map_eq_some_iff.mp ho
  rw [Store.get, hs]
  exact ⟨congrArg Prod.fst heq, Storage.shape_eq_inr (congrArg Prod.snd heq)⟩

theorem outline_of_locals {bindings : List Binding}
    (hs : (h.scopes.get id).storage = .locals bindings) :
    h.outline id = some ((h.scopes.get id).parent, .inr (bindings.map Binding.name)) := by
  unfold outline Store.get at *
  cases hk : h.scopes.get? id with
  | some s =>
    rw [hk] at hs
    exact congrArg (fun storage => some (s.parent, Storage.shape storage)) hs
  | none =>
    rw [hk] at hs
    cases hs

/-- One step along a chain that leads to a binding. -/
theorem placeWithin_succ (hb : h.placeWithin x (n + 1) id = .binding b) :
    ∃ parent ns, h.outline id = some (parent, .inr ns) ∧
      (x ∈ ns ∧ b = id ∨ x ∉ ns ∧ ∃ p, parent = some p ∧ h.placeWithin x n p = .binding b) := by
  unfold placeWithin at hb
  dsimp only at hb
  cases hs : (h.scopes.get id).storage with
  | global o =>
    rw [hs] at hb
    cases hb
  | locals bindings =>
    refine ⟨_, _, outline_of_locals hs, ?_⟩
    rw [hs] at hb
    dsimp only at hb
    split at hb
    · rename_i hany
      cases hb
      exact .inl ⟨Storage.any_iff.mp hany, rfl⟩
    · rename_i hany
      cases hp : (h.scopes.get id).parent with
      | none =>
        rw [hp] at hb
        cases hb
      | some p =>
        rw [hp] at hb
        exact .inr ⟨fun hx => hany (Storage.any_iff.mpr hx), p, rfl, hb⟩

theorem placeWithin_own (ho : h.outline id = some (parent, .inr ns)) (hx : x ∈ ns) (n : Nat) :
    h.placeWithin x (n + 1) id = .binding id := by
  obtain ⟨-, bindings, hs, rfl⟩ := get_of_outline ho
  rw [placeWithin, hs]
  exact if_pos (Storage.any_iff.mpr hx)

theorem placeWithin_below {p : ScopeId} (ho : h.outline id = some (some p, .inr ns)) (hx : x ∉ ns)
    (n : Nat) : h.placeWithin x (n + 1) id = h.placeWithin x n p := by
  obtain ⟨hp, bindings, hs, rfl⟩ := get_of_outline ho
  rw [placeWithin, hs, hp]
  exact if_neg fun hany => hx (Storage.any_iff.mp hany)

/-- The walk has as many steps as it needs. -/
theorem placeWithin_mono (hb : h.placeWithin x n id = .binding b) (hm : n ≤ m) :
    h.placeWithin x m id = .binding b := by
  induction n generalizing m id with
  | zero => cases hb
  | succ n ih =>
    obtain ⟨m, rfl⟩ := Nat.exists_eq_add_of_le' (Nat.le_trans (Nat.le_add_left 1 n) hm)
    obtain ⟨parent, ns, ho, ⟨hx, rfl⟩ | ⟨hx, p, rfl, hrest⟩⟩ := placeWithin_succ hb
    · exact placeWithin_own ho hx m
    · rw [placeWithin_below ho hx]
      exact ih hrest (Nat.le_of_succ_le_succ hm)

theorem Retains.placeWithin (hk : h.Retains k) (hb : h.placeWithin x n id = .binding b) :
    k.placeWithin x n id = .binding b := by
  induction n generalizing id with
  | zero => cases hb
  | succ n ih =>
    obtain ⟨parent, ns, ho, ⟨hx, rfl⟩ | ⟨hx, p, rfl, hrest⟩⟩ := placeWithin_succ hb
    · exact placeWithin_own (hk _ _ ho) hx n
    · rw [placeWithin_below (hk _ _ ho) hx]
      exact ih hrest

/-- **A name that leads to a binding leads there for ever.** -/
theorem Retains.place (hk : h.Retains k) (hb : h.place id x = .binding b) :
    k.place id x = .binding b :=
  hk.placeWithin hb

/-- A name of the scope itself leads to it. -/
theorem place_own (ho : h.outline id = some (parent, .inr ns)) (hx : x ∈ ns) :
    h.place id x = .binding id :=
  placeWithin_own ho hx id.index

/-- Any other name leads to where it leads from the parent. -/
theorem place_below {p : ScopeId} (ho : h.outline id = some (some p, .inr ns)) (hx : x ∉ ns)
    (hage : p.index < id.index) (hb : h.place p x = .binding b) : h.place id x = .binding b := by
  unfold place chainBound at hb ⊢
  rw [placeWithin_below ho hx]
  exact placeWithin_mono hb hage

/-- The binding that a name leads to is one of that name. -/
theorem outline_of_placeWithin (hb : h.placeWithin x n id = .binding b) :
    ∃ parent ns, h.outline b = some (parent, .inr ns) ∧ x ∈ ns := by
  induction n generalizing id with
  | zero => cases hb
  | succ n ih =>
    obtain ⟨parent, ns, ho, ⟨hx, rfl⟩ | ⟨-, p, -, hrest⟩⟩ := placeWithin_succ hb
    · exact ⟨parent, ns, ho, hx⟩
    · exact ih hrest

/-! ## Visible names -/

/-- Only a scope at the end of its chain has no names of its own. -/
def EndsAtRoots (h : Heap) : Prop :=
  ∀ id parent o, h.outline id = some (parent, .inl o) → parent = none

theorem EndsAtRoots.of_eq (hroots : h.EndsAtRoots) (heq : k.outline = h.outline) : k.EndsAtRoots :=
  fun id parent o ho => hroots id parent o (heq ▸ ho)

theorem EndsAtRoots.of_push {region : Nat} {s : Scope} (hroots : h.EndsAtRoots)
    (heq : k.scopes = h.scopes.push region s)
    (hs : ∀ o, s.storage.shape = .inl o → s.parent = none) : k.EndsAtRoots := by
  intro id parent o ho
  rw [outline_push heq] at ho
  split at ho
  · have hpair : (s.parent, s.storage.shape) = (parent, .inl o) := Option.some.inj ho
    exact (congrArg Prod.fst hpair).symm.trans (hs o (congrArg Prod.snd hpair))
  · exact hroots id parent o ho

theorem mem_foldl_names {bindings : List Binding} {names : List String}
    (hx : x ∈ bindings.foldl (fun ns b => if ns.contains b.name then ns else ns ++ [b.name]) names) :
    x ∈ names ∨ x ∈ bindings.map Binding.name := by
  induction bindings generalizing names with
  | nil => exact .inl hx
  | cons b bs ih =>
    rcases ih hx with hx | hx
    · dsimp only at hx
      split at hx
      · exact .inl hx
      · rcases List.mem_append.mp hx with hx | hx
        · exact .inl hx
        · exact .inr (List.mem_singleton.mp hx ▸ List.mem_cons_self)
    · exact .inr (List.mem_cons_of_mem _ hx)

theorem exists_placeWithin_of_visible (hroots : h.EndsAtRoots) {names : List String}
    (hx : x ∈ h.visibleWithin n id names) : x ∈ names ∨ ∃ b, h.placeWithin x n id = .binding b := by
  induction n generalizing id names with
  | zero => exact .inl hx
  | succ n ih =>
    unfold visibleWithin at hx
    dsimp only at hx
    cases hs : (h.scopes.get id).storage with
    | global o =>
      have hparent : (h.scopes.get id).parent = none := by
        unfold Store.get at hs ⊢
        cases hk : h.scopes.get? id with
        | none => rfl
        | some s =>
          rw [hk] at hs
          refine hroots id s.parent o ?_
          rw [outline, hk]
          exact congrArg (fun storage => some (s.parent, Storage.shape storage)) hs
      rw [hs, hparent] at hx
      exact .inl hx
    | locals bindings =>
      have ho := outline_of_locals hs
      by_cases hown : x ∈ bindings.map Binding.name
      · exact .inr ⟨id, placeWithin_own ho hown n⟩
      rw [hs] at hx
      dsimp only at hx
      cases hp : (h.scopes.get id).parent with
      | none =>
        rw [hp] at hx
        exact .inl ((mem_foldl_names hx).resolve_right hown)
      | some p =>
        rw [hp] at hx ho
        rcases ih hx with hx | ⟨b, hb⟩
        · exact .inl ((mem_foldl_names hx).resolve_right hown)
        · exact .inr ⟨b, (placeWithin_below ho hown n).trans hb⟩

/-- **Every visible name leads to a binding.** -/
theorem exists_place_of_visible (hroots : h.EndsAtRoots) (hx : x ∈ h.visibleNames id) :
    ∃ b, h.place id x = .binding b :=
  (exists_placeWithin_of_visible hroots hx).resolve_left List.not_mem_nil

/-! ## Reading and writing -/

/-- Reading and writing the name from the scope act on the binding of `b`. -/
structure Leads (h : Heap) (id : ScopeId) (x : String) (b : ScopeId) : Prop where
  reads : ∃ v, h.getName id x = .ok v ∧ (h.scopes.get b).storage.localValue? x = some v
  writes : ∀ v, h.setName id x v = .ok (h.setLocal b x v)

/-- **A name that leads to a binding can be read and written.** -/
theorem leads_of_place (hx : isValidName x = true) (hb : h.place id x = .binding b) :
    h.Leads id x b := by
  obtain ⟨parent, ns, ho, hmem⟩ := outline_of_placeWithin hb
  obtain ⟨-, bindings, hs, rfl⟩ := get_of_outline ho
  have hfound : (bindings.find? (·.name == x)).isSome := by
    rw [List.find?_isSome]
    exact List.any_eq_true.mp (Storage.any_iff.mpr hmem)
  obtain ⟨binding, hfind⟩ := Option.isSome_iff_exists.mp hfound
  have hv : (h.scopes.get b).storage.localValue? x = some binding.value := by
    rw [hs]
    exact congrArg (Option.map Binding.value) hfind
  refine ⟨⟨binding.value, ?_, hv⟩, fun w => ?_⟩
  · simp only [getName, hx, hb, hv, Bool.not_true, Bool.false_eq_true, if_false]
  · simp only [setName, target, hx, hb, Bool.not_true, Bool.false_eq_true, if_false]
    rfl

end Heap

/-!
## Scopes follow the source

A unit runs in a scope, its base. Each function of it that needs one gets a scope of its own, below the
scope of the activation in which it was made, so the chain of scopes follows the functions around a
place of the source (`Enclosed`). A name that is mentioned at the place leads to the innermost function
around it that declares it, though names that nothing refers to have no binding.

* `Enclosed.exists_place`: a name that a function around declares.
* `Enclosed.place_outer`: a name that no function of the unit declares.
-/

namespace Numbered

variable {a b : Nat} {ms : List Mention}

/-- The body of a literal is numbered, too. -/
theorem inside (h : Numbered a ms b) {g : FunctionNode} (hg : Within ms g) :
    ∃ a' b', Numbered a' g.mentions b' := by
  induction h with
  | nil =>
    cases hg with
    | here hg => cases hg
    | inner hh => cases hh
  | name _ _ ih =>
    rcases hg.cons with hg | hg
    · exact hg.name.elim
    · exact ih hg
  | literal _ hbody _ ihbody ih =>
    rcases hg.cons with hg | hg
    · rcases hg.literal with rfl | hg
      · exact ⟨_, _, hbody⟩
      · exact ihbody hg
    · exact ih hg

end Numbered

/-- Names of the source are names. -/
theorem CodeUnit.MadeFrom.valid {u : CodeUnit} {p : Program} {outer : List String}
    (hu : u.MadeFrom p outer) {path : List FunctionNode} (hpath : p.Nested path) {x : String}
    (hx : .name x ∈ p.mentionsIn path) : isValidName x = true := by
  cases path with
  | nil => exact hu.numbered.valid (.name hx)
  | cons g path =>
    obtain ⟨a, b, hnum⟩ := hu.numbered.inside hpath.head
    exact hnum.valid (.name hx)

/-- The scope in which the code of a place runs if its unit runs in `base`. -/
inductive Enclosed (u : CodeUnit) (h : Heap) (outer : List String) (base : ScopeId) :
    List FunctionNode → ScopeId → Prop
  | top : Enclosed u h outer base [] base
  /-- A function that needs a scope has one below that of the activation in which it was made. It is
  younger than that one, unless nothing is to be found there. -/
  | own {g path s t r} : Enclosed u h outer base path s → u.record? g.id = some r →
      r.requiresCapture = true → h.outline t = some (some s, .inr r.bindings) →
      (s.index < t.index ∨ path = [] ∧ outer = []) → Enclosed u h outer base (g :: path) t
  /-- A function that needs none runs in the scope of the activation in which it was made. -/
  | shared {g path s r} : Enclosed u h outer base path s → u.record? g.id = some r →
      r.requiresCapture = false → Enclosed u h outer base (g :: path) s

namespace Enclosed

variable {u : CodeUnit} {h k : Heap} {p : Program} {outer : List String} {base s b : ScopeId}
  {path rest : List FunctionNode} {g : FunctionNode} {x : String}

theorem retains (hk : h.Retains k) (he : Enclosed u h outer base path s) :
    Enclosed u k outer base path s := by
  induction he with
  | top => exact .top
  | own _ hr hneed ho hage ih => exact .own ih hr hneed (hk _ _ ho) hage
  | shared _ hr hneed ih => exact .shared ih hr hneed

/-- A function that has literals runs in a scope that is there. -/
theorem outline_isSome (hu : u.MadeFrom p outer) (hpath : p.Nested (g :: path))
    (he : Enclosed u h outer base path s) (hne : path ≠ []) : (h.outline s).isSome = true := by
  cases he with
  | top => exact absurd rfl hne
  | own _ _ _ ho => exact Option.isSome_of_eq_some ho
  | @shared f path s r _ hr hneed =>
    cases hpath with
    | inside hpath hg =>
      obtain ⟨r', -, hr', -, hdesc, -⟩ := hu.function hpath.head
      rw [hr] at hr'
      cases hr'
      have hchild : g.id ∈ r.children := (hdesc.lists.mem_children g.id).mpr ⟨g, hg, rfl⟩
      rw [(hdesc.lists.needed hneed).2] at hchild
      cases hchild

/-- A name that the function itself declares leads to its own scope. -/
theorem place_head (hu : u.MadeFrom p outer) (hpath : p.Nested (g :: path))
    (he : Enclosed u h outer base (g :: path) s) (hx : Free g.mentions x) (hdecl : g.Declares x) :
    h.place s x = .binding s := by
  obtain ⟨r, -, hr, -, hdesc, -⟩ := hu.function hpath.head
  have hbound := hdesc.used x hx hdecl
  cases he with
  | own _ hr' _ ho _ =>
    rw [hr] at hr'
    cases hr'
    exact Heap.place_own ho hbound
  | shared _ hr' hneed =>
    rw [hr] at hr'
    cases hr'
    rw [(hdesc.lists.needed hneed).1] at hbound
    cases hbound

/-- Any other name leads to where it leads from the function around. -/
theorem place_tail (hu : u.MadeFrom p outer) (hpath : p.Nested (g :: path))
    (he : Enclosed u h outer base (g :: path) s) (hnot : ¬g.Declares x)
    (hfar : path = [] → outer ≠ []) :
    ∃ t, Enclosed u h outer base path t ∧ ∀ b, h.place t x = .binding b → h.place s x = .binding b := by
  obtain ⟨r, -, hr, -, hdesc, -⟩ := hu.function hpath.head
  cases he with
  | @own _ _ t _ _ he hr' _ ho hage =>
    rw [hr] at hr'
    cases hr'
    have hyounger := hage.resolve_right fun hnone => hfar hnone.1 hnone.2
    exact ⟨t, he, fun b hb =>
      Heap.place_below ho (fun hx => hnot (hdesc.declared x hx)) hyounger hb⟩
  | shared he _ _ => exact ⟨s, he, fun _ hb => hb⟩

/-- **A declared name leads to the innermost function that declares it**, in the activation in which
the code around the place was made. -/
theorem exists_place (hu : u.MadeFrom p outer) (before : List FunctionNode)
    (hpath : p.Nested (before ++ g :: rest)) (he : Enclosed u h outer base (before ++ g :: rest) s)
    (hbefore : ∀ f ∈ before, ¬f.Declares x) (hdecl : g.Declares x)
    (hx : Free (p.mentionsIn (before ++ g :: rest)) x) :
    ∃ t, Enclosed u h outer base (g :: rest) t ∧ h.place s x = .binding t := by
  induction before generalizing s with
  | nil => exact ⟨s, he, place_head hu hpath he hx hdecl⟩
  | cons f before ih =>
    have hnot := hbefore f List.mem_cons_self
    obtain ⟨t, ht, hplace⟩ := place_tail hu hpath he hnot fun hnil => by
      cases before <;> cases hnil
    cases hpath with
    | inside hpath hf =>
      obtain ⟨t', ht', hb⟩ := ih hpath ht (fun f' hf' => hbefore f' (List.mem_cons_of_mem f hf'))
        (.inner hf hx hnot)
      exact ⟨t', ht', hplace t' hb⟩

/-- **A name that no function of the unit declares** leads to where it leads from the base. -/
theorem place_outer (hu : u.MadeFrom p outer) (hpath : p.Nested path)
    (he : Enclosed u h outer base path s) (hnot : ∀ f ∈ path, ¬f.Declares x) (hx : x ∈ outer)
    (hb : h.place base x = .binding b) : h.place s x = .binding b := by
  induction path generalizing s with
  | nil =>
    cases he
    exact hb
  | cons f path ih =>
    obtain ⟨t, ht, hplace⟩ := place_tail hu hpath he (hnot f List.mem_cons_self) fun _ hnil => by
      rw [hnil] at hx
      cases hx
    cases hpath with
    | inside hpath _ =>
      exact hplace b (ih hpath ht fun f' hf' => hnot f' (List.mem_cons_of_mem f hf'))

end Enclosed

end Fermata
