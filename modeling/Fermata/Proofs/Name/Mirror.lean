import Fermata.Proofs.Name.Unit
import Mathlib.Data.List.Forall2

/-!
# The scope tree mirrors the program

Functions are numbered in the order in which they start. The table of functions lists in that order
what the pass made of them, and the records list, function by function, which ones stand directly
inside.

* `Preorder`: the functions of a tree from left to right, each before those inside it.
* `Numbered.preorder`: they carry consecutive numbers.
* `Resolve.Walk.preorder`: the pass keeps their order.
* `CodeUnit.compile_mirrors`: the scope tree of a compiled unit mirrors its program.
-/

namespace Fermata

open Mention Resolve

/-! ## The order of functions -/

/-- From left to right, these functions and those inside them, each before what is inside it. -/
inductive Preorder : List FunctionNode → List FunctionNode → Prop
  | nil : Preorder [] []
  | cons {g gs inner rest} : Preorder (literals g.mentions) inner → Preorder gs rest →
      Preorder (g :: gs) (g :: (inner ++ rest))

namespace Preorder

variable {fs gs : List FunctionNode}

/-- All functions that are met are in the tree. -/
theorem within {ms : List Mention} {g : FunctionNode} (h : Preorder fs gs)
    (hfs : ∀ f ∈ fs, .literal f ∈ ms) (hg : g ∈ gs) : Within ms g := by
  induction h generalizing ms with
  | nil => cases hg
  | @cons f fs inner rest _ _ ihinner ih =>
    have hf := hfs f List.mem_cons_self
    rcases List.mem_cons.mp hg with rfl | hg
    · exact .here hf
    · rcases List.mem_append.mp hg with hg | hg
      · exact .inner hf (ihinner (fun f hf => mem_literals.mp hf) hg)
      · exact ih (fun f hf => hfs f (List.mem_cons_of_mem _ hf)) hg

/-- The outermost functions, and the ones directly inside each function, are all functions. -/
theorem perm (h : Preorder fs gs) : (fs ++ gs.flatMap (literals ·.mentions)).Perm gs := by
  induction h with
  | nil => exact .refl _
  | @cons f fs inner rest _ _ ihinner ih =>
    refine .cons f ?_
    rw [List.flatMap_cons, List.flatMap_append, ← List.append_assoc (literals f.mentions)]
    exact (List.perm_append_comm_assoc fs _ _).trans (ihinner.append ih)

end Preorder

/-- **Functions have consecutive numbers** in the order in which they start. -/
theorem Numbered.preorder {a b : Nat} {ms : List Mention} (h : Numbered a ms b) :
    ∃ gs, Preorder (literals ms) gs ∧ gs.map FunctionNode.id = List.range' a (b - a) := by
  induction h with
  | @nil a => exact ⟨[], .nil, by rw [Nat.sub_self]; rfl⟩
  | name _ _ ih => exact ih
  | @literal a b c g ms hid hbody hrest ihbody ih =>
    obtain ⟨inner, hinner, hinners⟩ := ihbody
    obtain ⟨rest, hrest', hrests⟩ := ih
    have hle := hbody.le
    have hle' := hrest.le
    have hglue := List.range'_append_1 (s := a + 1) (m := b - (a + 1)) (n := c - b)
    rw [show a + 1 + (b - (a + 1)) = b by omega] at hglue
    refine ⟨g :: (inner ++ rest), .cons hinner hrest', ?_⟩
    rw [List.map_cons, List.map_append, hid, hinners, hrests, hglue,
      show c - a = b - (a + 1) + (c - b) + 1 by omega, List.range'_succ]

/-! ## The pass keeps the order -/

namespace Resolve

variable {ms : List Mention} {fns gs : List FunctionNode} {s t : State} {g fn : FunctionNode}

/-- The table of functions has this as what became of the literal, whose number is in the range. -/
structure State.Keeps (s : State) (a b : Nat) (fn g : FunctionNode) : Prop where
  entry : s.functions[g.id]? = some (some fn)
  resolves : fn.Resolves g
  lower : a ≤ g.id
  upper : g.id < b

theorem Walk.preorder {a b : Nat} (h : Walk ms fns s t) (hn : Numbered a ms b)
    (hsize : b ≤ s.functions.size) (hgs : Preorder (literals ms) gs) :
    ∃ fns', Preorder fns fns' ∧ List.Forall₂ (t.Keeps a b) fns' gs := by
  induction h generalizing a b gs with
  | nil hlike =>
    cases hgs
    exact ⟨[], .nil, .nil⟩
  | name hlike _ ih =>
    cases hn with
    | name _ hn =>
      refine ih hn ?_ hgs
      exact Nat.le_trans hsize (Nat.le_of_eq (congrArg _ hlike.functions.symm))
  | @literal g fn ms fns s s₁ s₂ s' hlike hbody hfn hrest ihbody ih =>
    cases hn with
    | @literal _ d _ _ _ hid hnbody hn =>
      change Preorder (g :: literals ms) gs at hgs
      cases hgs with
      | @cons _ _ inner rest hinner hrests =>
        have hle := hnbody.le
        have hle' := hn.le
        have hsize₁ : s₁.functions.size = s.functions.size := congrArg _ hlike.functions
        have hsize₂ : s₂.functions.size = s₁.functions.size := hbody.size.2
        have hsize₃ : (s₂.leave fn).functions.size = s₂.functions.size :=
          Array.size_setIfInBounds
        obtain ⟨inner', hinner', hkept⟩ := ihbody hnbody
          (show d ≤ s₁.functions.size by omega) hinner
        obtain ⟨rest', hrest', hkept'⟩ := ih hn (by omega) hrests
        have hself : (s₂.leave fn).functions[g.id]? = some (some fn) := by
          unfold State.leave
          rw [hfn.id]
          exact Array.getElem?_setIfInBounds_self_of_lt (by omega)
        refine ⟨fn :: (inner' ++ rest'), .cons hinner' hrest', .cons ?_ (List.rel_append ?_ ?_)⟩
        · exact ⟨(hrest.apart hn (.inl (by omega))).2.trans hself, hfn, by omega, by omega⟩
        · refine hkept.imp fun fn' g' hk => ?_
          have hlower := hk.lower
          have hupper := hk.upper
          exact ⟨(hrest.apart hn (.inl hupper)).2.trans
            ((hbody.leave_apart hfn (by omega)).2.trans hk.entry), hk.resolves, by omega, by omega⟩
        · refine hkept'.imp fun fn' g' hk => ?_
          have hlower := hk.lower
          exact ⟨hk.entry, hk.resolves, by omega, hk.upper⟩

end Resolve

/-! ## The tables of a unit -/

/-- The children of a record are the literals among the mentions. -/
theorem ScopeRecord.Lists.perm {r : ScopeRecord} {id : Nat} {ms : List Mention}
    (h : r.Lists id ms) : r.children.Perm ((literals ms).map FunctionNode.id) := by
  rw [h.children, h.hoisted, ← List.map_append]
  exact (List.filter_append_perm _ _).map _

theorem ScopeRecord.perm_of_lists {rs : List ScopeRecord} {gs : List FunctionNode}
    (h : List.Forall₂ (fun r g => r.Lists g.id g.mentions) rs gs) :
    (rs.flatMap children).Perm ((gs.flatMap (literals ·.mentions)).map FunctionNode.id) := by
  induction h with
  | nil => exact .refl _
  | cons hr _ ih =>
    rw [List.flatMap_cons, List.flatMap_cons, List.map_append]
    exact hr.perm.append ih

/-- The scope tree of the unit mirrors the program, whose functions from left to right are these. -/
structure CodeUnit.Mirrors (u : CodeUnit) (p : Program) (gs : List FunctionNode) : Prop where
  order : Preorder (literals p.mentions) gs
  numbers : gs.map FunctionNode.id = List.range' 1 (p.functionCount - 1)
  /-- The table of functions has those of the unit's own tree, in the same order. -/
  functions : ∃ fns, Preorder (literals u.program.mentions) fns ∧
    u.functions.toList = none :: fns.map some ∧ List.Forall₂ FunctionNode.Resolves fns gs
  entry : ∀ i fn, u.function? i = some fn → fn.id = i
  size : u.records.size = p.functionCount
  node : ∀ i r, u.record? i = some r → r.node = i
  /-- The record of a place lists the functions directly inside it, and binds only what the
  innermost function around the place declares. -/
  record : ∀ path, p.Nested path → ∃ r, u.record? (recordIn path) = some r ∧
    r.Lists (recordIn path) (p.mentionsIn path) ∧ ∀ x ∈ r.bindings, ∃ g ∈ path.head?, g.Declares x
  /-- Every function is a child of exactly one record, once. -/
  once : (u.records.toList.flatMap ScopeRecord.children).Perm
    (List.range' 1 (p.functionCount - 1))

theorem length_of_numbers {gs : List FunctionNode} {n : Nat}
    (hids : gs.map FunctionNode.id = List.range' 1 n) : gs.length = n := by
  simpa using congrArg List.length hids

/-- Numbered from one, every function has the number behind its index. -/
theorem id_getElem {gs : List FunctionNode} {n k : Nat}
    (hids : gs.map FunctionNode.id = List.range' 1 n) (hk : k < gs.length) : gs[k].id = k + 1 := by
  have hn := length_of_numbers hids
  have h : (gs.map FunctionNode.id)[k]? = (List.range' 1 n)[k]? := by rw [hids]
  rw [List.getElem?_map, List.getElem?_eq_getElem hk, List.getElem?_range' (hn ▸ hk)] at h
  have heq : gs[k].id = 1 + 1 * k := Option.some.inj h
  omega

namespace CodeUnit.MadeFrom

variable {u : CodeUnit} {p : Program} {outer : List String} {gs : List FunctionNode}

theorem functions (h : u.MadeFrom p outer) (hgs : Preorder (literals p.mentions) gs)
    (hids : gs.map FunctionNode.id = List.range' 1 (p.functionCount - 1)) :
    ∃ fns, Preorder (literals u.program.mentions) fns ∧
      u.functions.toList = none :: fns.map some ∧ List.Forall₂ FunctionNode.Resolves fns gs := by
  obtain ⟨s, fns, hwalk, hrenders, hfunctions, -⟩ := h.walk
  have hsize : s.functions.size = p.functionCount := hwalk.size.2.trans Array.size_replicate
  have hpos := h.numbered.le
  obtain ⟨fns', hfns, hkept⟩ := hwalk.preorder h.numbered
    (Nat.le_of_eq Array.size_replicate.symm) hgs
  obtain ⟨hlength, hget⟩ := List.forall₂_iff_get.mp hkept
  have hcount := length_of_numbers hids
  refine ⟨fns', hrenders.literals ▸ hfns, ?_, hkept.imp fun _ _ hk => hk.resolves⟩
  rw [hfunctions]
  refine List.ext_getElem? fun i => ?_
  rw [Array.getElem?_toList]
  cases i with
  | zero =>
    -- nothing was ever put under the number of the program itself
    have hsame := (hwalk.apart h.numbered (.inl Nat.zero_lt_one)).2
    rw [hsame]
    simp only [State.start, Array.getElem?_replicate, List.getElem?_cons_zero]
    exact if_pos hpos
  | succ k =>
    rw [List.getElem?_cons_succ, List.getElem?_map]
    by_cases hk : k < gs.length
    · have hentry := (hget k (hlength ▸ hk) hk).entry
      rw [List.get_eq_getElem, id_getElem hids hk] at hentry
      rw [hentry, List.getElem?_eq_getElem (hlength ▸ hk)]
      rfl
    · rw [Array.getElem?_eq_none (by omega), List.getElem?_eq_none (by omega)]
      rfl

theorem node (h : u.MadeFrom p outer) {i : Nat} {r : ScopeRecord} (hr : u.record? i = some r) :
    r.node = i := by
  obtain ⟨-, -, -, -, -, hsize, -⟩ := h.walk
  have hi : i < p.functionCount := hsize ▸ (Array.getElem?_eq_some_iff.mp hr).1
  rcases Nat.eq_zero_or_pos i with rfl | hpos
  · obtain ⟨r', hr', hlists, -⟩ := h.top
    cases hr.symm.trans hr'
    exact hlists.node
  · obtain ⟨g, hg, rfl⟩ := h.numbered.exists_within hpos hi
    obtain ⟨r', -, hr', -, hdesc, -⟩ := h.function hg
    cases hr.symm.trans hr'
    exact hdesc.lists.node

theorem record (h : u.MadeFrom p outer) {path : List FunctionNode} (hpath : p.Nested path) :
    ∃ r, u.record? (recordIn path) = some r ∧ r.Lists (recordIn path) (p.mentionsIn path) ∧
      ∀ x ∈ r.bindings, ∃ g ∈ path.head?, g.Declares x := by
  cases path with
  | nil =>
    obtain ⟨r, hr, hlists, hnone⟩ := h.top
    refine ⟨r, hr, hlists, fun x hx => ?_⟩
    rw [hnone] at hx
    cases hx
  | cons g path =>
    obtain ⟨r, -, hr, -, hdesc, -⟩ := h.function hpath.head
    exact ⟨r, hr, hdesc.lists, fun x hx => ⟨g, rfl, hdesc.declared x hx⟩⟩

/-- The records are the program's own and those of its functions in order. -/
theorem records (h : u.MadeFrom p outer) (hgs : Preorder (literals p.mentions) gs)
    (hids : gs.map FunctionNode.id = List.range' 1 (p.functionCount - 1)) :
    ∃ r rs, u.records.toList = r :: rs ∧ r.Lists 0 p.mentions ∧
      List.Forall₂ (fun r g => r.Lists g.id g.mentions) rs gs := by
  obtain ⟨-, -, -, -, -, hsize, -⟩ := h.walk
  have hcount := length_of_numbers hids
  have hpos := h.numbered.le
  obtain ⟨r, hr, hlists, -⟩ := h.top
  have hr : u.records.toList[0]? = some r := Array.getElem?_toList.trans hr
  cases hlist : u.records.toList with
  | nil =>
    rw [hlist] at hr
    cases hr
  | cons r' rs =>
    rw [hlist] at hr
    cases hr
    have hlength : rs.length + 1 = p.functionCount := by
      rw [← hsize, ← Array.length_toList, hlist, List.length_cons]
    refine ⟨r, rs, rfl, hlists, List.forall₂_iff_get.mpr ⟨by omega, fun k hk hk' => ?_⟩⟩
    have hwithin : Within p.mentions gs[k] :=
      hgs.within (fun f hf => mem_literals.mp hf) (List.getElem_mem hk')
    obtain ⟨r', -, hr', -, hdesc, -⟩ := h.function hwithin
    have hentry : u.record? gs[k].id = some rs[k] := by
      unfold record?
      rw [id_getElem hids hk', ← Array.getElem?_toList, hlist, List.getElem?_cons_succ,
        List.getElem?_eq_getElem hk]
    cases hentry.symm.trans hr'
    exact hdesc.lists

theorem once (h : u.MadeFrom p outer) (hgs : Preorder (literals p.mentions) gs)
    (hids : gs.map FunctionNode.id = List.range' 1 (p.functionCount - 1)) :
    (u.records.toList.flatMap ScopeRecord.children).Perm
      (List.range' 1 (p.functionCount - 1)) := by
  obtain ⟨r, rs, hlist, hr, hrs⟩ := h.records hgs hids
  rw [hlist, List.flatMap_cons, ← hids]
  refine (hr.perm.append (ScopeRecord.perm_of_lists hrs)).trans ?_
  rw [← List.map_append]
  exact hgs.perm.map _

/-- **The scope tree mirrors the program** that the unit was made from. -/
theorem mirrors (h : u.MadeFrom p outer) : ∃ gs, u.Mirrors p gs := by
  obtain ⟨gs, hgs, hids⟩ := h.numbered.preorder
  obtain ⟨-, -, -, -, -, hsize, -⟩ := h.walk
  exact ⟨gs, {
    order := hgs
    numbers := hids
    functions := h.functions hgs hids
    entry := fun _ _ hfn => by
      obtain ⟨g, -, hid, hres⟩ := h.literal_of_function? hfn
      exact hres.id.trans hid
    size := hsize
    node := fun _ _ hr => h.node hr
    record := fun _ hpath => h.record hpath
    once := h.once hgs hids }⟩

end CodeUnit.MadeFrom

/-- **The scope tree of every compiled unit mirrors its program.** Its functions have the numbers from
one up in the order in which they start, the tables have each under its number, and each is listed
once, by the function directly around it, the declarations before the expressions. -/
theorem CodeUnit.compile_mirrors {source : String} {outer : List String} {u : CodeUnit}
    (h : CodeUnit.compile source outer = .ok u) :
    ∃ p gs, Grammar.parse source = .ok p ∧ u.Mirrors p gs := by
  obtain ⟨p, hparse, hprogram⟩ := compile_ok h
  obtain ⟨r, -, hu⟩ := ofProgram_ok hprogram
  have hsource : source = u.source := by rw [hu]
  subst hsource
  have hmade : u.MadeFrom p outer := ⟨hparse, hprogram⟩
  obtain ⟨gs, hgs⟩ := hmade.mirrors
  exact ⟨p, gs, hparse, hgs⟩

/-- A function expression inside a declaration. -/
theorem CodeUnit.compile_mirrors_nested :
    ∃ u p gs, CodeUnit.compile "function f(a) { return function () { a } }" ["b"] = .ok u ∧
      Grammar.parse "function f(a) { return function () { a } }" = .ok p ∧ u.Mirrors p gs ∧
      gs.map FunctionNode.id = [1, 2] := by
  have hok : ∀ c : Except CompileError CodeUnit, c.toOption.map (·.records.size) = some 3 →
      ∃ u, c = .ok u ∧ u.records.size = 3 := by
    intro c hc
    cases c with
    | error => cases hc
    | ok u => exact ⟨u, rfl, Option.some.inj hc⟩
  obtain ⟨u, hu, hsize⟩ := hok (CodeUnit.compile "function f(a) { return function () { a } }"
    ["b"]) (by decide +kernel)
  obtain ⟨p, gs, hparse, hmirrors⟩ := CodeUnit.compile_mirrors hu
  refine ⟨u, p, gs, hu, hparse, hmirrors, ?_⟩
  rw [hmirrors.numbers, ← hmirrors.size, hsize]
  rfl

end Fermata
