import Fermata.Proofs.Grammar.Statement

/-!
# The tables of a unit

A unit that was compiled from a source has a function and a record for every literal of the source,
under the literal's number, and for nothing else. So a number of its tables is a place of the program.

* `CodeUnit.MadeFrom`: a unit with the program that it was made from.
* `CodeUnit.MadeFrom.function`, `CodeUnit.MadeFrom.top`: the tables of a unit have every place.
* `CodeUnit.MadeFrom.literal_of_function?`: every function of the tables is a literal.
* `CodeUnit.Mentions`: what the code of a place mentions.
-/

namespace Fermata

open Resolve

/-! ## Places -/

theorem Program.Nested.within {p : Program} {path : List FunctionNode} (h : p.Nested path) :
    ∀ g, Within (p.mentionsIn path) g → Within p.mentions g := by
  induction h with
  | top => exact fun _ hg => hg
  | inside _ hg ih => exact fun f hf => ih f (.inner hg hf)

/-- The literal itself is in the program. -/
theorem Program.Nested.head {p : Program} {path : List FunctionNode} {g : FunctionNode}
    (h : p.Nested (g :: path)) : Within p.mentions g := by
  cases h with
  | inside hpath hg => exact hpath.within g (.here hg)

/-- A literal that stands inside others is nested in them. -/
theorem Program.Nested.of_within {p : Program} {path : List FunctionNode} {g : FunctionNode}
    {ms : List Mention} (hg : Within ms g) (h : p.Nested path) (hms : ms = p.mentionsIn path) :
    ∃ path', p.Nested (g :: path') := by
  induction hg generalizing path with
  | here hg =>
    subst hms
    exact ⟨path, .inside h hg⟩
  | @inner ms f g hf _ ih =>
    subst hms
    exact ih (.inside h hf) rfl

namespace Numbered

variable {a b : Nat} {ms : List Mention}

/-- Every number between the bounds is that of a literal. -/
theorem exists_within (h : Numbered a ms b) {i : Nat} (ha : a ≤ i) (hb : i < b) :
    ∃ g, Within ms g ∧ g.id = i := by
  induction h with
  | nil => omega
  | name _ _ ih =>
    obtain ⟨g, hg, hid⟩ := ih ha hb
    exact ⟨g, hg.weaken fun _ hm => List.mem_cons_of_mem _ hm, hid⟩
  | @literal a c b h ms hid hbody hrest ihbody ih =>
    by_cases hi : i = a
    · exact ⟨h, .here List.mem_cons_self, hid.trans hi.symm⟩
    · by_cases hc : i < c
      · obtain ⟨g, hg, hgid⟩ := ihbody (by omega) hc
        exact ⟨g, .inner List.mem_cons_self hg, hgid⟩
      · obtain ⟨g, hg, hgid⟩ := ih (by omega) hb
        exact ⟨g, hg.weaken fun _ hm => List.mem_cons_of_mem _ hm, hgid⟩

end Numbered

/-! ## Units -/

/-- The unit was made from the source that it carries, for a place where these names are bound. -/
structure CodeUnit.MadeFrom (u : CodeUnit) (p : Program) (outer : List String) : Prop where
  tree : Grammar.parse u.source = .ok p
  program : CodeUnit.ofProgram u.source p outer = .ok u

/-- The unit is one that the compiler gives. -/
def CodeUnit.Compiled (u : CodeUnit) : Prop := ∃ source outer, CodeUnit.compile source outer = .ok u

theorem CodeUnit.madeFrom_compile {source : String} {outer : List String} {u : CodeUnit}
    (h : CodeUnit.compile source outer = .ok u) : ∃ p, u.MadeFrom p outer := by
  obtain ⟨p, hparse, hprogram⟩ := compile_ok h
  obtain ⟨r, -, rfl⟩ := ofProgram_ok hprogram
  exact ⟨p, hparse, hprogram⟩

theorem CodeUnit.Compiled.madeFrom {u : CodeUnit} (h : u.Compiled) : ∃ p outer, u.MadeFrom p outer := by
  obtain ⟨source, outer, h⟩ := h
  obtain ⟨p, hp⟩ := madeFrom_compile h
  exact ⟨p, outer, hp⟩

namespace CodeUnit.MadeFrom

variable {u : CodeUnit} {p : Program} {outer : List String}

/-- The literals of the program are numbered. -/
theorem numbered (h : u.MadeFrom p outer) : Numbered 1 p.mentions p.functionCount :=
  Grammar.parse_numbered h.tree

/-- What the pass left when it made the unit. -/
theorem walk (h : u.MadeFrom p outer) : ∃ s fns, Walk p.mentions fns (State.start p outer) s ∧
    Renders (Mention.ofStmts true u.program.body) p.mentions fns ∧ u.functions = s.functions ∧
      u.records.size = p.functionCount ∧
        ∀ (i : Nat) r, (s.allRecords p)[i]? = some (some r) → u.record? i = some r := by
  obtain ⟨r, hr, hu⟩ := ofProgram_ok h.program
  obtain ⟨s, records, hbody, hrecords, hlist, hfunctions⟩ := program_ok hr
  obtain ⟨fns, hwalk, hrenders⟩ := stmts_walks true p.body (State.start p outer) r.body s rfl hbody
  rw [hu]
  have hall := eq_map_of_allRecords hrecords
  refine ⟨s, fns, hwalk, hrenders, hfunctions, ?_, fun i r' hr' => ?_⟩
  · have hsize : (s.allRecords p).size = p.functionCount :=
      Array.size_setIfInBounds.trans (hwalk.size.1.trans Array.size_replicate)
    have hlength := congrArg List.length hall
    rw [Array.length_toList, List.length_map, hsize] at hlength
    dsimp only
    rw [hlist, List.size_toArray, hlength]
  · rw [← Array.getElem?_toList, hall, List.getElem?_map] at hr'
    obtain ⟨r'', hr'', heq⟩ := Option.map_eq_some_iff.mp hr'
    cases heq
    unfold record?
    dsimp only
    rw [hlist, List.getElem?_toArray]
    exact hr''

/-- **The tables of a unit have every function of its program.** -/
theorem function (h : u.MadeFrom p outer) {g : FunctionNode} (hg : Within p.mentions g) :
    ∃ r fn, u.record? g.id = some r ∧ u.function? g.id = some fn ∧ r.Describes g ∧ fn.Resolves g := by
  obtain ⟨s, fns, hwalk, -, hfunctions, -, hrecords⟩ := h.walk
  have hsize : p.functionCount ≤ (State.start p outer).records.size :=
    Nat.le_of_eq Array.size_replicate.symm
  have hsize' : p.functionCount ≤ (State.start p outer).functions.size :=
    Nat.le_of_eq Array.size_replicate.symm
  obtain ⟨r, fn, hr, hfn, hdesc, hres⟩ := hwalk.knows h.numbered hsize hsize' hg
  have hid := h.numbered.within hg
  refine ⟨r, fn, hrecords g.id r ?_, ?_, hdesc, hres⟩
  · unfold State.allRecords
    rw [Array.getElem?_setIfInBounds_ne (by omega)]
    exact hr
  · unfold function?
    rw [hfunctions, hfn]
    rfl

/-- The record of the program itself lists the literals of the top level and binds nothing. -/
theorem top (h : u.MadeFrom p outer) : ∃ r, u.record? 0 = some r ∧ r.Lists 0 p.mentions ∧
    r.bindings = [] := by
  obtain ⟨s, fns, hwalk, -, -, -, hrecords⟩ := h.walk
  have hsize : s.records.size = p.functionCount := hwalk.size.1.trans Array.size_replicate
  have hpos := h.numbered.le
  have htop : Context.Grows p.mentions { id := 0, isRoot := true } s.top := by
    have hgrown := hwalk.grown
    unfold State.top
    cases hstack : s.stack with
    | nil =>
      rw [hstack] at hgrown
      exact hgrown.elim
    | cons c cs =>
      rw [hstack] at hgrown
      exact hgrown.1
  refine ⟨s.top.toRecord programName [] p.span, hrecords 0 _ ?_,
    htop.lists rfl rfl List.nodup_nil programName [] p.span, ?_⟩
  · exact Array.getElem?_setIfInBounds_self_of_lt (by omega)
  · -- the program itself declares nothing
    have hnone : s.top.declared = [] := List.eq_nil_iff_forall_not_mem.mpr fun x hx => by
      simpa using (htop.declared x).mp hx
    unfold Context.toRecord
    rw [hnone, List.filter_nil]

/-- **The record of a place** lists the literals that stand there. -/
theorem place (h : u.MadeFrom p outer) {path : List FunctionNode} (hpath : p.Nested path) :
    ∃ r, u.record? (recordIn path) = some r ∧
      (∀ n, n ∈ r.children ↔ ∃ g, .literal g ∈ p.mentionsIn path ∧ g.id = n) ∧
      ∀ n ∈ r.hoisted, n ∈ r.children := by
  cases path with
  | nil =>
    obtain ⟨r, hr, hlists, -⟩ := h.top
    exact ⟨r, hr, hlists.mem_children, hlists.mem_hoisted⟩
  | cons g path =>
    obtain ⟨r, -, hr, -, hdesc, -⟩ := h.function hpath.head
    exact ⟨r, hr, hdesc.lists.mem_children, hdesc.lists.mem_hoisted⟩

/-- The tables of a unit have nothing but the functions of its program. -/
theorem literal_of_function? (h : u.MadeFrom p outer) {id : Nat} {fn : FunctionNode}
    (hfn : u.function? id = some fn) : ∃ g, Within p.mentions g ∧ g.id = id ∧ fn.Resolves g := by
  have hrange : 1 ≤ id ∧ id < p.functionCount := by
    obtain ⟨s, fns, hwalk, -, hfunctions, -⟩ := h.walk
    have hentry : s.functions[id]? = some (some fn) := by
      unfold function? at hfn
      rw [hfunctions] at hfn
      exact Option.join_eq_some_iff.mp hfn
    have hsize : s.functions.size = p.functionCount := hwalk.size.2.trans Array.size_replicate
    refine ⟨?_, hsize ▸ (Array.getElem?_eq_some_iff.mp hentry).1⟩
    -- nothing was ever put under the number of the program itself
    by_contra hid
    have hsame := (hwalk.apart h.numbered (i := id) (.inl (by omega))).2
    rw [hentry] at hsame
    have hnone := Array.mem_of_getElem? hsame.symm
    simp [State.start] at hnone
  obtain ⟨g, hg, hid⟩ := h.numbered.exists_within hrange.1 hrange.2
  obtain ⟨-, fn', -, hfn', -, hres⟩ := h.function hg
  rw [hid, hfn] at hfn'
  cases hfn'
  exact ⟨g, hg, hid, hres⟩

/-- The names of a unit's top level stem from its program. -/
theorem body (h : u.MadeFrom p outer) : Stems (Mention.ofStmts true u.program.body) p.mentions := by
  obtain ⟨s, fns, -, hrenders, -⟩ := h.walk
  exact hrenders.stems

end CodeUnit.MadeFrom

/-! ## Mentions of a place -/

theorem Stems.of_subset {ms ms' ns : List Mention} (h : Stems ms ns) (hsub : ∀ m ∈ ms', m ∈ ms) :
    Stems ms' ns :=
  ⟨fun x hx => h.name x (hsub _ hx), fun fn hfn => h.literal fn (hsub _ hfn)⟩

namespace CodeUnit

/-- The code of this record mentions it: it stems from the place with this number. -/
def Mentions (u : CodeUnit) (record : Nat) (m : Mention) : Prop :=
  ∀ p outer path, u.MadeFrom p outer → p.Nested path → recordIn path = record →
    Stems [m] (p.mentionsIn path)

variable {u : CodeUnit} {m : Mention}

/-- What the top level of a unit mentions. -/
theorem mentions_body (hm : m ∈ Mention.ofStmts true u.program.body) : u.Mentions 0 m := by
  intro p outer path hu hpath hrecord
  cases path with
  | nil => exact hu.body.of_subset fun m' hm' => List.mem_singleton.mp hm' ▸ hm
  | cons g path =>
    have hrange := hu.numbered.within hpath.head
    change g.id = 0 at hrecord
    omega

/-- What a function of a unit mentions. -/
theorem mentions_function {id : Nat} {fn : FunctionNode} (hfn : u.function? id = some fn)
    (hm : m ∈ Mention.ofStmts true fn.body) : u.Mentions id m := by
  intro p outer path hu hpath hrecord
  obtain ⟨g, hg, hid, -⟩ := hu.literal_of_function? hfn
  cases path with
  | nil =>
    have hrange := hu.numbered.within hg
    change 0 = id at hrecord
    omega
  | cons g' path =>
    obtain ⟨-, fn', -, hfn', -, hres⟩ := hu.function hpath.head
    change g'.id = id at hrecord
    rw [hrecord, hfn] at hfn'
    cases hfn'
    exact hres.names.of_subset fun m' hm' => List.mem_singleton.mp hm' ▸ hm

end CodeUnit

end Fermata
