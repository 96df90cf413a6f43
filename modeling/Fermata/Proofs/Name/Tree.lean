import Fermata.Proofs.Name.Walk
import Fermata.Text.Character

/-!
# The scope tree of a program

Literals that are numbered in source order keep apart in the tables of the pass, so the record of each
one says what its function declares, uses and contains.

* `Numbered`: names are names, and literals are numbered in order.
* `ScopeRecord.Describes`: what the record of a function says about it.
* `Resolve.Walk.knows`: after a walk the tables have every literal.
-/

namespace Fermata

/-- Names are names, and the literals, with those inside them, have the numbers from `a` up to but
without `b` in the order in which they start. -/
inductive Numbered : Nat → List Mention → Nat → Prop
  | nil {a} : Numbered a [] a
  | name {a b x ms} : isValidName x = true → Numbered a ms b → Numbered a (.name x :: ms) b
  | literal {a b c g ms} : g.id = a → Numbered (a + 1) g.mentions b → Numbered b ms c →
      Numbered a (.literal g :: ms) c

/-- The function stands among the mentions, or inside a literal that does. -/
inductive Within : List Mention → FunctionNode → Prop
  | here {ms g} : .literal g ∈ ms → Within ms g
  | inner {ms h g} : .literal h ∈ ms → Within h.mentions g → Within ms g

theorem Within.weaken {ms ns : List Mention} {g : FunctionNode} (h : Within ms g)
    (hsub : ∀ m ∈ ms, m ∈ ns) : Within ns g := by
  cases h with
  | here hg => exact .here (hsub _ hg)
  | inner hh hg => exact .inner (hsub _ hh) hg

theorem Within.cons {m : Mention} {ms : List Mention} {g : FunctionNode}
    (h : Within (m :: ms) g) : Within [m] g ∨ Within ms g := by
  cases h with
  | here hg =>
    rcases List.mem_cons.mp hg with rfl | hg
    · exact .inl (.here List.mem_cons_self)
    · exact .inr (.here hg)
  | inner hh hg =>
    rcases List.mem_cons.mp hh with rfl | hh
    · exact .inl (.inner List.mem_cons_self hg)
    · exact .inr (.inner hh hg)

theorem Within.name {x : String} {g : FunctionNode} (h : Within [.name x] g) : False := by
  cases h with
  | here hg => cases List.mem_singleton.mp hg
  | inner hh => cases List.mem_singleton.mp hh

theorem Within.literal {h g : FunctionNode} (hg : Within [.literal h] g) :
    g = h ∨ Within h.mentions g := by
  cases hg with
  | here hg =>
    cases List.mem_singleton.mp hg
    exact .inl rfl
  | inner hh hg =>
    cases List.mem_singleton.mp hh
    exact .inr hg

namespace Numbered

variable {a b c : Nat} {ms ns : List Mention}

theorem le (h : Numbered a ms b) : a ≤ b := by
  induction h with
  | nil => exact Nat.le_refl _
  | name _ _ ih => exact ih
  | literal _ _ _ ihbody ih => exact Nat.le_trans (Nat.le_of_succ_le ihbody) ih

theorem append (h : Numbered a ms b) (h' : Numbered b ns c) : Numbered a (ms ++ ns) c := by
  induction h with
  | nil => exact h'
  | name hx _ ih => exact .name hx (ih h')
  | literal hid hbody _ _ ih => exact .literal hid hbody (ih h')

theorem within (h : Numbered a ms b) {g : FunctionNode} (hg : Within ms g) : a ≤ g.id ∧ g.id < b := by
  induction h with
  | nil =>
    cases hg with
    | here hg => cases hg
    | inner hh => cases hh
  | name _ _ ih =>
    rcases hg.cons with hg | hg
    · exact hg.name.elim
    · exact ih hg
  | @literal a b c h ms hid hbody hrest ihbody ih =>
    have hle := hrest.le
    rcases hg.cons with hg | hg
    · rcases hg.literal with rfl | hg
      · have hle' := hbody.le
        omega
      · have hin := ihbody hg
        omega
    · have hin := ih hg
      have hle' := hbody.le
      omega

/-- Free names are names. -/
theorem valid (h : Numbered a ms b) {x : String} (hx : Free ms x) : isValidName x = true := by
  induction h with
  | nil =>
    cases hx with
    | name hx => cases hx
    | inner hg => cases hg
  | @name a b y ms hy _ ih =>
    cases hx with
    | name hx =>
      rcases List.mem_cons.mp hx with heq | hx
      · cases heq
        exact hy
      · exact ih (.name hx)
    | inner hg hfree hnot =>
      rcases List.mem_cons.mp hg with heq | hg
      · cases heq
      · exact ih (.inner hg hfree hnot)
  | literal _ _ _ ihbody ih =>
    cases hx with
    | name hx =>
      rcases List.mem_cons.mp hx with heq | hx
      · cases heq
      · exact ih (.name hx)
    | inner hg hfree hnot =>
      rcases List.mem_cons.mp hg with heq | hg
      · cases heq
        exact ihbody hfree
      · exact ih (.inner hg hfree hnot)

end Numbered

/-- The record has this number and lists the literals among these mentions, the declarations first;
what it binds and needs agrees with itself. -/
structure ScopeRecord.Lists (r : ScopeRecord) (id : Nat) (ms : List Mention) : Prop where
  node : r.node = id
  hoisted : r.hoisted = (Mention.declarations ms).map FunctionNode.id
  children : r.children = r.hoisted ++ (Mention.expressions ms).map FunctionNode.id
  distinct : r.bindings.Nodup
  own : ∀ x, r.selfBinding = some x → x ∈ r.bindings
  capture : r.requiresCapture = true ↔
    r.bindings ≠ [] ∨ r.children ≠ [] ∨ r.usesThis = true

namespace ScopeRecord.Lists

variable {r : ScopeRecord} {id : Nat} {ms : List Mention}

theorem mem_children (h : r.Lists id ms) (n : Nat) :
    n ∈ r.children ↔ ∃ g, .literal g ∈ ms ∧ g.id = n := by
  rw [h.children, h.hoisted]
  simp only [← Mention.mem_declarations_or, List.mem_append, List.mem_map, or_and_right, exists_or]

theorem mem_hoisted (h : r.Lists id ms) : ∀ n ∈ r.hoisted, n ∈ r.children :=
  fun _ hn => h.children ▸ List.mem_append_left _ hn

theorem needed (h : r.Lists id ms) (hneed : r.requiresCapture = false) :
    r.bindings = [] ∧ r.children = [] := by
  have hnot := mt h.capture.mpr (by simp [hneed])
  simp only [not_or, ne_eq, Decidable.not_not] at hnot
  exact ⟨hnot.1, hnot.2.1⟩

end ScopeRecord.Lists

/-- What the record of a function says about it. -/
structure ScopeRecord.Describes (r : ScopeRecord) (g : FunctionNode) : Prop where
  declared : ∀ x ∈ r.bindings, g.Declares x
  used : ∀ x, Free g.mentions x → g.Declares x → x ∈ r.bindings
  lists : r.Lists g.id g.mentions

namespace Resolve

variable {ms : List Mention} {fns : List FunctionNode} {s t : State} {g fn : FunctionNode}
  {x : String}

/-! ## Literals -/

/-- The contexts at the end of the body of a function. -/
theorem Walk.entered (h : Walk g.mentions fns (s.enter g) t) : t.stack = t.top :: t.stack.tail ∧
    (Context.ofFunction g).Grows g.mentions t.top ∧ Grown [] (addChild g s.stack) t.stack.tail := by
  have hgrown := h.grown
  unfold State.top
  cases hstack : t.stack with
  | nil =>
    rw [hstack] at hgrown
    exact hgrown.elim
  | cons c cs =>
    rw [hstack] at hgrown
    exact ⟨rfl, hgrown⟩

/-- At the end of a body all names are known. -/
theorem Context.Grows.declares {c : Context} (h : (Context.ofFunction g).Grows g.mentions c) :
    c.id = g.id ∧ c.isRoot = false ∧ ∀ x, x ∈ c.declared ↔ g.Declares x := by
  obtain ⟨declared, selfName, heq⟩ := Context.ofFunction_eq g
  have hroot : (Context.ofFunction g).isRoot = false := by rw [heq]
  refine ⟨h.id.trans (by rw [heq]), h.isRoot.trans hroot, fun x => ?_⟩
  rw [h.declared, Context.mem_ofFunction, hroot]
  simp only [FunctionNode.Declares, true_and, or_assoc]

/-- The record of a context that began without literals lists those that it grew by. -/
theorem Context.Grows.lists {c c' : Context} (h : c.Grows ms c') (hhoisted : c.hoisted = [])
    (hliterals : c.literals = []) (hdistinct : c.declared.Nodup) (name : String)
    (params : List String) (span : Span) : (c'.toRecord name params span).Lists c.id ms where
  node := h.id
  hoisted := h.hoisted.trans (by rw [hhoisted, List.nil_append])
  children := congrArg (c'.hoisted ++ ·) (h.literals.trans (by rw [hliterals, List.nil_append]))
  distinct := (h.distinct hdistinct).filter _
  own x hx := by
    have hmem := (Option.filter_eq_some_iff.mp hx).2
    exact List.contains_iff_mem.mp hmem
  capture := by
    simp [Context.toRecord, or_assoc]

/-- **Every free name is referred to** in the nearest function around that declares it. -/
theorem Walk.referred (h : Walk ms fns s t) (hx : Free ms x) : Referred x t.stack := by
  induction h with
  | nil =>
    cases hx with
    | name hx => cases hx
    | inner hg => cases hg
  | name _ hrest ih =>
    cases hx with
    | name hx =>
      rcases List.mem_cons.mp hx with heq | hx
      · cases heq
        exact (referStack_grown _ _).2.grown hrest.grown
      · exact ih (.name hx)
    | inner hg hfree hnot =>
      rcases List.mem_cons.mp hg with heq | hg
      · cases heq
      · exact ih (.inner hg hfree hnot)
  | @literal g fn ms fns s s₁ s₂ s' _ hbody _ hrest ihbody ih =>
    cases hx with
    | name hx =>
      rcases List.mem_cons.mp hx with heq | hx
      · cases heq
      · exact ih (.name hx)
    | inner hg hfree hnot =>
      rcases List.mem_cons.mp hg with heq | hg
      · cases heq
        -- the literal does not declare the name, so the reference was made farther out
        obtain ⟨hstack, hc, -⟩ := hbody.entered
        obtain ⟨-, hroot, hdecl⟩ := hc.declares
        have href := ihbody hfree
        rw [hstack] at href
        have hout : Referred x (s₂.leave fn).stack := by
          rcases href with h | ⟨h, -⟩ | ⟨-, h⟩
          · rw [hroot] at h
            cases h
          · exact absurd ((hdecl x).mp h) hnot
          · exact h
        exact hout.grown hrest.grown
      · exact ih (.inner hg hfree hnot)

/-- The record that is made at the end of a body. -/
theorem Walk.describes (h : Walk g.mentions fns (s.enter g) t) (name : String)
    (params : List String) (span : Span) : (t.top.toRecord name params span).Describes g := by
  obtain ⟨hstack, hc, -⟩ := h.entered
  obtain ⟨-, hroot, hdecl⟩ := hc.declares
  refine ⟨fun x hx => ?_, fun x hfree hx => ?_, ?_⟩
  · exact (hdecl x).mp (List.mem_filter.mp hx).1
  · have href := h.referred hfree
    rw [hstack] at href
    refine List.mem_filter.mpr ⟨(hdecl x).mpr hx, ?_⟩
    rcases href with h | ⟨-, h⟩ | ⟨h, -⟩
    · rw [hroot] at h
      cases h
    · simp [h]
    · exact absurd ((hdecl x).mpr hx) h
  · have hdistinct := Context.nodup_ofFunction g
    obtain ⟨declared, selfName, heq⟩ := Context.ofFunction_eq g
    rw [heq] at hc hdistinct
    exact hc.lists rfl rfl hdistinct name params span

/-! ## Tables -/

/-- The tables have the function. -/
def State.Knows (s : State) (g : FunctionNode) : Prop :=
  ∃ r fn, s.records[g.id]? = some (some r) ∧ s.functions[g.id]? = some (some fn) ∧ r.Describes g ∧
    fn.Resolves g

/-- Nothing changed in the tables at this number. -/
def State.Same (i : Nat) (s t : State) : Prop :=
  t.records[i]? = s.records[i]? ∧ t.functions[i]? = s.functions[i]?

theorem State.Knows.same (h : s.Knows g) (heq : State.Same g.id s t) : t.Knows g := by
  obtain ⟨r, fn, hr, hfn, hdesc, hres⟩ := h
  exact ⟨r, fn, heq.1.trans hr, heq.2.trans hfn, hdesc, hres⟩

/-- Behind a literal, the tables have changed at its number only. -/
theorem Walk.leave_apart (h : Walk g.mentions fns (s.enter g) t) (hfn : fn.Resolves g) {i : Nat}
    (hi : i ≠ g.id) : State.Same i t (t.leave fn) := by
  have hid := h.entered.2.1.declares.1
  unfold State.Same State.leave
  rw [hid, hfn.id]
  exact ⟨Array.getElem?_setIfInBounds_ne hi.symm, Array.getElem?_setIfInBounds_ne hi.symm⟩

/-- Behind a literal, the tables have it. -/
theorem Walk.leave_knows (h : Walk g.mentions fns (s.enter g) t) (hfn : fn.Resolves g)
    (hr : g.id < t.records.size) (hf : g.id < t.functions.size) : (t.leave fn).Knows g := by
  have hid := h.entered.2.1.declares.1
  have hdesc := h.describes (fn.name.getD ("anonymous_" ++ toString fn.id)) fn.params fn.span
  refine ⟨_, fn, ?_, ?_, hdesc, hfn⟩
  · unfold State.leave
    rw [hid]
    exact Array.getElem?_setIfInBounds_self_of_lt hr
  · unfold State.leave
    rw [hfn.id]
    exact Array.getElem?_setIfInBounds_self_of_lt hf

/-- A walk keeps the sizes of the tables. -/
theorem Walk.size (h : Walk ms fns s t) :
    t.records.size = s.records.size ∧ t.functions.size = s.functions.size := by
  induction h with
  | nil hlike => exact ⟨congrArg _ hlike.records, congrArg _ hlike.functions⟩
  | name hlike _ ih =>
    exact ⟨ih.1.trans (congrArg _ hlike.records), ih.2.trans (congrArg _ hlike.functions)⟩
  | literal hlike _ _ _ ihbody ih =>
    refine ⟨ih.1.trans ?_, ih.2.trans ?_⟩
    · exact Array.size_setIfInBounds.trans (ihbody.1.trans (congrArg _ hlike.records))
    · exact Array.size_setIfInBounds.trans (ihbody.2.trans (congrArg _ hlike.functions))

/-- A walk changes the tables at the numbers of its literals only. -/
theorem Walk.apart {a b : Nat} (h : Walk ms fns s t) (hn : Numbered a ms b) {i : Nat}
    (hi : i < a ∨ b ≤ i) : State.Same i s t := by
  induction h generalizing a b with
  | nil hlike => exact ⟨by rw [hlike.records], by rw [hlike.functions]⟩
  | @name x ms fns s s₁ s' hlike _ ih =>
    cases hn with
    | name _ hn =>
      have hrest := ih hn hi
      exact ⟨hrest.1.trans (by rw [← hlike.records]; rfl), hrest.2.trans (by rw [← hlike.functions]; rfl)⟩
  | @literal g fn ms fns s s₁ s₂ s' hlike hbody hfn _ ihbody ih =>
    cases hn with
    | literal hid hnbody hn =>
      have hle := hnbody.le
      have hle' := hn.le
      have hinner := ihbody hnbody (by omega)
      have hleave : State.Same i s₂ (s₂.leave fn) := hbody.leave_apart hfn (by omega)
      have hrest := ih hn (by omega)
      refine ⟨hrest.1.trans (hleave.1.trans (hinner.1.trans ?_)),
        hrest.2.trans (hleave.2.trans (hinner.2.trans ?_))⟩
      · rw [← hlike.records]
        rfl
      · rw [← hlike.functions]
        rfl

/-- **After a walk the tables have every literal**, those inside others included. -/
theorem Walk.knows {a b : Nat} (h : Walk ms fns s t) (hn : Numbered a ms b) (hr : b ≤ s.records.size)
    (hf : b ≤ s.functions.size) (hg : Within ms g) : t.Knows g := by
  induction h generalizing a b with
  | nil =>
    cases hg with
    | here hg => cases hg
    | inner hh => cases hh
  | name hlike _ ih =>
    cases hn with
    | name _ hn =>
      rcases hg.cons with hg | hg
      · exact hg.name.elim
      · refine ih hn ?_ ?_ hg
        · exact Nat.le_trans hr (Nat.le_of_eq (congrArg _ hlike.records.symm))
        · exact Nat.le_trans hf (Nat.le_of_eq (congrArg _ hlike.functions.symm))
  | @literal h fn ms fns s s₁ s₂ s' hlike hbody hfn hrest ihbody ih =>
    cases hn with
    | @literal _ d _ _ _ hid hnbody hn =>
      have hle := hnbody.le
      have hle' := hn.le
      have hr₁ : s₁.records.size = s.records.size := congrArg _ hlike.records
      have hf₁ : s₁.functions.size = s.functions.size := congrArg _ hlike.functions
      have hsize : s₂.records.size = s₁.records.size ∧ s₂.functions.size = s₁.functions.size :=
        hbody.size
      have hsize' : (s₂.leave fn).records.size = s₂.records.size ∧
          (s₂.leave fn).functions.size = s₂.functions.size :=
        ⟨Array.size_setIfInBounds, Array.size_setIfInBounds⟩
      rcases hg.cons with hg | hg
      · have hknown : (s₂.leave fn).Knows g ∧ g.id < d := by
          rcases hg.literal with rfl | hg
          · exact ⟨hbody.leave_knows hfn (by omega) (by omega), by omega⟩
          · have hrange := hnbody.within hg
            have hr' : d ≤ (s₁.enter h).records.size := by
              change d ≤ s₁.records.size
              omega
            have hf' : d ≤ (s₁.enter h).functions.size := by
              change d ≤ s₁.functions.size
              omega
            exact ⟨(ihbody hnbody hr' hf' hg).same (hbody.leave_apart hfn (by omega)), hrange.2⟩
        exact hknown.1.same (hrest.apart hn (.inl hknown.2))
      · exact ih hn (by omega) (by omega) hg

/-- Where all records are there, these are they. -/
theorem eq_map_of_allRecords {rs : List (Option ScopeRecord)} {records : List ScopeRecord} {n : Nat}
    (h : allRecords rs n = .ok records) : rs = records.map some := by
  induction rs generalizing records n with
  | nil =>
    cases h
    rfl
  | cons o rs ih =>
    cases o with
    | none => cases h
    | some o =>
      unfold allRecords at h
      cases hrest : allRecords rs (n + 1) with
      | error e =>
        rw [hrest] at h
        cases h
      | ok rest =>
        rw [hrest] at h
        cases h
        rw [ih hrest, List.map_cons]

end Resolve

end Fermata
