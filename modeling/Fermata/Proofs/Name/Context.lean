import Fermata.Code.Resolve
import Fermata.Proofs.Name.Mention

/-!
# Contexts of the pass

A context of the pass stands for a function whose body is gone through. It begins with the names that
the function declares, and grows: names are referred to, literals are added, and `arguments` is
declared when it is met.

* `Resolve.Context.mem_ofFunction`: what a function declares.
* `Resolve.Referred`: the nearest function that declares a name refers to it.
* `Resolve.Context.Grows`: what becomes of a context.
-/

namespace Fermata

theorem mem_addName {names : List String} {name x : String} :
    x ∈ addName names name ↔ x ∈ names ∨ x = name := by
  unfold addName
  split
  next h =>
    refine ⟨.inl, ?_⟩
    rintro (hx | rfl)
    · exact hx
    · exact List.contains_iff_mem.mp h
  next => rw [List.mem_append, List.mem_singleton]

theorem nodup_addName {names : List String} {name : String} (h : names.Nodup) :
    (addName names name).Nodup := by
  unfold addName
  split
  next => exact h
  next hnew =>
    refine List.nodup_append.mpr ⟨h, by simp, fun x hx y hy => ?_⟩
    rintro rfl
    exact hnew (List.contains_iff_mem.mpr (List.mem_singleton.mp hy ▸ hx))

/-! ## Declarations -/

namespace Declarations

/-- The names of both kinds. -/
def Has (d : Declarations) (x : String) : Prop := x ∈ d.vars ∨ x ∈ d.functions

theorem mem_foldl_addName {ds : List VarDecl} {vs : List String} {x : String} :
    x ∈ ds.foldl (fun vs v => addName vs v.name) vs ↔ x ∈ vs ∨ x ∈ ds.map VarDecl.name := by
  induction ds generalizing vs with
  | nil => simp
  | cons v ds ih => rw [List.foldl_cons, ih, mem_addName, List.map_cons, List.mem_cons, or_assoc]

theorem has_addVars {d : Declarations} {ds : List VarDecl} {x : String} :
    (d.addVars ds).Has x ↔ d.Has x ∨ x ∈ ds.map VarDecl.name := by
  unfold Has addVars
  dsimp only
  rw [mem_foldl_addName, or_right_comm]

mutual

/-- **Collecting finds what a statement hoists.** -/
theorem has_ofStmt {d : Declarations} {x : String} : (t : Stmt) →
    ((ofStmt d t).Has x ↔ d.Has x ∨ t.Hoists x)
  | .declare s ds => by
    rw [ofStmt, has_addVars, Stmt.hoists_iff]
    simp [Stmt.declared, Stmt.inner]
  | .function s fn => by
    rw [ofStmt, Stmt.hoists_iff]
    cases hn : fn.name with
    | none => simp [Stmt.declared, Stmt.inner, hn]
    | some name =>
      simp only [Has, mem_addName, Stmt.declared, Stmt.inner, hn, Option.toList_some,
        List.mem_singleton, List.not_mem_nil, false_and, exists_false, or_false, or_assoc]
  | .cond s test yes no => by
    rw [ofStmt, has_ofOption no, has_ofStmt yes, Stmt.hoists_iff (t := .cond s test yes no)]
    simp [Stmt.declared, Stmt.inner, or_assoc]
  | .whileLoop s test body => by
    rw [ofStmt, has_ofStmt body, Stmt.hoists_iff (t := .whileLoop s test body)]
    simp [Stmt.declared, Stmt.inner]
  | .doLoop s body test => by
    rw [ofStmt, has_ofStmt body, Stmt.hoists_iff (t := .doLoop s body test)]
    simp [Stmt.declared, Stmt.inner]
  | .labeled s label body => by
    rw [ofStmt, has_ofStmt body, Stmt.hoists_iff (t := .labeled s label body)]
    simp [Stmt.declared, Stmt.inner]
  | .forLoop s (some (.declare ds)) test update body => by
    rw [ofStmt, has_ofStmt body, has_addVars, Stmt.hoists_iff (t := .forLoop ..)]
    simp [Stmt.declared, Stmt.inner, or_assoc]
  | .forLoop s none test update body | .forLoop s (some (.expression _)) test update body => by
    rw [ofStmt, has_ofStmt body, Stmt.hoists_iff (t := .forLoop ..)]
    · simp [Stmt.declared, Stmt.inner]
    · nofun
  | .forEach s kind (.declare span name) source body => by
    rw [ofStmt, has_ofStmt body, Stmt.hoists_iff (t := .forEach ..)]
    simp only [Has, mem_addName, Stmt.declared, Stmt.inner, List.mem_singleton, exists_eq_left]
    rw [or_right_comm (b := x = name), or_assoc]
  | .forEach s kind (.expression e) source body => by
    rw [ofStmt, has_ofStmt body, Stmt.hoists_iff (t := .forEach ..)]
    simp [Stmt.declared, Stmt.inner]
  | .guarded s body handler finalizer => by
    rw [ofStmt, has_ofOption finalizer, has_ofHandler handler, has_ofStmt body,
      Stmt.hoists_iff (t := .guarded s body handler finalizer)]
    cases handler <;> simp [Stmt.declared, Stmt.inner, or_assoc]
  | .block s body => by
    rw [ofStmt, has_ofList body, Stmt.hoists_iff (t := .block s body)]
    simp [Stmt.declared, Stmt.inner]
  | .expression .. | .ret .. | .leave .. | .next .. | .raise .. | .empty .. => by
    rw [ofStmt, Stmt.hoists_iff]
    · simp [Stmt.declared, Stmt.inner]
    all_goals nofun

theorem has_ofOption {d : Declarations} {x : String} : (t : Option Stmt) →
    ((ofOption d t).Has x ↔ d.Has x ∨ ∃ t' ∈ t, t'.Hoists x)
  | none => by simp [ofOption]
  | some t => by
    rw [ofOption, has_ofStmt t]
    simp

theorem has_ofHandler {d : Declarations} {x : String} : (h : Option CatchClause) →
    ((ofHandler d h).Has x ↔ d.Has x ∨ ∃ c ∈ h, c.body.Hoists x)
  | none => by simp [ofHandler]
  | some ⟨_, body⟩ => by
    rw [ofHandler, has_ofStmt body]
    simp

theorem has_ofList {d : Declarations} {x : String} : (ts : List Stmt) →
    ((ofList d ts).Has x ↔ d.Has x ∨ ∃ t ∈ ts, t.Hoists x)
  | [] => by simp [ofList]
  | t :: ts => by
    rw [ofList, has_ofList ts, has_ofStmt t]
    simp [or_assoc]

end

end Declarations

namespace Resolve

namespace Context

theorem declare_foldl (ns : List String) (ctx : Context) :
    ns.foldl declare ctx = { ctx with declared := ns.foldl addName ctx.declared } := by
  induction ns generalizing ctx with
  | nil => rfl
  | cons n ns ih =>
    rw [List.foldl_cons, ih]
    rfl

theorem mem_foldl_addName {ns vs : List String} {x : String} :
    x ∈ ns.foldl addName vs ↔ x ∈ vs ∨ x ∈ ns := by
  induction ns generalizing vs with
  | nil => simp
  | cons n ns ih => rw [List.foldl_cons, ih, mem_addName, List.mem_cons, or_assoc]

theorem nodup_foldl_addName {ns vs : List String} (h : vs.Nodup) : (ns.foldl addName vs).Nodup := by
  induction ns generalizing vs with
  | nil => exact h
  | cons n ns ih => exact ih (nodup_addName h)

/-- A context begins with names that are all different. -/
theorem nodup_ofFunction (fn : FunctionNode) : (ofFunction fn).declared.Nodup := by
  unfold ofFunction
  dsimp only
  rw [declare_foldl]
  split
  · split
    · exact nodup_foldl_addName List.nodup_nil
    · exact nodup_addName (nodup_foldl_addName List.nodup_nil)
  · exact nodup_foldl_addName List.nodup_nil

/-- A context begins with nothing but declared names. -/
theorem ofFunction_eq (fn : FunctionNode) : ∃ declared selfName,
    ofFunction fn = { id := fn.id, isRoot := false, declared, selfName } := by
  unfold ofFunction
  dsimp only
  rw [declare_foldl]
  split
  · split <;> exact ⟨_, _, rfl⟩
  · exact ⟨_, _, rfl⟩

/-- **A context begins with the names that its function declares**, `arguments` aside. -/
theorem mem_ofFunction {fn : FunctionNode} {x : String} : x ∈ (ofFunction fn).declared ↔
    x ∈ fn.params ∨ (∃ t ∈ fn.body, t.Hoists x) ∨ (fn.isDeclaration = false ∧ fn.name = some x) := by
  have hbody : (Declarations.ofList {} fn.body).Has x ↔ ∃ t ∈ fn.body, t.Hoists x := by
    rw [Declarations.has_ofList]
    simp [Declarations.Has]
  have hown : x ∈ ((fn.params ++ (Declarations.ofList {} fn.body).functions ++
      (Declarations.ofList {} fn.body).vars).foldl addName []) ↔
        x ∈ fn.params ∨ ∃ t ∈ fn.body, t.Hoists x := by
    rw [mem_foldl_addName, ← hbody]
    simp only [List.not_mem_nil, false_or, List.mem_append, Declarations.Has, or_assoc]
    rw [or_comm (a := x ∈ (Declarations.ofList {} fn.body).functions)]
  unfold ofFunction
  dsimp only
  rw [declare_foldl]
  cases hdecl : fn.isDeclaration with
  | true => simpa using hown
  | false =>
    cases hname : fn.name with
    | none => simpa using hown
    | some name =>
      dsimp only
      split
      next hhas =>
        rw [← or_assoc, ← hown]
        refine ⟨.inl, ?_⟩
        rintro (hx | ⟨-, hx⟩)
        · exact hx
        · cases hx
          exact List.contains_iff_mem.mp hhas
      next =>
        rw [← or_assoc, ← hown]
        simp only [declare, mem_addName, true_and, Option.some.injEq, eq_comm]

end Context

/-! ## Growing contexts -/

/-- What these mentions make of the context of the function around them. -/
structure Context.Grows (ms : List Mention) (c c' : Context) : Prop where
  id : c'.id = c.id
  isRoot : c'.isRoot = c.isRoot
  declared : ∀ x, x ∈ c'.declared ↔
    x ∈ c.declared ∨ (x = argumentsName ∧ c.isRoot = false ∧ .name x ∈ ms)
  referenced : ∀ x ∈ c.referenced, x ∈ c'.referenced
  /-- What is declared late is referred to at once. -/
  late : ∀ x ∈ c'.declared, x ∈ c.declared ∨ x ∈ c'.referenced
  distinct : c.declared.Nodup → c'.declared.Nodup
  hoisted : c'.hoisted = c.hoisted ++ (Mention.declarations ms).map FunctionNode.id
  literals : c'.literals = c.literals ++ (Mention.expressions ms).map FunctionNode.id

/-- What mentions make of the contexts around them: those farther out are only referred to. -/
def Grown : List Mention → List Context → List Context → Prop
  | _, [], [] => True
  | ms, c :: cs, c' :: cs' => c.Grows ms c' ∧ Grown [] cs cs'
  | _, _, _ => False

/-- The nearest function that declares the name refers to it. -/
def Referred (x : String) : List Context → Prop
  | [] => True
  | c :: cs => c.isRoot = true ∨ (x ∈ c.declared ∧ x ∈ c.referenced) ∨ (x ∉ c.declared ∧ Referred x cs)

variable {ms ns : List Mention} {c c' c'' : Context} {cs ds es : List Context} {x : String}

/-- A change of what no mention is about. -/
theorem Context.Grows.aside (hid : c'.id = c.id) (hroot : c'.isRoot = c.isRoot)
    (hdeclared : c'.declared = c.declared) (hreferenced : c'.referenced = c.referenced)
    (hhoisted : c'.hoisted = c.hoisted) (hliterals : c'.literals = c.literals) : c.Grows [] c' where
  id := hid
  isRoot := hroot
  declared x := by simp [hdeclared]
  referenced x hx := hreferenced ▸ hx
  late x hx := .inl (hdeclared ▸ hx)
  distinct h := hdeclared ▸ h
  hoisted := by simp [hhoisted, Mention.declarations, Mention.literals]
  literals := by simp [hliterals, Mention.expressions, Mention.literals]

theorem Context.Grows.refl (c : Context) : c.Grows [] c := .aside rfl rfl rfl rfl rfl rfl

theorem Context.Grows.trans (h : c.Grows ms c') (h' : c'.Grows ns c'') :
    c.Grows (ms ++ ns) c'' where
  id := h'.id.trans h.id
  isRoot := h'.isRoot.trans h.isRoot
  declared x := by
    rw [h'.declared, h.declared, h.isRoot, List.mem_append, or_assoc, ← and_or_left, ← and_or_left]
  referenced x hx := h'.referenced x (h.referenced x hx)
  late x hx := by
    rcases h'.late x hx with hx | hx
    · rcases h.late x hx with hx | hx
      · exact .inl hx
      · exact .inr (h'.referenced x hx)
    · exact .inr hx
  distinct hc := h'.distinct (h.distinct hc)
  hoisted := by
    rw [h'.hoisted, h.hoisted, Mention.declarations_append, List.map_append, List.append_assoc]
  literals := by
    rw [h'.literals, h.literals, Mention.expressions_append, List.map_append, List.append_assoc]

theorem Grown.refl (cs : List Context) : Grown [] cs cs := by
  induction cs with
  | nil => trivial
  | cons c cs ih => exact ⟨.refl c, ih⟩

theorem Grown.trans (h : Grown ms cs ds) (h' : Grown ns ds es) : Grown (ms ++ ns) cs es := by
  induction cs generalizing ms ns ds es with
  | nil =>
    cases ds with
    | nil =>
      cases es with
      | nil => trivial
      | cons => exact h'.elim
    | cons => exact h.elim
  | cons c cs ih =>
    cases ds with
    | nil => exact h.elim
    | cons d ds =>
      cases es with
      | nil => exact h'.elim
      | cons e es => exact ⟨h.1.trans h'.1, ih h.2 h'.2⟩

/-- Being referred to is not lost. -/
theorem Referred.grown (h : Grown ms cs ds) (hx : Referred x cs) : Referred x ds := by
  induction cs generalizing ms ds with
  | nil =>
    cases ds with
    | nil => trivial
    | cons => exact h.elim
  | cons c cs ih =>
    cases ds with
    | nil => exact h.elim
    | cons d ds =>
      obtain ⟨hc, hcs⟩ := h
      rcases hx with hroot | ⟨hd, hr⟩ | ⟨hd, hrest⟩
      · exact .inl (hc.isRoot.trans hroot)
      · exact .inr (.inl ⟨(hc.declared x).mpr (.inl hd), hc.referenced x hr⟩)
      · by_cases hd' : x ∈ d.declared
        · rcases hc.late x hd' with hold | hr
          · exact absurd hold hd
          · exact .inr (.inl ⟨hd', hr⟩)
        · exact .inr (.inr ⟨hd', ih hcs hrest⟩)

/-! ## References -/

theorem Context.grows_refer (ctx : Context) (x : String) : ctx.Grows [] (ctx.refer x) :=
  { Context.Grows.refl ctx with
    referenced := fun _ hy => mem_addName.mpr (.inl hy)
    late := fun _ hy => .inl hy }

theorem referIn_grown {cs ds : List Context} (h : referIn x cs = some ds) :
    Grown [] cs ds ∧ Referred x ds := by
  induction cs generalizing ds with
  | nil => cases h
  | cons c cs ih =>
    unfold referIn at h
    split at h
    · cases h
    · split at h
      next hdecl =>
        cases h
        exact ⟨⟨c.grows_refer x, .refl cs⟩,
          .inr (.inl ⟨List.contains_iff_mem.mp hdecl, mem_addName.mpr (.inr rfl)⟩)⟩
      next hdecl =>
        obtain ⟨ds, hds, rfl⟩ := Option.map_eq_some_iff.mp h
        obtain ⟨hgrown, href⟩ := ih hds
        exact ⟨⟨.refl c, hgrown⟩, .inr (.inr ⟨fun hx => hdecl (List.contains_iff_mem.mpr hx), href⟩)⟩

theorem referred_of_referIn_none {cs : List Context} (h : referIn x cs = none) : Referred x cs := by
  induction cs with
  | nil => trivial
  | cons c cs ih =>
    unfold referIn at h
    split at h
    next hroot => exact .inl hroot
    next =>
      split at h
      · cases h
      next hdecl =>
        exact .inr (.inr ⟨fun hx => hdecl (List.contains_iff_mem.mpr hx),
          ih (Option.map_eq_none_iff.mp h)⟩)

/-- A name that is not declared by being used only adds a reference. -/
theorem Context.Grows.of_name (h : c.Grows [] c') (hx : ¬(x = argumentsName ∧ c.isRoot = false)) :
    c.Grows [.name x] c' := by
  refine ⟨h.id, h.isRoot, fun y => ?_, h.referenced, h.late, h.distinct, h.hoisted, h.literals⟩
  rw [h.declared]
  refine or_congr_right ⟨fun hy => absurd hy.2.2 List.not_mem_nil, ?_⟩
  rintro ⟨rfl, hroot, hy⟩
  cases List.mem_singleton.mp hy
  exact absurd ⟨rfl, hroot⟩ hx

/-- `arguments` is declared where it is used. -/
theorem Context.grows_arguments (hroot : c.isRoot = false) :
    c.Grows [.name argumentsName] ((c.declare argumentsName).refer argumentsName) := by
  refine ⟨rfl, rfl, fun y => ?_, fun y hy => mem_addName.mpr (.inl hy), fun y hy => ?_,
    nodup_addName, ?_, ?_⟩
  · simp only [refer, declare, mem_addName, List.mem_singleton, Mention.name.injEq, hroot]
    exact or_congr_right ⟨fun hy => ⟨hy, trivial, hy⟩, And.left⟩
  · exact (mem_addName.mp hy).imp_right fun hy => mem_addName.mpr (.inr hy)
  · simp [refer, declare, Mention.declarations, Mention.literals]
  · simp [refer, declare, Mention.expressions, Mention.literals]

/-- **A mention is a reference** in the nearest function that declares the name. -/
theorem referStack_grown (x : String) (cs : List Context) :
    Grown [.name x] cs (referStack x cs).1 ∧ Referred x (referStack x cs).1 := by
  cases cs with
  | nil => exact ⟨trivial, trivial⟩
  | cons c cs =>
    unfold referStack
    dsimp only
    split
    next hx =>
      obtain ⟨rfl, hroot⟩ := hx
      exact ⟨⟨Context.grows_arguments hroot, .refl cs⟩,
        .inr (.inl ⟨mem_addName.mpr (.inr rfl), mem_addName.mpr (.inr rfl)⟩)⟩
    next hx =>
      cases h : referIn x (c :: cs) with
      | none =>
        exact ⟨⟨(Context.Grows.refl c).of_name hx, .refl cs⟩, referred_of_referIn_none h⟩
      | some ds =>
        obtain ⟨hgrown, href⟩ := referIn_grown h
        cases ds with
        | nil => exact hgrown.elim
        | cons d ds => exact ⟨⟨hgrown.1.of_name hx, hgrown.2⟩, href⟩

/-- At the top level nothing is referred to. -/
theorem referStack_root (hroot : c.isRoot = true) :
    (referStack x (c :: cs)).1 = c :: cs := by
  have hnone : referIn x (c :: cs) = none := if_pos hroot
  simp only [referStack, hroot, hnone, Bool.true_eq_false, and_false, if_false]

end Resolve

end Fermata
