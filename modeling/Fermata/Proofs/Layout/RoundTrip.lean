import Fermata.Proofs.Json.Text
import Fermata.Proofs.Tree.Outline

/-!
# Reading back the layout of a tree

What `Layout` writes of a tree it reads as that tree (`Layout.reads_expr`, `Layout.reads_stmt` and their
siblings), given that the numbers in it fit the width at which they are kept. In between the tree may be
sorted, as it is when it went through text.

A reader goes into a tree as deep as its fuel allows. `Layout.Reads` therefore says of a reader that it
gives a part of a tree with whatever fuel is no less than the depth of what is written, and the proofs go
through a node in the way in which it is written: its parts are looked up by name, each is less deep than
the node (`Reads.part?`, `ReadsOption.maybe?`, `default?_flag`), and the kind and the span are those that the
node was given (`opened`).
-/

namespace Fermata

/-- The numbers of a span fit 64 bits. -/
def Span.Fits (s : Span) : Prop :=
  s.start.offset ≤ Layout.greatestOffset ∧ s.start.line ≤ Layout.greatestOffset ∧
    s.start.column ≤ Layout.greatestOffset ∧ s.stop.offset ≤ Layout.greatestOffset ∧
    s.stop.line ≤ Layout.greatestOffset ∧ s.stop.column ≤ Layout.greatestOffset

/-- What is marked can be written: the number of a function fits 32 bits, and a number literal reads
back from its text. -/
def Mark.Fits : Mark → Prop
  | .plain => True
  | .function id => id ≤ Layout.greatestId
  | .number x => (JsonNumber.double x).Survives

namespace Layout

/-- What an outline says of a node can be written. -/
structure Writable (s : Span) (m : Mark) : Prop where
  span : s.Fits
  mark : m.Fits

open Json (sorted member?_sorted lookup_cons depth_member depth_mem)

attribute [local simp] List.lookup_append expr stmt expr? stmt?

variable {α : Type} {ms : List (String × Json)} {name : String}

/-! ## Parts of a node -/

@[simp]
theorem reverse_spanPart (s : Span) : (spanPart s).reverse = spanPart s := by
  unfold spanPart
  split <;> rfl

@[simp]
theorem reverse_optionalPart (name : String) (o : Option Json) :
    (optionalPart name o).reverse = optionalPart name o := by
  cases o <;> rfl

@[simp]
theorem reverse_flagPart (name : String) (b : Bool) :
    (flagPart name b).reverse = flagPart name b := by
  cases b <;> rfl

@[simp]
theorem lookup_spanPart (s : Span) (name : String) :
    (spanPart s).lookup name =
      if name = "span" ∧ s.isBlank = false then some (.object (spanMembers s)) else none := by
  unfold spanPart
  cases s.isBlank with
  | true => simp
  | false => simp [lookup_cons]

@[simp]
theorem lookup_optionalPart (name : String) (o : Option Json) (m : String) :
    (optionalPart name o).lookup m = if m = name then o else none := by
  cases o with
  | none => simp [optionalPart]
  | some j => simp [optionalPart, lookup_cons]

@[simp]
theorem lookup_flagPart (name : String) (b : Bool) (m : String) :
    (flagPart name b).lookup m = if m = name ∧ b = true then some (.bool true) else none := by
  cases b with
  | false => simp [flagPart]
  | true => simp [flagPart, lookup_cons]

theorem part?_sorted (ms : List (String × Json)) (name : String) (read? : Json → Option α) :
    part? (sorted (.object ms)) name read? =
      (ms.reverse.lookup name).bind fun j => read? j.sorted := by
  unfold part?
  rw [member?_sorted]
  cases ms.reverse.lookup name <;> rfl

theorem default?_sorted (ms : List (String × Json)) (name : String) (d : α)
    (read? : Json → Option α) :
    default? (sorted (.object ms)) name d read? =
      match ms.reverse.lookup name with
      | none => some d
      | some j => read? j.sorted := by
  unfold default?
  rw [member?_sorted]
  cases ms.reverse.lookup name <;> rfl

/-- The reader gives this for the tree, if it may go deep enough. -/
def Reads (read? : Nat → Json → Option α) (j : Json) (a : α) : Prop :=
  ∀ n, j.sorted.depth ≤ n → read? n j.sorted = some a

theorem depth_pos (j : Json) : 0 < j.depth := by
  cases j <;> simp [Json.depth]

theorem nat?_ofNat {bound n : Nat} (h : n ≤ bound) : nat? bound (Json.ofNat n) = some n := by
  have hle : (n : Int) ≤ bound := Int.ofNat_le.mpr h
  simp [nat?, Json.ofNat, hle]

theorem span?_sorted {s : Span} (hs : s.Fits) : span? (sorted (.object (spanMembers s))) = some s := by
  obtain ⟨h1, h2, h3, h4, h5, h6⟩ := hs
  have hparts : parts? spanNames (sorted (.object (spanMembers s))) =
      some (sorted (.object (spanMembers s))) := rfl
  have hnat : ∀ n, sorted (Json.ofNat n) = Json.ofNat n := fun _ => rfl
  unfold span?
  rw [hparts]
  simp [part?_sorted, spanMembers, lookup_cons, hnat, nat?_ofNat, h1, h2, h3, h4, h5, h6]

theorem spanOf?_of_lookup {s : Span} (hs : s.Fits)
    (hms : ms.reverse.lookup "span" = (spanPart s).lookup "span") :
    spanOf? (sorted (.object ms)) = some s := by
  unfold spanOf?
  rw [default?_sorted, hms, lookup_spanPart]
  cases hb : s.isBlank with
  | true =>
    have hblank : s = {} := by simpa [Span.isBlank] using hb
    simp [hblank]
  | false => simpa using span?_sorted hs

theorem spanOf?_sorted {s : Span} (hs : s.Fits) (hms : ms.reverse.lookup "span" = none) :
    spanOf? (sorted (.object (ms ++ spanPart s))) = some s :=
  spanOf?_of_lookup hs (by
    rw [List.reverse_append, reverse_spanPart, List.lookup_append, hms, Option.or_none])

theorem maybe?_sorted (ms : List (String × Json)) (name : String) (read? : Json → Option α)
    (hnull : ∀ j, ms.reverse.lookup name = some j → j ≠ .null) :
    maybe? (sorted (.object ms)) name read? =
      match ms.reverse.lookup name with
      | none => some none
      | some j => (read? j.sorted).map some := by
  unfold maybe?
  rw [member?_sorted]
  cases hj : ms.reverse.lookup name with
  | none => rfl
  | some j =>
    have hne := hnull j hj
    cases j with
    | null => exact absurd rfl hne
    | _ => rfl

theorem Reads.part? {read? : Nat → Json → Option α} {j : Json} {a : α} (h : Reads read? j a)
    (name : String) (hj : ms.reverse.lookup name = some j) {n : Nat} (hn : (sorted (.object ms)).depth ≤ n + 1) :
    part? (sorted (.object ms)) name (read? n) = some a := by
  have hdepth := depth_member ((member?_sorted ms name).trans (congrArg (Option.map sorted) hj))
  rw [part?_sorted, hj]
  exact h n (by omega)

/-- The reader gives this for an optional member. -/
inductive ReadsOption (read? : Nat → Json → Option α) : Option Json → Option α → Prop
  | absent : ReadsOption read? none none
  | present {j : Json} {a : α} : Reads read? j a → j ≠ .null → ReadsOption read? (some j) (some a)

theorem ReadsOption.maybe? {read? : Nat → Json → Option α} {o : Option Json} {a : Option α}
    (h : ReadsOption read? o a) (name : String) (ho : ms.reverse.lookup name = o) {n : Nat}
    (hn : (sorted (.object ms)).depth ≤ n + 1) :
    maybe? (sorted (.object ms)) name (read? n) = some a := by
  cases h with
  | absent =>
    rw [maybe?_sorted ms name _ (by simp [ho]), ho]
  | @present j a h hne =>
    have hdepth := depth_member ((member?_sorted ms name).trans (congrArg (Option.map sorted) ho))
    rw [maybe?_sorted ms name _ (by simpa [ho] using hne), ho]
    simp only [h n (by omega), Option.map_some]

theorem default?_flag {b : Bool}
    (hb : ms.reverse.lookup name = if b = true then some (.bool true) else none) :
    default? (sorted (.object ms)) name false bool? = some b := by
  rw [default?_sorted, hb]
  cases b <;> rfl

/-! ## What is read the same way whatever the depth -/

theorem reads_string (s : String) : Reads (fun _ => string?) (.string s) s := fun _ _ => rfl

theorem reads_bool (b : Bool) : Reads (fun _ => bool?) (.bool b) b := fun _ _ => rfl

theorem reads_double (x : Float) : Reads (fun _ => float?) (.number (.double x)) x := fun _ _ => rfl

theorem reads_ofNat {bound n : Nat} (h : n ≤ bound) : Reads (fun _ => nat? bound) (Json.ofNat n) n :=
  fun _ _ => nat?_ofNat h

theorem reads_binaryOp (op : BinaryOp) :
    Reads (fun _ => choice? BinaryOp.names) (nameIn BinaryOp.names op) op := fun _ _ => by
  cases op <;> rfl

theorem reads_logicalOp (op : LogicalOp) :
    Reads (fun _ => choice? LogicalOp.names) (nameIn LogicalOp.names op) op := fun _ _ => by
  cases op <;> rfl

theorem reads_unaryOp (op : UnaryOp) :
    Reads (fun _ => choice? UnaryOp.names) (nameIn UnaryOp.names op) op := fun _ _ => by
  cases op <;> rfl

theorem reads_updateOp (op : UpdateOp) :
    Reads (fun _ => choice? UpdateOp.names) (nameIn UpdateOp.names op) op := fun _ _ => by
  cases op <;> rfl

theorem reads_eachKind (kind : EachKind) :
    Reads (fun _ => choice? EachKind.names) (nameIn EachKind.names kind) kind := fun _ _ => by
  cases kind <;> rfl

theorem reads_assignOp (op : AssignOp) : Reads (fun _ => assignOp?) (assignOp op) op := fun _ _ => by
  cases op with
  | plain => rfl
  | compound op => cases op <;> rfl
  | logical op => cases op <;> rfl

/-- A list whose items are read the same way. -/
theorem reads_list {read? : Nat → Json → Option α} {js : List Json} {as : List α}
    (h : List.Forall₂ (Reads read?) js as) : Reads (fun n => list? (read? n)) (.array js) as := by
  intro n hn
  simp only [sorted, Json.sortedItems_eq] at hn ⊢
  have hdepth : ∀ j ∈ js, j.sorted.depth ≤ n := fun j hj =>
    Nat.le_of_lt (Nat.lt_of_lt_of_le (depth_mem (List.mem_map_of_mem hj)) hn)
  change (js.map sorted).mapM (read? n) = some as
  clear hn
  induction h with
  | nil => rfl
  | cons hj _ ih =>
    rw [List.map_cons, List.mapM_cons, hj n (hdepth _ List.mem_cons_self),
      ih fun j hj => hdepth j (List.mem_cons_of_mem _ hj)]
    rfl

theorem reads_nameList (names : List String) :
    Reads (fun _ => list? string?) (nameList names) names := by
  refine @reads_list _ (fun _ => string?) _ _ ?_
  induction names with
  | nil => exact .nil
  | cons s names ih => exact .cons (reads_string s) ih

/-! ## Nodes -/

theorem node?_object (kinds : Kinds) (numbers : Bool) {kind : String} {names : List String} {n : Nat}
    (_ : (sorted (.object ms)).depth ≤ n)
    (ht : ms.reverse.lookup "t" = some (.string kind))
    (hkind : kinds.find? numbers (.string kind) = some (kind, names)) :
    kinds.node? numbers (sorted (.object ms)) = some (kind, sorted (.object ms)) := by
  have hmember : (sorted (.object ms)).member? "t" = some (.string kind) := by
    rw [member?_sorted, ht]
    rfl
  obtain ⟨members, hms⟩ : ∃ members, sorted (.object ms) = .object members :=
    ⟨_, by rw [sorted, Json.ofMembers]⟩
  rw [hms] at hmember ⊢
  simp [Kinds.node?, hmember, hkind]

theorem parts?_object (names : List String) (ms : List (String × Json)) :
    parts? names (sorted (.object ms)) = some (sorted (.object ms)) := by
  rw [sorted, Json.ofMembers, parts?]

variable {kind : String} {parts : List (String × Json)} {s : Span}

/-- A node is opened: its kind, its parts and its span. -/
theorem opened (kinds : Kinds) (numbers : Bool) {names : List String} {n : Nat}
    (hn : (sorted (node kind parts s)).depth ≤ n) (hs : s.Fits)
    (hkind : kinds.find? numbers (.string kind) = some (kind, names))
    (hparts : parts.reverse.lookup "t" = none ∧ parts.reverse.lookup "span" = none) :
    kinds.node? numbers (sorted (node kind parts s)) = some (kind, sorted (node kind parts s)) ∧
      spanOf? (sorted (node kind parts s)) = some s :=
  ⟨node?_object kinds numbers hn (by simp [List.lookup_append, hparts.1]) hkind,
    spanOf?_sorted hs (by simp [List.lookup_append, hparts.2])⟩

theorem lookup_node (kind : String) (s : Span) (hname : name ∉ ["t", "span"]) :
    ([("t", Json.string kind)] ++ parts ++ spanPart s).reverse.lookup name =
      parts.reverse.lookup name := by
  simp only [List.mem_cons, List.not_mem_nil, or_false, not_or] at hname
  simp [List.lookup_append, lookup_spanPart, hname, lookup_cons]

theorem Reads.node {read? : Nat → Json → Option α} {j : Json} {a : α} (h : Reads read? j a)
    (name : String) (hname : name ∉ ["t", "span"]) (hj : parts.reverse.lookup name = some j) {n : Nat}
    (hn : (sorted (node kind parts s)).depth ≤ n + 1) :
    Layout.part? (sorted (Layout.node kind parts s)) name (read? n) = some a :=
  h.part? name ((lookup_node kind s hname).trans hj) hn

theorem ReadsOption.node {read? : Nat → Json → Option α} {o : Option Json} {a : Option α}
    (h : ReadsOption read? o a) (name : String) (hname : name ∉ ["t", "span"])
    (ho : parts.reverse.lookup name = o) {n : Nat} (hn : (sorted (node kind parts s)).depth ≤ n + 1) :
    Layout.maybe? (sorted (Layout.node kind parts s)) name (read? n) = some a :=
  h.maybe? name ((lookup_node kind s hname).trans ho) hn

theorem flag_node {b : Bool} (name : String) (hname : name ∉ ["t", "span"])
    (hb : parts.reverse.lookup name = if b = true then some (.bool true) else none) :
    default? (sorted (node kind parts s)) name false bool? = some b :=
  default?_flag ((lookup_node kind s hname).trans hb)

theorem reads_succ {read? : Nat → Json → Option α} {j : Json} {a : α}
    (h : ∀ n, j.sorted.depth ≤ n + 1 → read? (n + 1) j.sorted = some a) : Reads read? j a := by
  intro n hn
  cases n with
  | zero => exact absurd hn (Nat.not_le.mpr (depth_pos _))
  | succ n => exact h n hn

/-! ## Trees -/

theorem expr_ne_null (e : Expr) : expr e ≠ .null := by
  cases e <;> (rw [expr]; exact nofun)

theorem stmt_ne_null (t : Stmt) : stmt t ≠ .null := by
  cases t <;> (rw [stmt]; exact nofun)

theorem reads_optionalString (o : Option String) :
    ReadsOption (fun _ => string?) (o.map Json.string) o := by
  cases o with
  | none => exact .absent
  | some s => exact .present (reads_string s) nofun

/-! ### One node -/

theorem reads_expr_number {v : Float} (hs : s.Fits) :
    Reads expr? (expr (.number s v)) (.number s v) := by
  refine reads_succ fun n hn => ?_
  rw [expr] at hn ⊢
  have hv := (reads_double v).node "v" (by decide) rfl hn
  obtain ⟨hnode, hspan⟩ := opened exprKinds true hn hs rfl ⟨rfl, rfl⟩
  rw [expr?, hnode]
  dsimp only [Option.bind_eq_bind, Option.bind_some]
  rw [hspan]
  dsimp only [Option.bind_eq_bind, Option.bind_some]
  rw [hv]
  rfl

theorem reads_expr_string {v : String} (hs : s.Fits) :
    Reads expr? (expr (.string s v)) (.string s v) := by
  refine reads_succ fun n hn => ?_
  rw [expr] at hn ⊢
  have hv := (reads_string v).node "v" (by decide) rfl hn
  obtain ⟨hnode, hspan⟩ := opened exprKinds true hn hs rfl ⟨rfl, rfl⟩
  rw [expr?, hnode]
  dsimp only [Option.bind_eq_bind, Option.bind_some]
  rw [hspan]
  dsimp only [Option.bind_eq_bind, Option.bind_some]
  rw [hv]
  rfl

theorem reads_expr_bool {v : Bool} (hs : s.Fits) :
    Reads expr? (expr (.bool s v)) (.bool s v) := by
  refine reads_succ fun n hn => ?_
  rw [expr] at hn ⊢
  have hv := (reads_bool v).node "v" (by decide) rfl hn
  obtain ⟨hnode, hspan⟩ := opened exprKinds true hn hs rfl ⟨rfl, rfl⟩
  rw [expr?, hnode]
  dsimp only [Option.bind_eq_bind, Option.bind_some]
  rw [hspan]
  dsimp only [Option.bind_eq_bind, Option.bind_some]
  rw [hv]
  rfl

theorem reads_expr_null (hs : s.Fits) :
    Reads expr? (expr (.null s)) (.null s) := by
  refine reads_succ fun n hn => ?_
  rw [expr] at hn ⊢
  obtain ⟨hnode, hspan⟩ := opened exprKinds true hn hs rfl ⟨rfl, rfl⟩
  rw [expr?, hnode]
  dsimp only [Option.bind_eq_bind, Option.bind_some]
  rw [hspan]
  rfl

theorem reads_expr_array {es : List Expr} (hs : s.Fits)
    (hes : List.Forall₂ (Reads expr?) (exprs es) es) :
    Reads expr? (expr (.array s es)) (.array s es) := by
  refine reads_succ fun n hn => ?_
  rw [expr] at hn ⊢
  have hes := (reads_list hes).node "elements" (by decide) rfl hn
  obtain ⟨hnode, hspan⟩ := opened exprKinds true hn hs rfl ⟨rfl, rfl⟩
  rw [expr?, hnode]
  dsimp only [Option.bind_eq_bind, Option.bind_some]
  rw [hspan]
  dsimp only [Option.bind_eq_bind, Option.bind_some]
  rw [hes]
  rfl

theorem reads_expr_object {ps : List PropertyDef} (hs : s.Fits)
    (hps : List.Forall₂ (Reads property?) (properties ps) ps) :
    Reads expr? (expr (.object s ps)) (.object s ps) := by
  refine reads_succ fun n hn => ?_
  rw [expr] at hn ⊢
  have hps := (reads_list hps).node "properties" (by decide) rfl hn
  obtain ⟨hnode, hspan⟩ := opened exprKinds true hn hs rfl ⟨rfl, rfl⟩
  rw [expr?, hnode]
  dsimp only [Option.bind_eq_bind, Option.bind_some]
  rw [hspan]
  dsimp only [Option.bind_eq_bind, Option.bind_some]
  rw [hps]
  rfl

theorem reads_expr_ident {name : String} (hs : s.Fits) :
    Reads expr? (expr (.ident s name)) (.ident s name) := by
  refine reads_succ fun n hn => ?_
  rw [expr] at hn ⊢
  have hname := (reads_string name).node "name" (by decide) rfl hn
  obtain ⟨hnode, hspan⟩ := opened exprKinds true hn hs rfl ⟨rfl, rfl⟩
  rw [expr?, hnode]
  dsimp only [Option.bind_eq_bind, Option.bind_some]
  rw [hspan]
  dsimp only [Option.bind_eq_bind, Option.bind_some]
  rw [hname]
  rfl

theorem reads_expr_this (hs : s.Fits) :
    Reads expr? (expr (.this s)) (.this s) := by
  refine reads_succ fun n hn => ?_
  rw [expr] at hn ⊢
  obtain ⟨hnode, hspan⟩ := opened exprKinds true hn hs rfl ⟨rfl, rfl⟩
  rw [expr?, hnode]
  dsimp only [Option.bind_eq_bind, Option.bind_some]
  rw [hspan]
  rfl

theorem reads_expr_function {fn : FunctionNode} (hs : s.Fits)
    (hfn : Reads function? (function fn) fn) :
    Reads expr? (expr (.function s fn)) (.function s fn) := by
  refine reads_succ fun n hn => ?_
  rw [expr] at hn ⊢
  have hfn := hfn.node "func" (by decide) rfl hn
  obtain ⟨hnode, hspan⟩ := opened exprKinds true hn hs rfl ⟨rfl, rfl⟩
  rw [expr?, hnode]
  dsimp only [Option.bind_eq_bind, Option.bind_some]
  rw [hspan]
  dsimp only [Option.bind_eq_bind, Option.bind_some]
  rw [hfn]
  rfl

theorem reads_expr_member {o : Expr} {k : MemberKey} {i : Bool} (hs : s.Fits)
    (ho : Reads expr? (expr o) o) (hk : Reads memberKey? (memberKey k) k) :
    Reads expr? (expr (.member s o k i)) (.member s o k i) := by
  refine reads_succ fun n hn => ?_
  rw [expr] at hn ⊢
  have ho := ho.node "object" (by decide) (by simp) hn
  have hk := hk.node "property" (by decide) (by simp) hn
  have hi : default? (sorted (node "Member" ([("object", expr o), ("property", memberKey k)]
      ++ flagPart "implicit" i) s)) "implicit" false bool? = some i :=
    flag_node "implicit" (by decide) (by simp)
  obtain ⟨hnode, hspan⟩ := opened exprKinds true hn hs rfl ⟨by simp, by simp⟩
  rw [expr?, hnode]
  dsimp only [Option.bind_eq_bind, Option.bind_some]
  rw [hspan]
  dsimp only [Option.bind_eq_bind, Option.bind_some]
  rw [ho, hk, hi]
  rfl

theorem reads_expr_call {f : Expr} {args : List Expr} (hs : s.Fits) (hf : Reads expr? (expr f) f)
    (hargs : List.Forall₂ (Reads expr?) (exprs args) args) :
    Reads expr? (expr (.call s f args)) (.call s f args) := by
  refine reads_succ fun n hn => ?_
  rw [expr] at hn ⊢
  have hf := hf.node "callee" (by decide) rfl hn
  have hargs := (reads_list hargs).node "args" (by decide) rfl hn
  obtain ⟨hnode, hspan⟩ := opened exprKinds true hn hs rfl ⟨rfl, rfl⟩
  rw [expr?, hnode]
  dsimp only [Option.bind_eq_bind, Option.bind_some]
  rw [hspan]
  dsimp only [Option.bind_eq_bind, Option.bind_some]
  rw [hf, hargs]
  rfl

theorem reads_expr_construct {f : Expr} {args : List Expr} (hs : s.Fits)
    (hf : Reads expr? (expr f) f) (hargs : List.Forall₂ (Reads expr?) (exprs args) args) :
    Reads expr? (expr (.construct s f args)) (.construct s f args) := by
  refine reads_succ fun n hn => ?_
  rw [expr] at hn ⊢
  have hf := hf.node "callee" (by decide) rfl hn
  have hargs := (reads_list hargs).node "args" (by decide) rfl hn
  obtain ⟨hnode, hspan⟩ := opened exprKinds true hn hs rfl ⟨rfl, rfl⟩
  rw [expr?, hnode]
  dsimp only [Option.bind_eq_bind, Option.bind_some]
  rw [hspan]
  dsimp only [Option.bind_eq_bind, Option.bind_some]
  rw [hf, hargs]
  rfl

theorem reads_expr_unary {op : UnaryOp} {a : Expr} (hs : s.Fits) (ha : Reads expr? (expr a) a) :
    Reads expr? (expr (.unary s op a)) (.unary s op a) := by
  refine reads_succ fun n hn => ?_
  rw [expr] at hn ⊢
  have hop := (reads_unaryOp op).node "op" (by decide) rfl hn
  have ha := ha.node "arg" (by decide) rfl hn
  obtain ⟨hnode, hspan⟩ := opened exprKinds true hn hs rfl ⟨rfl, rfl⟩
  rw [expr?, hnode]
  dsimp only [Option.bind_eq_bind, Option.bind_some]
  rw [hspan]
  dsimp only [Option.bind_eq_bind, Option.bind_some]
  rw [hop, ha]
  rfl

theorem reads_expr_update {op : UpdateOp} {b : Bool} {t : Expr} (hs : s.Fits)
    (ht : Reads expr? (expr t) t) :
    Reads expr? (expr (.update s op b t)) (.update s op b t) := by
  refine reads_succ fun n hn => ?_
  rw [expr] at hn ⊢
  have hop := (reads_updateOp op).node "op" (by decide) rfl hn
  have hb := (reads_bool b).node "prefix" (by decide) rfl hn
  have ht := ht.node "target" (by decide) rfl hn
  obtain ⟨hnode, hspan⟩ := opened exprKinds true hn hs rfl ⟨rfl, rfl⟩
  rw [expr?, hnode]
  dsimp only [Option.bind_eq_bind, Option.bind_some]
  rw [hspan]
  dsimp only [Option.bind_eq_bind, Option.bind_some]
  rw [hop, hb, ht]
  rfl

theorem reads_expr_binary {op : BinaryOp} {l r : Expr} (hs : s.Fits) (hl : Reads expr? (expr l) l)
    (hr : Reads expr? (expr r) r) :
    Reads expr? (expr (.binary s op l r)) (.binary s op l r) := by
  refine reads_succ fun n hn => ?_
  rw [expr] at hn ⊢
  have hop := (reads_binaryOp op).node "op" (by decide) rfl hn
  have hl := hl.node "left" (by decide) rfl hn
  have hr := hr.node "right" (by decide) rfl hn
  obtain ⟨hnode, hspan⟩ := opened exprKinds true hn hs rfl ⟨rfl, rfl⟩
  rw [expr?, hnode]
  dsimp only [Option.bind_eq_bind, Option.bind_some]
  rw [hspan]
  dsimp only [Option.bind_eq_bind, Option.bind_some]
  rw [hop, hl, hr]
  rfl

theorem reads_expr_logical {op : LogicalOp} {l r : Expr} (hs : s.Fits)
    (hl : Reads expr? (expr l) l) (hr : Reads expr? (expr r) r) :
    Reads expr? (expr (.logical s op l r)) (.logical s op l r) := by
  refine reads_succ fun n hn => ?_
  rw [expr] at hn ⊢
  have hop := (reads_logicalOp op).node "op" (by decide) rfl hn
  have hl := hl.node "left" (by decide) rfl hn
  have hr := hr.node "right" (by decide) rfl hn
  obtain ⟨hnode, hspan⟩ := opened exprKinds true hn hs rfl ⟨rfl, rfl⟩
  rw [expr?, hnode]
  dsimp only [Option.bind_eq_bind, Option.bind_some]
  rw [hspan]
  dsimp only [Option.bind_eq_bind, Option.bind_some]
  rw [hop, hl, hr]
  rfl

theorem reads_expr_assign {op : AssignOp} {t v : Expr} (hs : s.Fits) (ht : Reads expr? (expr t) t)
    (hv : Reads expr? (expr v) v) :
    Reads expr? (expr (.assign s op t v)) (.assign s op t v) := by
  refine reads_succ fun n hn => ?_
  rw [expr] at hn ⊢
  have hop := (reads_assignOp op).node "op" (by decide) rfl hn
  have ht := ht.node "target" (by decide) rfl hn
  have hv := hv.node "value" (by decide) rfl hn
  obtain ⟨hnode, hspan⟩ := opened exprKinds true hn hs rfl ⟨rfl, rfl⟩
  rw [expr?, hnode]
  dsimp only [Option.bind_eq_bind, Option.bind_some]
  rw [hspan]
  dsimp only [Option.bind_eq_bind, Option.bind_some]
  rw [hop, ht, hv]
  rfl

theorem reads_expr_conditional {t y no : Expr} (hs : s.Fits) (ht : Reads expr? (expr t) t)
    (hy : Reads expr? (expr y) y) (hno : Reads expr? (expr no) no) :
    Reads expr? (expr (.conditional s t y no)) (.conditional s t y no) := by
  refine reads_succ fun n hn => ?_
  rw [expr] at hn ⊢
  have ht := ht.node "test" (by decide) rfl hn
  have hy := hy.node "consequent" (by decide) rfl hn
  have hno := hno.node "alternate" (by decide) rfl hn
  obtain ⟨hnode, hspan⟩ := opened exprKinds true hn hs rfl ⟨rfl, rfl⟩
  rw [expr?, hnode]
  dsimp only [Option.bind_eq_bind, Option.bind_some]
  rw [hspan]
  dsimp only [Option.bind_eq_bind, Option.bind_some]
  rw [ht, hy, hno]
  rfl

theorem reads_expr_sequence {es : List Expr} (hs : s.Fits)
    (hes : List.Forall₂ (Reads expr?) (exprs es) es) :
    Reads expr? (expr (.sequence s es)) (.sequence s es) := by
  refine reads_succ fun n hn => ?_
  rw [expr] at hn ⊢
  have hes := (reads_list hes).node "exprs" (by decide) rfl hn
  obtain ⟨hnode, hspan⟩ := opened exprKinds true hn hs rfl ⟨rfl, rfl⟩
  rw [expr?, hnode]
  dsimp only [Option.bind_eq_bind, Option.bind_some]
  rw [hspan]
  dsimp only [Option.bind_eq_bind, Option.bind_some]
  rw [hes]
  rfl

theorem reads_stmt_expression (numbers : Bool) {e : Expr} (hs : s.Fits)
    (he : Reads expr? (expr e) e) :
    Reads (stmt? numbers) (stmt (.expression s e)) (.expression s e) := by
  refine reads_succ fun n hn => ?_
  rw [stmt] at hn ⊢
  have he := he.node "expr" (by decide) rfl hn
  obtain ⟨hnode, hspan⟩ := opened stmtKinds numbers hn hs rfl ⟨rfl, rfl⟩
  rw [stmt?, hnode]
  dsimp only [Option.bind_eq_bind, Option.bind_some]
  rw [hspan]
  dsimp only [Option.bind_eq_bind, Option.bind_some]
  rw [he]
  rfl

theorem reads_stmt_declare (numbers : Bool) {ds : List VarDecl} (hs : s.Fits)
    (hds : List.Forall₂ (Reads decl?) (decls ds) ds) :
    Reads (stmt? numbers) (stmt (.declare s ds)) (.declare s ds) := by
  refine reads_succ fun n hn => ?_
  rw [stmt] at hn ⊢
  have hds := (reads_list hds).node "decls" (by decide) rfl hn
  obtain ⟨hnode, hspan⟩ := opened stmtKinds numbers hn hs rfl ⟨rfl, rfl⟩
  rw [stmt?, hnode]
  dsimp only [Option.bind_eq_bind, Option.bind_some]
  rw [hspan]
  dsimp only [Option.bind_eq_bind, Option.bind_some]
  rw [hds]
  rfl

theorem reads_stmt_function (numbers : Bool) {fn : FunctionNode} (hs : s.Fits)
    (hfn : Reads function? (function fn) fn) :
    Reads (stmt? numbers) (stmt (.function s fn)) (.function s fn) := by
  refine reads_succ fun n hn => ?_
  rw [stmt] at hn ⊢
  have hfn := hfn.node "func" (by decide) rfl hn
  obtain ⟨hnode, hspan⟩ := opened stmtKinds numbers hn hs rfl ⟨rfl, rfl⟩
  rw [stmt?, hnode]
  dsimp only [Option.bind_eq_bind, Option.bind_some]
  rw [hspan]
  dsimp only [Option.bind_eq_bind, Option.bind_some]
  rw [hfn]
  rfl

theorem reads_stmt_ret (numbers : Bool) {arg : Option Expr} (hs : s.Fits)
    (harg : ReadsOption expr? (optionalExpr arg) arg) :
    Reads (stmt? numbers) (stmt (.ret s arg)) (.ret s arg) := by
  refine reads_succ fun n hn => ?_
  rw [stmt] at hn ⊢
  have harg := harg.node "arg" (by decide) (by simp) hn
  obtain ⟨hnode, hspan⟩ := opened stmtKinds numbers hn hs rfl ⟨by simp, by simp⟩
  rw [stmt?, hnode]
  dsimp only [Option.bind_eq_bind, Option.bind_some]
  rw [hspan]
  dsimp only [Option.bind_eq_bind, Option.bind_some]
  rw [harg]
  rfl

theorem reads_stmt_cond (numbers : Bool) {test : Expr} {yes : Stmt} {no : Option Stmt}
    (hs : s.Fits) (htest : Reads expr? (expr test) test)
    (hyes : Reads (stmt? true) (stmt yes) yes)
    (hno : ReadsOption (stmt? true) (optionalStmt no) no) :
    Reads (stmt? numbers) (stmt (.cond s test yes no)) (.cond s test yes no) := by
  refine reads_succ fun n hn => ?_
  rw [stmt] at hn ⊢
  have htest := htest.node "test" (by decide) (by simp) hn
  have hyes := hyes.node "then_s" (by decide) (by simp) hn
  have hno := hno.node "else_s" (by decide) (by simp) hn
  obtain ⟨hnode, hspan⟩ := opened stmtKinds numbers hn hs rfl ⟨by simp, by simp⟩
  rw [stmt?, hnode]
  dsimp only [Option.bind_eq_bind, Option.bind_some]
  rw [hspan]
  dsimp only [Option.bind_eq_bind, Option.bind_some]
  rw [htest, hyes, hno]
  rfl

theorem reads_stmt_whileLoop (numbers : Bool) {test : Expr} {body : Stmt} (hs : s.Fits)
    (htest : Reads expr? (expr test) test) (hbody : Reads (stmt? true) (stmt body) body) :
    Reads (stmt? numbers) (stmt (.whileLoop s test body)) (.whileLoop s test body) := by
  refine reads_succ fun n hn => ?_
  rw [stmt] at hn ⊢
  have htest := htest.node "test" (by decide) rfl hn
  have hbody := hbody.node "body" (by decide) rfl hn
  obtain ⟨hnode, hspan⟩ := opened stmtKinds numbers hn hs rfl ⟨rfl, rfl⟩
  rw [stmt?, hnode]
  dsimp only [Option.bind_eq_bind, Option.bind_some]
  rw [hspan]
  dsimp only [Option.bind_eq_bind, Option.bind_some]
  rw [htest, hbody]
  rfl

theorem reads_stmt_doLoop (numbers : Bool) {body : Stmt} {test : Expr} (hs : s.Fits)
    (hbody : Reads (stmt? true) (stmt body) body) (htest : Reads expr? (expr test) test) :
    Reads (stmt? numbers) (stmt (.doLoop s body test)) (.doLoop s body test) := by
  refine reads_succ fun n hn => ?_
  rw [stmt] at hn ⊢
  have hbody := hbody.node "body" (by decide) rfl hn
  have htest := htest.node "test" (by decide) rfl hn
  obtain ⟨hnode, hspan⟩ := opened stmtKinds numbers hn hs rfl ⟨rfl, rfl⟩
  rw [stmt?, hnode]
  dsimp only [Option.bind_eq_bind, Option.bind_some]
  rw [hspan]
  dsimp only [Option.bind_eq_bind, Option.bind_some]
  rw [hbody, htest]
  rfl

theorem reads_stmt_forLoop (numbers : Bool) {init : Option ForInit} {test update : Option Expr}
    {body : Stmt} (hs : s.Fits) (hinit : ReadsOption forInit? (forInit init) init)
    (htest : ReadsOption expr? (optionalExpr test) test)
    (hupdate : ReadsOption expr? (optionalExpr update) update)
    (hbody : Reads (stmt? true) (stmt body) body) :
    Reads (stmt? numbers) (stmt (.forLoop s init test update body)) (.forLoop s init test update body) := by
  refine reads_succ fun n hn => ?_
  rw [stmt] at hn ⊢
  have hinit := hinit.node "init" (by decide) (by simp) hn
  have htest := htest.node "test" (by decide) (by simp) hn
  have hupdate := hupdate.node "update" (by decide) (by simp) hn
  have hbody := hbody.node "body" (by decide) (by simp) hn
  obtain ⟨hnode, hspan⟩ := opened stmtKinds numbers hn hs rfl ⟨by simp, by simp⟩
  rw [stmt?, hnode]
  dsimp only [Option.bind_eq_bind, Option.bind_some]
  rw [hspan]
  dsimp only [Option.bind_eq_bind, Option.bind_some]
  rw [hinit, htest, hupdate, hbody]
  rfl

theorem reads_stmt_forEach (numbers : Bool) {kind : EachKind} {target : ForTarget} {source : Expr}
    {body : Stmt} (hs : s.Fits) (htarget : Reads forTarget? (forTarget target) target)
    (hsource : Reads expr? (expr source) source) (hbody : Reads (stmt? true) (stmt body) body) :
    Reads (stmt? numbers) (stmt (.forEach s kind target source body)) (.forEach s kind target source body) := by
  refine reads_succ fun n hn => ?_
  rw [stmt] at hn ⊢
  have hkind := (reads_eachKind kind).node "kind" (by decide) rfl hn
  have htarget := htarget.node "target" (by decide) rfl hn
  have hsource := hsource.node "iterable" (by decide) rfl hn
  have hbody := hbody.node "body" (by decide) rfl hn
  obtain ⟨hnode, hspan⟩ := opened stmtKinds numbers hn hs rfl ⟨rfl, rfl⟩
  rw [stmt?, hnode]
  dsimp only [Option.bind_eq_bind, Option.bind_some]
  rw [hspan]
  dsimp only [Option.bind_eq_bind, Option.bind_some]
  rw [hkind, htarget, hsource, hbody]
  rfl

theorem reads_stmt_leave (numbers : Bool) {label : Option String} (hs : s.Fits) :
    Reads (stmt? numbers) (stmt (.leave s label)) (.leave s label) := by
  refine reads_succ fun n hn => ?_
  rw [stmt] at hn ⊢
  have hlabel := (reads_optionalString label).node "label" (by decide) (by simp) hn
  obtain ⟨hnode, hspan⟩ := opened stmtKinds numbers hn hs rfl ⟨by simp, by simp⟩
  rw [stmt?, hnode]
  dsimp only [Option.bind_eq_bind, Option.bind_some]
  rw [hspan]
  dsimp only [Option.bind_eq_bind, Option.bind_some]
  rw [hlabel]
  rfl

theorem reads_stmt_next (numbers : Bool) {label : Option String} (hs : s.Fits) :
    Reads (stmt? numbers) (stmt (.next s label)) (.next s label) := by
  refine reads_succ fun n hn => ?_
  rw [stmt] at hn ⊢
  have hlabel := (reads_optionalString label).node "label" (by decide) (by simp) hn
  obtain ⟨hnode, hspan⟩ := opened stmtKinds numbers hn hs rfl ⟨by simp, by simp⟩
  rw [stmt?, hnode]
  dsimp only [Option.bind_eq_bind, Option.bind_some]
  rw [hspan]
  dsimp only [Option.bind_eq_bind, Option.bind_some]
  rw [hlabel]
  rfl

theorem reads_stmt_raise (numbers : Bool) {arg : Expr} (hs : s.Fits)
    (harg : Reads expr? (expr arg) arg) :
    Reads (stmt? numbers) (stmt (.raise s arg)) (.raise s arg) := by
  refine reads_succ fun n hn => ?_
  rw [stmt] at hn ⊢
  have harg := harg.node "arg" (by decide) rfl hn
  obtain ⟨hnode, hspan⟩ := opened stmtKinds numbers hn hs rfl ⟨rfl, rfl⟩
  rw [stmt?, hnode]
  dsimp only [Option.bind_eq_bind, Option.bind_some]
  rw [hspan]
  dsimp only [Option.bind_eq_bind, Option.bind_some]
  rw [harg]
  rfl

theorem reads_stmt_guarded (numbers : Bool) {block : Stmt} {handler : Option CatchClause}
    {finalizer : Option Stmt} (hs : s.Fits) (hblock : Reads (stmt? true) (stmt block) block)
    (hhandler : ReadsOption catchClause? (catchClause handler) handler)
    (hfinalizer : ReadsOption (stmt? true) (optionalStmt finalizer) finalizer) :
    Reads (stmt? numbers) (stmt (.guarded s block handler finalizer)) (.guarded s block handler finalizer) := by
  refine reads_succ fun n hn => ?_
  rw [stmt] at hn ⊢
  have hblock := hblock.node "block" (by decide) (by simp) hn
  have hhandler := hhandler.node "handler" (by decide) (by simp) hn
  have hfinalizer := hfinalizer.node "finalizer" (by decide) (by simp) hn
  obtain ⟨hnode, hspan⟩ := opened stmtKinds numbers hn hs rfl ⟨by simp, by simp⟩
  rw [stmt?, hnode]
  dsimp only [Option.bind_eq_bind, Option.bind_some]
  rw [hspan]
  dsimp only [Option.bind_eq_bind, Option.bind_some]
  rw [hblock, hhandler, hfinalizer]
  rfl

theorem reads_stmt_labeled (numbers : Bool) {label : String} {body : Stmt} (hs : s.Fits)
    (hbody : Reads (stmt? true) (stmt body) body) :
    Reads (stmt? numbers) (stmt (.labeled s label body)) (.labeled s label body) := by
  refine reads_succ fun n hn => ?_
  rw [stmt] at hn ⊢
  have hlabel := (reads_string label).node "label" (by decide) rfl hn
  have hbody := hbody.node "body" (by decide) rfl hn
  obtain ⟨hnode, hspan⟩ := opened stmtKinds numbers hn hs rfl ⟨rfl, rfl⟩
  rw [stmt?, hnode]
  dsimp only [Option.bind_eq_bind, Option.bind_some]
  rw [hspan]
  dsimp only [Option.bind_eq_bind, Option.bind_some]
  rw [hlabel, hbody]
  rfl

theorem reads_stmt_block (numbers : Bool) {body : List Stmt} (hs : s.Fits)
    (hbody : List.Forall₂ (Reads (stmt? true)) (stmts body) body) :
    Reads (stmt? numbers) (stmt (.block s body)) (.block s body) := by
  refine reads_succ fun n hn => ?_
  rw [stmt] at hn ⊢
  have hbody := (reads_list hbody).node "body" (by decide) rfl hn
  obtain ⟨hnode, hspan⟩ := opened stmtKinds numbers hn hs rfl ⟨rfl, rfl⟩
  rw [stmt?, hnode]
  dsimp only [Option.bind_eq_bind, Option.bind_some]
  rw [hspan]
  dsimp only [Option.bind_eq_bind, Option.bind_some]
  rw [hbody]
  rfl

theorem reads_stmt_empty (numbers : Bool) (hs : s.Fits) :
    Reads (stmt? numbers) (stmt (.empty s)) (.empty s) := by
  refine reads_succ fun n hn => ?_
  rw [stmt] at hn ⊢
  obtain ⟨hnode, hspan⟩ := opened stmtKinds numbers hn hs rfl ⟨rfl, rfl⟩
  rw [stmt?, hnode]
  dsimp only [Option.bind_eq_bind, Option.bind_some]
  rw [hspan]
  rfl

section

open Outline

mutual

theorem reads_expr (e : Expr) (h : e.outline.Each Writable) :
    Reads expr? (expr e) e := by
  match e with
  | .number s v =>
    simp only [Expr.outline, each_node, eachOf_nil, and_true] at h
    exact reads_expr_number h.1
  | .string s v =>
    simp only [Expr.outline, each_node, eachOf_nil, and_true] at h
    exact reads_expr_string h.1
  | .bool s v =>
    simp only [Expr.outline, each_node, eachOf_nil, and_true] at h
    exact reads_expr_bool h.1
  | .null s =>
    simp only [Expr.outline, each_node, eachOf_nil, and_true] at h
    exact reads_expr_null h.1
  | .array s es =>
    simp only [Expr.outline, each_node] at h
    exact reads_expr_array h.1.1 (reads_exprs es h.2)
  | .object s ps =>
    simp only [Expr.outline, each_node] at h
    exact reads_expr_object h.1.1 (reads_properties ps h.2)
  | .ident s name =>
    simp only [Expr.outline, each_node, eachOf_nil, and_true] at h
    exact reads_expr_ident h.1
  | .this s =>
    simp only [Expr.outline, each_node, eachOf_nil, and_true] at h
    exact reads_expr_this h.1
  | .function s fn =>
    simp only [Expr.outline, each_node, eachOf_cons, eachOf_nil, and_true] at h
    exact reads_expr_function h.1.1 (reads_function fn h.2)
  | .member s o k i =>
    simp only [Expr.outline, each_node, eachOf_cons] at h
    exact reads_expr_member h.1.1 (reads_expr o h.2.1) (reads_memberKey k h.2.2)
  | .call s f args =>
    simp only [Expr.outline, each_node, eachOf_cons] at h
    exact reads_expr_call h.1.1 (reads_expr f h.2.1) (reads_exprs args h.2.2)
  | .construct s f args =>
    simp only [Expr.outline, each_node, eachOf_cons] at h
    exact reads_expr_construct h.1.1 (reads_expr f h.2.1) (reads_exprs args h.2.2)
  | .unary s op a =>
    simp only [Expr.outline, each_node, eachOf_cons, eachOf_nil, and_true] at h
    exact reads_expr_unary h.1.1 (reads_expr a h.2)
  | .update s op b t =>
    simp only [Expr.outline, each_node, eachOf_cons, eachOf_nil, and_true] at h
    exact reads_expr_update h.1.1 (reads_expr t h.2)
  | .binary s op l r =>
    simp only [Expr.outline, each_node, eachOf_cons, eachOf_nil, and_true] at h
    exact reads_expr_binary h.1.1 (reads_expr l h.2.1) (reads_expr r h.2.2)
  | .logical s op l r =>
    simp only [Expr.outline, each_node, eachOf_cons, eachOf_nil, and_true] at h
    exact reads_expr_logical h.1.1 (reads_expr l h.2.1) (reads_expr r h.2.2)
  | .assign s op t v =>
    simp only [Expr.outline, each_node, eachOf_cons, eachOf_nil, and_true] at h
    exact reads_expr_assign h.1.1 (reads_expr t h.2.1) (reads_expr v h.2.2)
  | .conditional s t y no =>
    simp only [Expr.outline, each_node, eachOf_cons, eachOf_nil, and_true] at h
    exact reads_expr_conditional h.1.1 (reads_expr t h.2.1) (reads_expr y h.2.2.1) (reads_expr no h.2.2.2)
  | .sequence s es =>
    simp only [Expr.outline, each_node] at h
    exact reads_expr_sequence h.1.1 (reads_exprs es h.2)

theorem reads_exprs (es : List Expr) (h : EachOf Writable (Expr.outlines es)) :
    List.Forall₂ (Reads expr?) (exprs es) es := by
  match es with
  | [] => exact .nil
  | e :: es =>
    simp only [Expr.outlines, eachOf_cons] at h
    exact .cons (reads_expr e h.1) (reads_exprs es h.2)

theorem reads_optionalExpr (o : Option Expr)
    (h : EachOf Writable (Expr.outlines? o)) :
    ReadsOption expr? (optionalExpr o) o := by
  match o with
  | none => exact .absent
  | some e =>
    simp only [Expr.outlines?, eachOf_cons] at h
    exact .present (reads_expr e h.1) (expr_ne_null e)

theorem reads_memberKey (k : MemberKey) (h : EachOf Writable k.outlines) :
    Reads memberKey? (memberKey k) k := by
  refine reads_succ fun n hn => ?_
  match k with
  | .named name =>
    rw [memberKey] at hn ⊢
    have hname := (reads_string name).part? "name" rfl hn
    have hnode := node?_object memberKinds true hn rfl rfl
    simp only [memberKey?, hnode, hname, Option.bind_eq_bind, Option.bind_some]
    rfl
  | .computed e =>
    simp only [MemberKey.outlines, eachOf_cons] at h
    rw [memberKey] at hn ⊢
    have he := (reads_expr e h.1).part? "expr" rfl hn
    have hnode := node?_object memberKinds true hn rfl rfl
    simp only [memberKey?, hnode, he, Option.bind_eq_bind, Option.bind_some]
    rfl

theorem reads_properties (ps : List PropertyDef)
    (h : EachOf Writable (PropertyDef.outlines ps)) :
    List.Forall₂ (Reads property?) (properties ps) ps := by
  match ps with
  | [] => exact .nil
  | ⟨key, value, span⟩ :: ps =>
    simp only [PropertyDef.outlines, each_node, eachOf_cons] at h
    refine .cons (reads_succ fun n hn => ?_) (reads_properties ps h.2)
    have hkey := (reads_string key).part? "key" (by simp) hn
    have hvalue := (reads_expr value h.1.2.1).part? "value" (by simp) hn
    have hspan : spanOf? (sorted (.object ([("key", .string key), ("value", expr value)]
        ++ spanPart span))) = some span := spanOf?_sorted h.1.1.1 (by simp)
    simp only [property?, parts?_object, hkey, hvalue, hspan, Option.bind_eq_bind, Option.bind_some]
    rfl

theorem reads_function (fn : FunctionNode) (h : fn.outline.Each Writable) :
    Reads function? (function fn) fn := by
  refine reads_succ fun n hn => ?_
  obtain ⟨id, name, params, body, isDeclaration, span⟩ := fn
  simp only [FunctionNode.outline, each_node] at h
  rw [function] at hn ⊢
  have hid := (reads_ofNat h.1.2).part? "id" (by simp) hn
  have hname := (reads_optionalString name).maybe? "name" (by simp) hn
  have hparams := (reads_nameList params).part? "params" (by simp) hn
  have hbody := (reads_list (reads_stmts true body h.2)).part? "body"
    (by simp) hn
  simp only [function?, parts?_object, hid, hname, hparams, hbody, Option.bind_eq_bind, Option.bind_some]
  rw [default?_flag (b := isDeclaration), spanOf?_sorted h.1.1]
  · rfl
  · simp
  · simp

theorem reads_decls (ds : List VarDecl)
    (h : EachOf Writable (VarDecl.outlines ds)) :
    List.Forall₂ (Reads decl?) (decls ds) ds := by
  match ds with
  | [] => exact .nil
  | ⟨name, init, span⟩ :: ds =>
    simp only [VarDecl.outlines, each_node, eachOf_cons] at h
    refine .cons (reads_succ fun n hn => ?_) (reads_decls ds h.2)
    have hname := (reads_string name).part? "name" (by simp) hn
    have hinit := (reads_optionalExpr init h.1.2).maybe? "init" (by simp) hn
    have hspan : spanOf? (sorted (.object ([("name", .string name)]
        ++ optionalPart "init" (optionalExpr init) ++ spanPart span))) = some span :=
      spanOf?_sorted h.1.1.1 (by simp)
    simp only [decl?, parts?_object, hname, hinit, hspan, Option.bind_eq_bind, Option.bind_some]
    rfl

theorem reads_forInit (o : Option ForInit)
    (h : EachOf Writable (ForInit.outlines? o)) :
    ReadsOption forInit? (forInit o) o := by
  match o with
  | none => exact .absent
  | some (.declare ds) =>
    simp only [ForInit.outlines?] at h
    refine .present (reads_succ fun n hn => ?_) nofun
    have hds := (reads_list (reads_decls ds h)).part? "decls" rfl hn
    have hnode := node?_object initKinds true hn rfl rfl
    simp only [forInit?, hnode, hds, Option.bind_eq_bind, Option.bind_some]
    rfl
  | some (.expression e) =>
    simp only [ForInit.outlines?, eachOf_cons] at h
    refine .present (reads_succ fun n hn => ?_) nofun
    have he := (reads_expr e h.1).part? "expr" rfl hn
    have hnode := node?_object initKinds true hn rfl rfl
    simp only [forInit?, hnode, he, Option.bind_eq_bind, Option.bind_some]
    rfl

theorem reads_forTarget (t : ForTarget) (h : t.outline.Each Writable) :
    Reads forTarget? (forTarget t) t := by
  refine reads_succ fun n hn => ?_
  match t with
  | .declare span name =>
    simp only [ForTarget.outline, each_node] at h
    rw [forTarget] at hn ⊢
    have hname := (reads_string name).node "name" (by decide) rfl hn
    obtain ⟨hnode, hspan⟩ := opened targetKinds true hn h.1.1 rfl ⟨rfl, rfl⟩
    simp only [forTarget?, hnode, hspan, hname, Option.bind_eq_bind, Option.bind_some]
    rfl
  | .expression e =>
    simp only [ForTarget.outline] at h
    rw [forTarget] at hn ⊢
    have he := (reads_expr e h).part? "expr" rfl hn
    have hnode := node?_object targetKinds true hn rfl rfl
    simp only [forTarget?, hnode, he, Option.bind_eq_bind, Option.bind_some]
    rfl

theorem reads_catchClause (o : Option CatchClause)
    (h : EachOf Writable (CatchClause.outlines? o)) :
    ReadsOption catchClause? (catchClause o) o := by
  match o with
  | none => exact .absent
  | some ⟨param, body⟩ =>
    simp only [CatchClause.outlines?, eachOf_cons] at h
    refine .present (reads_succ fun n hn => ?_) nofun
    have hparam := (reads_optionalString param).maybe? "param" (by simp) hn
    have hbody := (reads_stmt true body h.1).part? "body" (by simp) hn
    simp only [catchClause?, parts?_object, hparam, hbody, Option.bind_eq_bind, Option.bind_some]
    rfl

theorem reads_optionalStmt (o : Option Stmt)
    (h : EachOf Writable (Stmt.outlines? o)) :
    ReadsOption (stmt? true) (optionalStmt o) o := by
  match o with
  | none => exact .absent
  | some t =>
    simp only [Stmt.outlines?, eachOf_cons] at h
    exact .present (reads_stmt true t h.1) (stmt_ne_null t)

theorem reads_stmt (numbers : Bool) (t : Stmt) (h : t.outline.Each Writable) :
    Reads (stmt? numbers) (stmt t) t := by
  match t with
  | .expression s e =>
    simp only [Stmt.outline, each_node, eachOf_cons, eachOf_nil, and_true] at h
    exact reads_stmt_expression numbers h.1.1 (reads_expr e h.2)
  | .declare s ds =>
    simp only [Stmt.outline, each_node] at h
    exact reads_stmt_declare numbers h.1.1 (reads_decls ds h.2)
  | .function s fn =>
    simp only [Stmt.outline, each_node, eachOf_cons, eachOf_nil, and_true] at h
    exact reads_stmt_function numbers h.1.1 (reads_function fn h.2)
  | .ret s arg =>
    simp only [Stmt.outline, each_node] at h
    exact reads_stmt_ret numbers h.1.1 (reads_optionalExpr arg h.2)
  | .cond s test yes no =>
    simp only [Stmt.outline, each_node, eachOf_cons] at h
    exact reads_stmt_cond numbers h.1.1 (reads_expr test h.2.1) (reads_stmt true yes h.2.2.1) (reads_optionalStmt no h.2.2.2)
  | .whileLoop s test body =>
    simp only [Stmt.outline, each_node, eachOf_cons, eachOf_nil, and_true] at h
    exact reads_stmt_whileLoop numbers h.1.1 (reads_expr test h.2.1) (reads_stmt true body h.2.2)
  | .doLoop s body test =>
    simp only [Stmt.outline, each_node, eachOf_cons, eachOf_nil, and_true] at h
    exact reads_stmt_doLoop numbers h.1.1 (reads_stmt true body h.2.1) (reads_expr test h.2.2)
  | .forLoop s init test update body =>
    simp only [Stmt.outline, each_node, eachOf_cons, eachOf_append, eachOf_nil, and_true] at h
    exact reads_stmt_forLoop numbers h.1.1 (reads_forInit init h.2.1.1.1) (reads_optionalExpr test h.2.1.1.2) (reads_optionalExpr update h.2.1.2) (reads_stmt true body h.2.2)
  | .forEach s kind target source body =>
    simp only [Stmt.outline, each_node, eachOf_cons, eachOf_nil, and_true] at h
    exact reads_stmt_forEach numbers h.1.1 (reads_forTarget target h.2.1) (reads_expr source h.2.2.1) (reads_stmt true body h.2.2.2)
  | .leave s label =>
    simp only [Stmt.outline, each_node, eachOf_nil, and_true] at h
    exact reads_stmt_leave numbers h.1
  | .next s label =>
    simp only [Stmt.outline, each_node, eachOf_nil, and_true] at h
    exact reads_stmt_next numbers h.1
  | .raise s arg =>
    simp only [Stmt.outline, each_node, eachOf_cons, eachOf_nil, and_true] at h
    exact reads_stmt_raise numbers h.1.1 (reads_expr arg h.2)
  | .guarded s block handler finalizer =>
    simp only [Stmt.outline, each_node, eachOf_cons, eachOf_append] at h
    exact reads_stmt_guarded numbers h.1.1 (reads_stmt true block h.2.1) (reads_catchClause handler h.2.2.1) (reads_optionalStmt finalizer h.2.2.2)
  | .labeled s label body =>
    simp only [Stmt.outline, each_node, eachOf_cons, eachOf_nil, and_true] at h
    exact reads_stmt_labeled numbers h.1.1 (reads_stmt true body h.2)
  | .block s body =>
    simp only [Stmt.outline, each_node] at h
    exact reads_stmt_block numbers h.1.1 (reads_stmts true body h.2)
  | .empty s =>
    simp only [Stmt.outline, each_node, eachOf_nil, and_true] at h
    exact reads_stmt_empty numbers h.1

theorem reads_stmts (numbers : Bool) (ts : List Stmt)
    (h : EachOf Writable (Stmt.outlines ts)) :
    List.Forall₂ (Reads (stmt? numbers)) (stmts ts) ts := by
  match ts with
  | [] => exact .nil
  | t :: ts =>
    simp only [Stmt.outlines, eachOf_cons] at h
    exact .cons (reads_stmt numbers t h.1) (reads_stmts numbers ts h.2)

end

end

end Layout

end Fermata
