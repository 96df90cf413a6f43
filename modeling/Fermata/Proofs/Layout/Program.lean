import Fermata.Proofs.Layout.RoundTrip
import Fermata.Code.Basic

/-!
# Programs as text

A program is written as the compact text of its JSON tree (`Program.write`) and read back through the
JSON reader (`Program.read?`). `Layout.legible_stmt` and its siblings say that every number of the tree is
one the reader gives back; with the layout of nodes (`Layout.reads_stmt`) and the text of trees
(`Json.parse_compact`) this makes the round trip, `Program.read?_write`.
-/

namespace Fermata

namespace Layout

open Json (Legible LegibleItems LegibleMembers sorted)
open Outline

/-! ## Every number survives -/

@[simp]
theorem legible_array {js : List Json} : Legible (.array js) ↔ LegibleItems js := by
  rw [Legible]

@[simp]
theorem legible_object {ms : List (String × Json)} : Legible (.object ms) ↔ LegibleMembers ms := by
  rw [Legible]

@[simp]
theorem legible_string {s : String} : Legible (.string s) := trivial

@[simp]
theorem legible_bool {b : Bool} : Legible (.bool b) := trivial

@[simp]
theorem legible_null : Legible .null := trivial

@[simp]
theorem legibleItems_nil : LegibleItems [] := trivial

@[simp]
theorem legibleItems_cons {j : Json} {js : List Json} :
    LegibleItems (j :: js) ↔ Legible j ∧ LegibleItems js := by
  rw [LegibleItems]

@[simp]
theorem legibleMembers_nil : LegibleMembers [] := trivial

@[simp]
theorem legibleMembers_cons {name : String} {j : Json} {ms : List (String × Json)} :
    LegibleMembers ((name, j) :: ms) ↔ Legible j ∧ LegibleMembers ms := by
  rw [LegibleMembers]

@[simp]
theorem legibleMembers_append {ms ns : List (String × Json)} :
    LegibleMembers (ms ++ ns) ↔ LegibleMembers ms ∧ LegibleMembers ns := by
  induction ms with
  | nil => simp
  | cons m ms ih =>
    obtain ⟨name, j⟩ := m
    simp [ih, and_assoc]

theorem legible_ofNat {n : Nat} (hn : n ≤ greatestOffset) : Legible (Json.ofNat n) := by
  rw [Json.ofNat, Legible]
  exact Json.survives_ofNat hn

theorem legible_spanPart {s : Span} (hs : s.Fits) : LegibleMembers (spanPart s) := by
  obtain ⟨h1, h2, h3, h4, h5, h6⟩ := hs
  unfold spanPart
  split
  · exact legibleMembers_nil
  · simp [spanMembers, legible_ofNat, h1, h2, h3, h4, h5, h6]

@[simp]
theorem legible_optionalPart {name : String} {o : Option Json} :
    LegibleMembers (optionalPart name o) ↔ ∀ j ∈ o, Legible j := by
  cases o <;> simp [optionalPart]

@[simp]
theorem legible_flagPart {name : String} {b : Bool} : LegibleMembers (flagPart name b) := by
  cases b <;> simp [flagPart]

@[simp]
theorem legible_nameList {names : List String} : Legible (nameList names) := by
  rw [nameList, legible_array]
  induction names with
  | nil => exact legibleItems_nil
  | cons s names ih => exact legibleItems_cons.mpr ⟨legible_string, ih⟩

@[simp]
theorem legible_nameIn {α : Type} [BEq α] {names : List (α × String)} {a : α} :
    Legible (nameIn names a) := trivial

@[simp]
theorem legible_assignOp {op : AssignOp} : Legible (assignOp op) := by
  cases op <;> simp [assignOp]

theorem legible_node {kind : String} {parts : List (String × Json)} {s : Span} (hs : s.Fits)
    (hparts : LegibleMembers parts) : Legible (node kind parts s) := by
  simp [node, hparts, legible_spanPart hs]

mutual

theorem legible_expr (e : Expr) (h : e.outline.Each Writable) : Legible (expr e) := by
  match e with
  | .number s v =>
    simp only [Expr.outline, each_node] at h
    refine legible_node h.1.1 (legibleMembers_cons.mpr ⟨?_, trivial⟩)
    rw [Legible]
    exact h.1.2
  | .string s _ | .bool s _ | .null s | .ident s _ | .this s =>
    simp only [Expr.outline, each_node] at h
    exact legible_node h.1.1 (by simp)
  | .array s es | .sequence s es =>
    simp only [Expr.outline, each_node] at h
    exact legible_node h.1.1 (by simp [legible_exprs es h.2])
  | .object s ps =>
    simp only [Expr.outline, each_node] at h
    exact legible_node h.1.1 (by simp [legible_properties ps h.2])
  | .function s fn =>
    simp only [Expr.outline, each_node, eachOf_cons] at h
    exact legible_node h.1.1 (by simp [legible_function fn h.2.1])
  | .member s o k i =>
    simp only [Expr.outline, each_node, eachOf_cons] at h
    exact legible_node h.1.1 (by simp [legible_expr o h.2.1, legible_memberKey k h.2.2])
  | .call s f args | .construct s f args =>
    simp only [Expr.outline, each_node, eachOf_cons] at h
    exact legible_node h.1.1 (by simp [legible_expr f h.2.1, legible_exprs args h.2.2])
  | .unary s _ a | .update s _ _ a =>
    simp only [Expr.outline, each_node, eachOf_cons] at h
    exact legible_node h.1.1 (by simp [legible_expr a h.2.1])
  | .binary s _ l r | .logical s _ l r | .assign s _ l r =>
    simp only [Expr.outline, each_node, eachOf_cons] at h
    exact legible_node h.1.1 (by simp [legible_expr l h.2.1, legible_expr r h.2.2.1])
  | .conditional s t y n =>
    simp only [Expr.outline, each_node, eachOf_cons] at h
    exact legible_node h.1.1 (by
      simp [legible_expr t h.2.1, legible_expr y h.2.2.1, legible_expr n h.2.2.2.1])

theorem legible_exprs (es : List Expr) (h : EachOf Writable (Expr.outlines es)) :
    LegibleItems (exprs es) := by
  match es with
  | [] => exact legibleItems_nil
  | e :: es =>
    simp only [Expr.outlines, eachOf_cons] at h
    exact legibleItems_cons.mpr ⟨legible_expr e h.1, legible_exprs es h.2⟩

theorem legible_optionalExpr (o : Option Expr) (h : EachOf Writable (Expr.outlines? o)) :
    ∀ j ∈ optionalExpr o, Legible j := by
  match o with
  | none => exact nofun
  | some e =>
    simp only [Expr.outlines?, eachOf_cons] at h
    rintro _ ⟨⟩
    exact legible_expr e h.1

theorem legible_memberKey (k : MemberKey) (h : EachOf Writable k.outlines) :
    Legible (memberKey k) := by
  match k with
  | .named _ => simp [memberKey]
  | .computed e =>
    simp only [MemberKey.outlines, eachOf_cons] at h
    simp [memberKey, legible_expr e h.1]

theorem legible_properties (ps : List PropertyDef) (h : EachOf Writable (PropertyDef.outlines ps)) :
    LegibleItems (properties ps) := by
  match ps with
  | [] => exact legibleItems_nil
  | ⟨_, value, _⟩ :: ps =>
    simp only [PropertyDef.outlines, each_node, eachOf_cons] at h
    refine legibleItems_cons.mpr ⟨?_, legible_properties ps h.2⟩
    simp [legible_expr value h.1.2.1, legible_spanPart h.1.1.1]

theorem legible_function (fn : FunctionNode) (h : fn.outline.Each Writable) :
    Legible (function fn) := by
  obtain ⟨id, name, params, body, isDeclaration, span⟩ := fn
  simp only [FunctionNode.outline, each_node] at h
  have hid : id ≤ greatestOffset := Nat.le_trans h.1.2 (by decide)
  simp [function, legible_ofNat hid, legible_stmts body h.2, legible_spanPart h.1.1]

theorem legible_decls (ds : List VarDecl) (h : EachOf Writable (VarDecl.outlines ds)) :
    LegibleItems (decls ds) := by
  match ds with
  | [] => exact legibleItems_nil
  | ⟨_, init, _⟩ :: ds =>
    simp only [VarDecl.outlines, each_node, eachOf_cons] at h
    refine legibleItems_cons.mpr ⟨?_, legible_decls ds h.2⟩
    simpa [legible_spanPart h.1.1.1] using legible_optionalExpr init h.1.2

theorem legible_forInit (o : Option ForInit) (h : EachOf Writable (ForInit.outlines? o)) :
    ∀ j ∈ forInit o, Legible j := by
  match o with
  | none => exact nofun
  | some (.declare ds) =>
    rintro _ ⟨⟩
    simp [legible_decls ds h]
  | some (.expression e) =>
    simp only [ForInit.outlines?, eachOf_cons] at h
    rintro _ ⟨⟩
    simp [legible_expr e h.1]

theorem legible_forTarget (t : ForTarget) (h : t.outline.Each Writable) :
    Legible (forTarget t) := by
  match t with
  | .declare span _ =>
    simp only [ForTarget.outline, each_node] at h
    exact legible_node h.1.1 (by simp)
  | .expression e =>
    simp only [ForTarget.outline] at h
    simp [forTarget, legible_expr e h]

theorem legible_catchClause (o : Option CatchClause) (h : EachOf Writable (CatchClause.outlines? o)) :
    ∀ j ∈ catchClause o, Legible j := by
  match o with
  | none => exact nofun
  | some ⟨param, body⟩ =>
    simp only [CatchClause.outlines?, eachOf_cons] at h
    rintro _ ⟨⟩
    simp [legible_stmt body h.1]

theorem legible_optionalStmt (o : Option Stmt) (h : EachOf Writable (Stmt.outlines? o)) :
    ∀ j ∈ optionalStmt o, Legible j := by
  match o with
  | none => exact nofun
  | some t =>
    simp only [Stmt.outlines?, eachOf_cons] at h
    rintro _ ⟨⟩
    exact legible_stmt t h.1

theorem legible_stmt (t : Stmt) (h : t.outline.Each Writable) : Legible (stmt t) := by
  match t with
  | .expression s e | .raise s e =>
    simp only [Stmt.outline, each_node, eachOf_cons] at h
    exact legible_node h.1.1 (by simp [legible_expr e h.2.1])
  | .declare s ds =>
    simp only [Stmt.outline, each_node] at h
    exact legible_node h.1.1 (by simp [legible_decls ds h.2])
  | .function s fn =>
    simp only [Stmt.outline, each_node, eachOf_cons] at h
    exact legible_node h.1.1 (by simp [legible_function fn h.2.1])
  | .ret s arg =>
    simp only [Stmt.outline, each_node] at h
    exact legible_node h.1.1 (legible_optionalPart.mpr (legible_optionalExpr arg h.2))
  | .cond s test yes no =>
    simp only [Stmt.outline, each_node, eachOf_cons] at h
    have hno := legible_optionalStmt no h.2.2.2
    exact legible_node h.1.1 (by
      simpa [legible_expr test h.2.1, legible_stmt yes h.2.2.1] using hno)
  | .whileLoop s test body =>
    simp only [Stmt.outline, each_node, eachOf_cons] at h
    exact legible_node h.1.1 (by simp [legible_expr test h.2.1, legible_stmt body h.2.2.1])
  | .doLoop s body test =>
    simp only [Stmt.outline, each_node, eachOf_cons] at h
    exact legible_node h.1.1 (by simp [legible_stmt body h.2.1, legible_expr test h.2.2.1])
  | .forLoop s init test update body =>
    simp only [Stmt.outline, each_node, eachOf_cons, eachOf_append] at h
    have hinit := legible_forInit init h.2.1.1.1
    have htest := legible_optionalExpr test h.2.1.1.2
    have hupdate := legible_optionalExpr update h.2.1.2
    refine legible_node h.1.1 ?_
    simp only [legibleMembers_append, legibleMembers_cons, legible_optionalPart]
    exact ⟨⟨⟨hinit, htest⟩, hupdate⟩, legible_stmt body h.2.2.1, trivial⟩
  | .forEach s _ target source body =>
    simp only [Stmt.outline, each_node, eachOf_cons] at h
    exact legible_node h.1.1 (by
      simp [legible_forTarget target h.2.1, legible_expr source h.2.2.1,
        legible_stmt body h.2.2.2.1])
  | .leave s _ | .next s _ | .empty s =>
    simp only [Stmt.outline, each_node] at h
    exact legible_node h.1.1 (by simp)
  | .guarded s block handler finalizer =>
    simp only [Stmt.outline, each_node, eachOf_cons, eachOf_append] at h
    have hhandler := legible_catchClause handler h.2.2.1
    have hfinalizer := legible_optionalStmt finalizer h.2.2.2
    refine legible_node h.1.1 ?_
    simp only [legibleMembers_append, legibleMembers_cons, legible_optionalPart]
    exact ⟨⟨⟨legible_stmt block h.2.1, trivial⟩, hhandler⟩, hfinalizer⟩
  | .labeled s _ body =>
    simp only [Stmt.outline, each_node, eachOf_cons] at h
    exact legible_node h.1.1 (by simp [legible_stmt body h.2.1])
  | .block s body =>
    simp only [Stmt.outline, each_node] at h
    exact legible_node h.1.1 (by simp [legible_stmts body h.2])

theorem legible_stmts (ts : List Stmt) (h : EachOf Writable (Stmt.outlines ts)) :
    LegibleItems (stmts ts) := by
  match ts with
  | [] => exact legibleItems_nil
  | t :: ts =>
    simp only [Stmt.outlines, eachOf_cons] at h
    exact legibleItems_cons.mpr ⟨legible_stmt t h.1, legible_stmts ts h.2⟩

end

end Layout

namespace Program

open Layout (Writable)

/-- What the program says can be written: its numbers fit the widths at which they are kept, and every
number literal reads back from its text. -/
structure Writable (p : Program) : Prop where
  nodes : p.outline.Each Layout.Writable
  count : p.functionCount ≤ Layout.greatestId

/-- The program as text. -/
def write (p : Program) : String := p.toJson.compact

/-- Read a program from a text. -/
def read? (text : String) : Option Program := (Json.parse text).toOption.bind ofJson?

variable {p : Program}

/-- Reading the sorted tree of a program gives the program. -/
theorem ofJson?_sorted (hp : p.Writable) : ofJson? p.toJson.sorted = some p := by
  obtain ⟨body, span, count⟩ := p
  obtain ⟨hnodes, hcount⟩ := hp
  simp only [outline, Outline.each_node] at hnodes
  rw [toJson]
  generalize hms : [("body", Json.array (Layout.stmts body))] ++ Layout.spanPart span
    ++ [("function_count", .ofNat count)] = ms
  have hdepth := Nat.le_succ (Json.object ms).sorted.depth
  have hbody := (Layout.reads_list (Layout.reads_stmts false body hnodes.2)).part? "body"
    (by simp [← hms, List.lookup_append]) hdepth
  have hspan : Layout.spanOf? (Json.object ms).sorted = some span :=
    Layout.spanOf?_of_lookup hnodes.1.1 (by simp [← hms, List.lookup_append])
  have hcount := (Layout.reads_ofNat hcount).part? "function_count" (by simp [← hms]) hdepth
  simp only [ofJson?, Layout.parts?_object, hbody, hspan, hcount, Option.bind_eq_bind,
    Option.bind_some]
  rfl

theorem legible (hp : p.Writable) : p.toJson.Legible := by
  obtain ⟨body, span, count⟩ := p
  obtain ⟨hnodes, hcount⟩ := hp
  simp only [outline, Outline.each_node] at hnodes
  have hcount' : count ≤ Layout.greatestOffset := Nat.le_trans hcount (by decide)
  simp [toJson, Layout.legible_stmts body hnodes.2, Layout.legible_spanPart hnodes.1.1,
    Layout.legible_ofNat hcount']

/-- **A program that is written is read back.** -/
theorem read?_write (hp : p.Writable) (hn : p.toJson.nesting < Json.depthLimit) :
    read? p.write = some p := by
  unfold read? write
  rw [Json.parse_compact (legible hp) hn]
  exact ofJson?_sorted hp

/-- **Writing a program and reading it back changes nothing**: neither the program nor the unit that is
made of it. -/
theorem reread (hp : p.Writable) (hn : p.toJson.nesting < Json.depthLimit) :
    read? p.write = some p ∧
      ∀ source outer, (read? p.write).map (CodeUnit.ofProgram source · outer) =
        some (CodeUnit.ofProgram source p outer) := by
  have hread := read?_write hp hn
  exact ⟨hread, fun _ _ => by rw [hread]; rfl⟩

/-- The program `f(1);` with the spans that its source gives it. -/
def callOne : Program where
  body := [.expression ⟨{}, ⟨5, 0, 5⟩⟩ (.call ⟨{}, ⟨4, 0, 4⟩⟩ (.ident ⟨{}, ⟨1, 0, 1⟩⟩ "f")
    [.number ⟨⟨2, 0, 2⟩, ⟨3, 0, 3⟩⟩ (Number.ofNat 1)])]
  span := ⟨{}, ⟨5, 0, 5⟩⟩
  functionCount := 1

theorem reread_callOne :
    (callOne.Writable ∧ callOne.toJson.nesting < Json.depthLimit) ∧
      read? callOne.write = some callOne ∧
      ∀ source outer, (read? callOne.write).map (CodeUnit.ofProgram source · outer) =
        some (CodeUnit.ofProgram source callOne outer) := by
  have hnumber : (JsonNumber.double (Number.ofNat 1)).Survives := rfl
  have hp : callOne.Writable := by
    refine ⟨?_, by decide⟩
    simp only [outline, callOne, Stmt.outlines, Stmt.outline, Expr.outline, Expr.outlines,
      Outline.each_node, Outline.eachOf_cons, Outline.eachOf_nil, and_true]
    refine ⟨⟨?_, trivial⟩, ⟨?_, trivial⟩, ⟨?_, trivial⟩, ⟨?_, trivial⟩, ⟨?_, hnumber⟩⟩ <;>
      simp [Span.Fits, Layout.greatestOffset]
  have hn : callOne.toJson.nesting < Json.depthLimit := by decide +kernel
  exact ⟨⟨hp, hn⟩, reread hp hn⟩

end Program

end Fermata
