import Fermata.Proofs.Grammar.Finds
import Fermata.Proofs.Grammar.Numbering
import Fermata.Proofs.Tree.Outline

/-!
# Trees cover what they were read from

A tree that a rule reads between two offsets has its nodes at places of the text between these offsets, in
order and without overlap, and each function literal from its first word to its closing brace.

* `Grammar.Covers`: the tree, if there is one, is laid out like this between two offsets.
* `Grammar.Laid`: every rule of the grammar gives such trees.
-/

namespace Fermata

open Text (byteLength byteLength_append)

/-- The stretch of the text starts with `function` and stops behind a closing brace. -/
def Span.Braced (whole : List Char) (s : Span) : Prop :=
  ∃ before inside after, whole = before ++ (inside ++ after) ∧
    s.start = Position.through {} before ∧ s.stop = Position.through {} (before ++ inside) ∧
    "function".toList <+: inside ∧ ['\x7d'] <:+ inside

/-- What the text says of a node: its span is a stretch of the text, that of a function in braces. -/
structure Sound (whole : List Char) (s : Span) (m : Mark) : Prop where
  of : s.Of whole
  braced : ∀ id, m = .function id → s.Braced whole

namespace Grammar

open Matcher Finds Outline

variable {whole : List Char}

/-! ## Function literals -/

/-- Two first parts of a text, the first one no longer than the second. -/
theorem append_of_byteLength_le {a r b s : List Char} (h : a ++ r = b ++ s)
    (hle : byteLength a ≤ byteLength b) : ∃ m, b = a ++ m := by
  rcases List.append_eq_append_iff.mp h with ⟨m, hb, -⟩ | ⟨m, ha, -⟩
  · exact ⟨m, hb⟩
  · rw [ha, byteLength_append] at hle
    cases m with
    | nil => exact ⟨[], by rw [ha, List.append_nil, List.append_nil]⟩
    | cons c cs =>
      have hpos := c.utf8Size_pos
      rw [Text.byteLength_cons] at hle
      omega

/-- What stops behind a closing brace. -/
def Closes {α : Type} (whole : List Char) (p : Matcher α) (c : Cursor) : Prop :=
  Lands whole p c fun _ c' => ∃ before, whole = before ++ '\x7d' :: c'.rest ∧
    c'.pos = Position.through {} (before ++ ['\x7d'])

/-- What starts with `function` and stops behind a closing brace. -/
theorem lands_braced {α : Type} {f : Token → Matcher α} (hf : ∀ t c, Closes whole (f t) c)
    (c : Cursor) : Lands whole ((kw "function").andThen f) c fun _ c' =>
      Span.Braced whole ⟨c.pos, c'.pos⟩ := by
  intro hc
  obtain ⟨before, hbefore, hpos⟩ := id hc
  refine Lands.andThen (Lands.token (Lexeme.keyword_splits _) c) (fun t c₁ _ ht => ?_) hc
  refine (hf t c₁.skip).weaken fun v c' _ hle hclose => ?_
  obtain ⟨-, hword, hpos₁⟩ := ht
  obtain ⟨close, hclose, hpos'⟩ := hclose
  have hrest := Lexeme.keyword_splits _ _ _ _ hword
  rw [Lexeme.keyword_eq hword] at hrest hpos₁
  have hwhole : (before ++ "function".toList) ++ c₁.rest = (close ++ ['\x7d']) ++ c'.rest := by
    rw [List.append_assoc, ← hrest, ← hbefore, hclose]
    simp
  have hlength : byteLength (before ++ "function".toList) ≤ byteLength (close ++ ['\x7d']) := by
    have hskip := c₁.skip_onward.offset_le
    rw [hpos₁, hpos, ← Position.through_append, Position.offset_through] at hskip
    rw [hpos', Position.offset_through] at hle
    omega
  obtain ⟨inside, hinside⟩ := append_of_byteLength_le hwhole hlength
  refine ⟨before, "function".toList ++ inside, c'.rest, ?_, hpos, ?_, List.prefix_append _ _, ?_⟩
  · rw [hbefore, hrest, ← List.append_assoc, hwhole, hinside]
    simp
  · rw [hpos', hinside, List.append_assoc]
  · have hlong : ['\x7d'].length ≤ ("function".toList ++ inside).length := by simp
    refine List.suffix_of_suffix_length_le (List.suffix_append close ['\x7d']) ?_ hlong
    rw [hinside, List.append_assoc]
    exact List.suffix_append before _

/-! ## Laying out -/

/-- The outlines are sound and lie between the two offsets, in order. -/
structure Lies (whole : List Char) (a : Nat) (os : List Outline) (b : Nat) : Prop where
  sound : EachOf (Sound whole) os
  ordered : OrderedIn a os b

namespace Lies

variable {a a' b b' d : Nat} {os qs : List Outline} {s : Span} {m : Mark}

theorem nil (h : a ≤ b) : Lies whole a [] b := ⟨eachOf_nil.mpr trivial, orderedIn_nil.mpr h⟩

theorem append (h : Lies whole a os b) (hb : b ≤ b') (h' : Lies whole b' qs d) :
    Lies whole a (os ++ qs) d :=
  ⟨eachOf_append.mpr ⟨h.sound, h'.sound⟩, h.ordered.append hb h'.ordered⟩

theorem mono (h : Lies whole a os b) (ha : a' ≤ a) (hb : b ≤ b') : Lies whole a' os b' :=
  ⟨h.sound, h.ordered.mono ha hb⟩

/-- A node with its parts. -/
theorem node (hs : Sound whole s m) (hparts : Lies whole s.start.offset os s.stop.offset)
    (ha : a ≤ s.start.offset) (hb : s.stop.offset ≤ b) : Lies whole a [.node s m os] b where
  sound := eachOf_cons.mpr ⟨each_node.mpr ⟨hs, hparts.sound⟩, eachOf_nil.mpr trivial⟩
  ordered := orderedIn_cons.mpr ⟨ha, ordered_node.mpr hparts.ordered, orderedIn_nil.mpr hb⟩

/-- A node that is no function literal. -/
theorem plain (hs : s.Of whole) (hparts : Lies whole s.start.offset os s.stop.offset)
    (ha : a ≤ s.start.offset) (hb : s.stop.offset ≤ b) : Lies whole a [.node s .plain os] b :=
  node ⟨hs, nofun⟩ hparts ha hb

/-- A node without parts. -/
theorem leaf (hs : Between whole a s b) : Lies whole a [.node s .plain []] b :=
  plain hs.of (nil hs.of.le) hs.start hs.stop

theorem span_of {o : Outline} (h : Lies whole a [o] b) : Between whole a o.span b := by
  obtain ⟨s, m, parts⟩ := o
  have hs := (each_node.mp (eachOf_cons.mp h.sound).1).1
  have ho := orderedIn_cons.mp h.ordered
  exact ⟨hs.of, ho.1, orderedIn_nil.mp ho.2.2⟩

end Lies

/-- If there is a tree, it lies between the two offsets. -/
def Covers {α : Type} (whole : List Char) (f : α → List Outline) (a : Nat) (v : Built α) (b : Nat) :
    Prop :=
  ∀ x, v = .ok x → Lies whole a (f x) b

/-- The outline of an expression, on its own. -/
def exprOutline (e : Expr) : List Outline := [e.outline]

/-- The outline of a statement, on its own. -/
def stmtOutline (t : Stmt) : List Outline := [t.outline]

/-- The outline of a declared name, on its own. -/
def declOutline (d : VarDecl) : List Outline := VarDecl.outlines [d]

/-- The outline of a property, on its own. -/
def propertyOutline (p : PropertyDef) : List Outline := PropertyDef.outlines [p]

theorem exprs_outlines (es : List Expr) : Expr.outlines es = es.flatMap exprOutline := by
  induction es with
  | nil => rfl
  | cons e es ih =>
    rw [List.flatMap_cons, ← ih]
    rfl

theorem properties_outlines (ps : List PropertyDef) :
    PropertyDef.outlines ps = ps.flatMap propertyOutline := by
  induction ps with
  | nil => rfl
  | cons p ps ih =>
    obtain ⟨key, value, span⟩ := p
    rw [List.flatMap_cons, ← ih]
    rfl

theorem decls_outlines (ds : List VarDecl) : VarDecl.outlines ds = ds.flatMap declOutline := by
  induction ds with
  | nil => rfl
  | cons d ds ih =>
    obtain ⟨name, init, span⟩ := d
    rw [List.flatMap_cons, ← ih]
    rfl

theorem stmts_outlines (ts : List Stmt) : Stmt.outlines ts = ts.flatMap stmtOutline := by
  induction ts with
  | nil => rfl
  | cons t ts ih =>
    rw [List.flatMap_cons, ← ih]
    rfl

namespace Covers

variable {α β : Type} {f : α → List Outline} {g : β → List Outline} {a a' b b' : Nat}

theorem pure {x : α} (hx : Lies whole a (f x) b) : Covers whole f a (Pure.pure x) b := by
  intro y hy
  cases hy
  exact hx

theorem refuse {cause : BuildCause} {span : Span} : Covers whole f a (refuse cause span) b :=
  fun _ h => nomatch h

theorem bind {v : Built α} {k : α → Built β} (hk : ∀ x, v = .ok x → Covers whole g a (k x) b) :
    Covers whole g a (v >>= k) b := by
  intro y hy
  cases v with
  | error e => cases hy
  | ok x => exact hk x rfl y hy

theorem mono {v : Built α} (h : Covers whole f a v b) (ha : a' ≤ a) (hb : b ≤ b') :
    Covers whole f a' v b' := fun x hx => (h x hx).mono ha hb

end Covers

/-- Trees read one after the other. -/
theorem lies_chain {α : Type} {f : α → List Outline} {a b : Nat} {vs : List (Built α)}
    (h : Chain (Covers whole f) a vs b) {xs : List α} (hxs : vs.mapM id = .ok xs) :
    Lies whole a (xs.flatMap f) b := by
  induction h generalizing xs with
  | nil hle =>
    cases hxs
    exact .nil hle
  | cons hle hv _ ih =>
    obtain ⟨x, ys, hx, hys, rfl⟩ := mapM_id_cons hxs
    rw [List.flatMap_cons]
    exact ((hv x hx).append (Nat.le_refl _) (ih hys)).mono hle (Nat.le_refl _)

/-! ## Merged spans -/

/-- What lies between two offsets lies within its own span. -/
theorem expr_span {e : Expr} {a b : Nat} (he : Lies whole a (exprOutline e) b) :
    Between whole a e.span b ∧ Lies whole e.span.start.offset (exprOutline e) e.span.stop.offset := by
  have hordered := (orderedIn_cons.mp he.ordered).2.1
  have hself : Lies whole e.outline.span.start.offset (exprOutline e) e.outline.span.stop.offset :=
    ⟨he.sound, orderedIn_cons.mpr ⟨Nat.le_refl _, hordered, orderedIn_nil.mpr (Nat.le_refl _)⟩⟩
  have hspan := Lies.span_of he
  rw [Expr.outline_span] at hspan hself
  exact ⟨hspan, hself⟩

/-- A node that covers an operand and what stands behind it. -/
theorem lies_merge {e : Expr} {os : List Outline} {t : Span} {a b d : Nat}
    (he : Lies whole a (exprOutline e) b) (ht : Between whole b t d)
    (hos : Lies whole t.start.offset os t.stop.offset) :
    Lies whole a [.node (e.span.merge t) .plain (e.outline :: os)] d := by
  obtain ⟨hspan, hself⟩ := expr_span he
  have hle : e.span.stop.offset ≤ t.start.offset := Nat.le_trans hspan.stop ht.start
  obtain ⟨hof, hstart, hstop⟩ := hspan.of.merge ht.of hle
  refine Lies.plain hof ?_ ?_ ?_
  · rw [hstart, hstop]
    exact hself.append hle hos
  · rw [hstart]
    exact hspan.start
  · rw [hstop]
    exact ht.stop

/-- A suffix lies between the two offsets. -/
def SuffixCovers (whole : List Char) (a : Nat) : Suffix → Nat → Prop
  | .arguments span args, b => Between whole a span b ∧
      Chain (Covers whole exprOutline) span.start.offset args span.stop.offset
  | .named span _, b => Between whole a span b
  | .computed span key, b => Between whole a span b ∧
      Covers whole exprOutline span.start.offset key span.stop.offset

theorem covers_suffix {e : Expr} {s : Suffix} {a b d : Nat} (he : Lies whole a (exprOutline e) b)
    (hs : SuffixCovers whole b s d) : Covers whole exprOutline a (s.apply e) d := by
  cases s with
  | arguments span args =>
    refine Covers.bind fun es hes => Covers.pure ?_
    rw [exprOutline, Expr.outline, exprs_outlines]
    exact lies_merge he hs.1 (lies_chain hs.2 hes)
  | named span name =>
    refine Covers.pure ?_
    rw [exprOutline, Expr.outline, MemberKey.outlines]
    exact lies_merge he hs (.nil hs.of.le)
  | computed span key =>
    refine Covers.bind fun k hk => Covers.pure ?_
    rw [exprOutline, Expr.outline, MemberKey.outlines]
    exact lies_merge he hs.1 (hs.2 k hk)

theorem covers_chain {base : Built Expr} {ss : List Suffix} {a b d : Nat}
    (hbase : Covers whole exprOutline a base b) (h : Chain (SuffixCovers whole) b ss d) :
    Covers whole exprOutline a (chain base ss) d := by
  refine Covers.bind fun e he => ?_
  have hlies := hbase e he
  clear hbase he
  induction h generalizing e with
  | nil hle => exact Covers.pure (hlies.mono (Nat.le_refl _) hle)
  | cons hle hs _ ih =>
    rw [List.foldlM_cons]
    refine Covers.bind fun e' he' => ih e' ?_
    exact covers_suffix (hlies.mono (Nat.le_refl _) hle) hs e' he'

theorem covers_groupLeft {first : Built Expr} {rest : List (Operator × Built Expr)} {a b d : Nat}
    (hfirst : Covers whole exprOutline a first b)
    (h : Chain (fun n (v : Operator × Built Expr) m => Covers whole exprOutline n v.2 m) b rest d) :
    Covers whole exprOutline a (groupLeft first rest) d := by
  refine Covers.bind fun e he => ?_
  have hlies := hfirst e he
  clear hfirst he
  induction h generalizing e with
  | nil hle => exact Covers.pure (hlies.mono (Nat.le_refl _) hle)
  | @cons _ _ _ _ v _ hle hv _ ih =>
    obtain ⟨op, right⟩ := v
    rw [List.foldlM_cons]
    refine Covers.bind fun e' he' => ih e' ?_
    cases right with
    | error => cases he'
    | ok r =>
      cases he'
      have hright := hv r rfl
      obtain ⟨hspan, hself⟩ := expr_span hright
      have hboth := lies_merge (hlies.mono (Nat.le_refl _) hle) hspan hself
      cases op <;> exact hboth

/-! ## Targets -/

theorem covers_assignNode {op : AssignOp} {target value : Built Expr} {span : Span} {b : Nat}
    (hs : span.Of whole) (ht : Covers whole exprOutline span.start.offset target b)
    (hv : Covers whole exprOutline b value span.stop.offset) :
    Covers whole exprOutline span.start.offset (assignNode op target value span)
      span.stop.offset := by
  refine Covers.bind fun t htarget => ?_
  split
  · refine Covers.bind fun v hvalue => Covers.pure ?_
    exact .plain hs ((ht t htarget).append (Nat.le_refl _) (hv v hvalue)) (Nat.le_refl _)
      (Nat.le_refl _)
  · exact Covers.refuse

theorem covers_updateNode {op : UpdateOp} {before : Bool} {target : Built Expr} {span : Span}
    (hs : span.Of whole) (ht : Covers whole exprOutline span.start.offset target span.stop.offset) :
    Covers whole exprOutline span.start.offset (updateNode op before target span)
      span.stop.offset := by
  refine Covers.bind fun t htarget => ?_
  split
  · exact Covers.pure (.plain hs (ht t htarget) (Nat.le_refl _) (Nat.le_refl _))
  · exact Covers.refuse

/-! ## Rules -/

/-- Expressions at a cursor. -/
abbrev FindsExpr (whole : List Char) (p : Matcher (Built Expr)) : Prop :=
  ∀ c, Finds whole p c (Covers whole exprOutline c.pos.offset)

/-- Statements at a cursor. -/
abbrev FindsStmt (whole : List Char) (p : Matcher (Built Stmt)) : Prop :=
  ∀ c, Finds whole p c (Covers whole stmtOutline c.pos.offset)

/-- What was already matched here is an expression. -/
def Head.Found (whole : List Char) (head : Head) (c : Cursor) : Prop :=
  ∀ reply, head = some reply → Finds whole (fun _ => reply) c (Covers whole exprOutline c.pos.offset)

theorem Head.found_none (c : Cursor) : Head.Found whole none c := fun _ h => nomatch h

/-- Every operator of the tables takes its token off the front of a text. -/
def SplitTables (tables : List (List (Lexeme × Operator))) : Prop :=
  ∀ table ∈ tables, ∀ e ∈ table, e.1.Splits

theorem precedence_splits : SplitTables precedence := by
  simp only [SplitTables, precedence, List.forall_mem_cons, List.not_mem_nil,
    Lexeme.operator_splits, Lexeme.keyword_splits, false_imp_iff, implies_true, and_true]

theorem unaryOps_splits : ∀ e ∈ unaryOps, e.1.Splits := by
  simp only [unaryOps, List.forall_mem_cons, List.not_mem_nil,
    Lexeme.operator_splits, Lexeme.keyword_splits, false_imp_iff, implies_true, and_true]

theorem updateOps_splits : ∀ e ∈ updateOps, e.1.Splits := by
  simp only [updateOps, List.forall_mem_cons, List.not_mem_nil,
    Lexeme.operator_splits, false_imp_iff, implies_true, and_true]

theorem assignOps_splits : ∀ e ∈ assignOps, e.1.Splits := by
  simp only [assignOps, List.forall_mem_cons, List.not_mem_nil,
    Lexeme.operator_splits, false_imp_iff, implies_true, and_true]

/-- Every rule of the grammar, at one depth. -/
structure Laid (whole : List Char) (n : Nat) : Prop where
  expression : FindsExpr whole (expression n)
  assignment : FindsExpr whole (assignment n)
  conditional : ∀ head c, Head.Found whole head c →
    Finds whole (conditional n head) c (Covers whole exprOutline c.pos.offset)
  level : ∀ ops, SplitTables ops → ∀ head c, Head.Found whole head c →
    Finds whole (level n ops head) c (Covers whole exprOutline c.pos.offset)
  exponent : ∀ head c, Head.Found whole head c →
    Finds whole (exponent n head) c (Covers whole exprOutline c.pos.offset)
  unary : ∀ head c, Head.Found whole head c →
    Finds whole (unary n head) c (Covers whole exprOutline c.pos.offset)
  updated : ∀ head c, Head.Found whole head c →
    Finds whole (updated n head) c (Covers whole exprOutline c.pos.offset)
  lhsExpr : FindsExpr whole (lhsExpr n)
  newExpr : FindsExpr whole (newExpr n)
  memberChain : FindsExpr whole (memberChain n)
  arguments : ∀ c, Finds whole (arguments n) c (SuffixCovers whole c.pos.offset)
  arguments_only : ∀ c, Finds whole (Grammar.arguments n) c fun s _ =>
    ∃ span args, s = .arguments span args
  indexMember : ∀ c, Finds whole (indexMember n) c (SuffixCovers whole c.pos.offset)
  primary : FindsExpr whole (primary n)
  property : ∀ c, Finds whole (property n) c (Covers whole propertyOutline c.pos.offset)
  functionExpr : FindsExpr whole (functionExpr n)
  functionBody : ∀ c, Finds whole (functionBody n) c (Covers whole Stmt.outlines c.pos.offset)
  functionBody_closes : ∀ c, Closes whole (Grammar.functionBody n) c
  statement : FindsStmt whole (statement n)
  block : FindsStmt whole (block n)
  varDecl : ∀ c, Finds whole (varDecl n) c (Covers whole declOutline c.pos.offset)
  varStmt : FindsStmt whole (varStmt n)
  letStmt : FindsStmt whole (letStmt n)
  functionDecl : FindsStmt whole (functionDecl n)
  condition : FindsExpr whole (condition n)
  ifStmt : FindsStmt whole (ifStmt n)
  whileStmt : FindsStmt whole (whileStmt n)
  doStmt : FindsStmt whole (doStmt n)
  forTarget : ∀ c, Finds whole (forTarget n) c
    (Covers whole (fun t => [ForTarget.outline t]) c.pos.offset)
  forEachStmt : FindsStmt whole (forEachStmt n)
  forInit : ∀ c, Finds whole (forInit n) c
    (Covers whole (fun i => ForInit.outlines? (some i)) c.pos.offset)
  part : FindsExpr whole (part n)
  forStmt : FindsStmt whole (forStmt n)
  returnStmt : FindsStmt whole (returnStmt n)
  throwStmt : FindsStmt whole (throwStmt n)
  tryStmt : FindsStmt whole (tryStmt n)
  labeledStmt : FindsStmt whole (labeledStmt n)

end Grammar

end Fermata
