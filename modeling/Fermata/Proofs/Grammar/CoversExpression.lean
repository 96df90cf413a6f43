import Fermata.Proofs.Grammar.Covers

/-!
# Expressions cover what they were read from

One lemma for each rule of the grammar that reads an expression: if every rule gives trees that cover what
they were read from at one depth, this rule does at the next one.
-/

namespace Fermata.Grammar

open Matcher Finds Outline

variable {whole : List Char} {n : Nat}

theorem covers_expression (h : Laid whole n) : FindsExpr whole (expression (n + 1)) := by
  intro c
  rw [expression]
  refine Finds.rule (finds_commaList h.assignment n c) fun vs span hspan hstart hvs b hb => ?_
  refine Covers.bind fun es hes => ?_
  have hlies := lies_chain hvs hes
  rw [← hstart] at hlies ⊢
  split
  · refine Covers.pure (Lies.mono ?_ (Nat.le_refl _) hb)
    simpa using hlies
  · refine Covers.pure ?_
    rw [exprOutline, Expr.outline, exprs_outlines]
    exact .plain hspan hlies (Nat.le_refl _) hb

/-- A node that is given the span that it was read from. -/
def CoversSpan {α : Type} (whole : List Char) (f : α → List Outline) (a : Nat)
    (node : Span → Built α) (b : Nat) : Prop :=
  ∀ span, span.Of whole → span.start.offset = a → span.stop.offset = b →
    Covers whole f span.start.offset (node span) span.stop.offset

/-- A rule whose node is given its span. -/
theorem finds_node {α β : Type} {f : β → List Outline} {g : Span → α → Built β} {p : Matcher α}
    {c : Cursor} (hp : Finds whole p c fun v b => CoversSpan whole f c.pos.offset (g · v) b) :
    Finds whole (Matcher.rule p g) c (Covers whole f c.pos.offset) := by
  refine Finds.rule hp fun v span hspan hstart hnode b hb => ?_
  exact (hnode span hspan hstart rfl).mono (Nat.le_of_eq hstart.symm) hb

/-- A node with the span that it was read from. -/
theorem Covers.node {α : Type} {f : α → List Outline} {x : α} {span : Span} {os : List Outline}
    {a b : Nat} (hspan : span.Of whole) (hstart : span.start.offset = a)
    (hstop : span.stop.offset = b) (hx : f x = [.node span .plain os]) (hos : Lies whole a os b) :
    Covers whole f span.start.offset (Pure.pure x) span.stop.offset := by
  subst hstart hstop
  refine Covers.pure ?_
  rw [hx]
  exact .plain hspan hos (Nat.le_refl _) (Nat.le_refl _)

/-- A node that does not care for its span. -/
theorem CoversSpan.plain {α : Type} {f : α → List Outline} {a b : Nat} {v : Built α}
    (hv : Covers whole f a v b) : CoversSpan whole f a (fun _ => v) b :=
  fun _ _ hstart hstop => hv.mono (Nat.le_of_eq hstart) (Nat.le_of_eq hstop.symm)

theorem covers_assignment (h : Laid whole n) : FindsExpr whole (assignment (n + 1)) := by
  intro c
  rw [assignment]
  have hhead : Finds whole (fun _ => lhsExpr n c) c (Covers whole exprOutline c.pos.offset) :=
    fun hc v c' hv => h.lhsExpr c hc v c' hv
  have hfound : Head.Found whole (some (lhsExpr n c)) c := fun reply heq => by
    cases heq
    exact hhead
  have hboth : Finds whole ((Matcher.andThen (fun _ => lhsExpr n c) fun target =>
      (pick assignOps).andThen fun op => (assignment n).map fun value => assignNode op target value).or
        ((conditional n (some (lhsExpr n c))).map fun e _ => e)) c
      (CoversSpan whole exprOutline c.pos.offset) := by
    refine Finds.or (hhead.andThen fun target c₁ h₁ ht => ?_) (Finds.map ?_)
    · refine (finds_pick assignOps_splits c₁).andThen fun op c₂ h₂ _ => Finds.map ?_
      refine (h.assignment c₂).weaken fun value b _ hv span hspan hstart hstop => ?_
      refine covers_assignNode hspan (b := c₁.pos.offset) ?_ ?_
      · exact ht.mono (Nat.le_of_eq hstart) (Nat.le_refl _)
      · exact hv.mono h₂ (Nat.le_of_eq hstop.symm)
    · exact (h.conditional _ c hfound).weaken fun e b _ he => .plain he
  exact finds_node fun hc v c' hv => hboth hc v c' hv

theorem covers_conditional (h : Laid whole n) (head : Head) (c : Cursor)
    (hhead : Head.Found whole head c) :
    Finds whole (conditional (n + 1) head) c (Covers whole exprOutline c.pos.offset) := by
  rw [conditional]
  refine finds_node ((h.level precedence precedence_splits head c hhead).andThen
    fun test c₁ h₁ ht => Finds.map (Finds.optional ?_ fun b hb => ?_))
  · refine (finds_sym "?" c₁).andThen fun _ c₂ h₂ _ => (h.assignment c₂).andThen
      fun yes c₃ h₃ hyes => ?_
    refine (finds_sym ":" c₃).before fun c₄ h₄ => Finds.map ?_
    refine (h.assignment c₄).weaken fun no b _ hno span hspan hstart hstop => ?_
    refine Covers.bind fun t htest => Covers.bind fun y hy => Covers.bind fun e he =>
      Covers.node hspan hstart hstop rfl ?_
    exact (ht t htest).append h₂ ((hyes y hy).append h₄ (hno e he))
  · exact .plain (ht.mono (Nat.le_refl _) hb)

theorem covers_level (h : Laid whole n) (ops : List (List (Lexeme × Operator)))
    (hops : SplitTables ops) (head : Head) (c : Cursor) (hhead : Head.Found whole head c) :
    Finds whole (level (n + 1) ops head) c (Covers whole exprOutline c.pos.offset) := by
  cases ops with
  | nil =>
    rw [level]
    exact h.exponent head c hhead
  | cons ops tighter =>
    have htighter : SplitTables tighter := fun table ht => hops table (List.mem_cons_of_mem _ ht)
    rw [level]
    refine Finds.rule_plain ((h.level tighter htighter head c hhead).andThen
      fun first c₁ h₁ hfirst => Finds.map ?_)
    refine (Finds.many (Q := fun a (v : Operator × Built Expr) b => ∃ a', a ≤ a' ∧
      Covers whole exprOutline a' v.2 b) (fun c₂ => ?_) n c₁).weaken fun rest b _ hrest =>
        covers_groupLeft hfirst (Chain.slack (Q := fun a (v : Operator × Built Expr) b =>
          Covers whole exprOutline a v.2 b) hrest)
    refine (finds_pick (hops ops List.mem_cons_self) c₂).andThen fun op c₃ h₃ _ => Finds.map ?_
    exact (h.level tighter htighter none c₃ (Head.found_none c₃)).weaken fun e b _ he =>
      ⟨_, h₃, he⟩

theorem covers_exponent (h : Laid whole n) (head : Head) (c : Cursor)
    (hhead : Head.Found whole head c) :
    Finds whole (exponent (n + 1) head) c (Covers whole exprOutline c.pos.offset) := by
  rw [exponent]
  refine finds_node ((h.unary head c hhead).andThen fun base c₁ h₁ hbase =>
    Finds.map (Finds.optional ?_ fun b hb => .plain (hbase.mono (Nat.le_refl _) hb)))
  refine (Finds.token (Lexeme.operator_splits _ _) c₁).before fun c₂ h₂ => ?_
  refine (h.exponent none c₂ (Head.found_none c₂)).weaken fun e b _ he span hspan hstart hstop => ?_
  refine Covers.bind fun x hx => Covers.bind fun y hy => Covers.node hspan hstart hstop rfl ?_
  exact (hbase x hx).append h₂ (he y hy)

theorem covers_unary (h : Laid whole n) (head : Head) (c : Cursor)
    (hhead : Head.Found whole head c) :
    Finds whole (unary (n + 1) head) c (Covers whole exprOutline c.pos.offset) := by
  rw [unary]
  refine finds_node (Finds.firstOf_cons ?_ (Finds.firstOf_cons ?_ (Finds.firstOf_cons ?_ fail)))
  · refine (Finds.rule_plain (finds_pick unaryOps_splits c)).andThen fun op c₁ h₁ _ => Finds.map ?_
    refine (h.unary none c₁ (Head.found_none c₁)).weaken fun arg b _ harg span hspan hstart hstop => ?_
    refine Covers.bind fun a ha => Covers.node hspan hstart hstop rfl ?_
    exact (harg a ha).mono h₁ (Nat.le_refl _)
  · refine (finds_pick updateOps_splits c).andThen fun op c₁ h₁ _ => Finds.map ?_
    refine (h.unary none c₁ (Head.found_none c₁)).weaken fun target b _ ht span hspan hstart hstop => ?_
    refine covers_updateNode hspan ?_
    rw [hstart, hstop]
    exact ht.mono h₁ (Nat.le_refl _)
  · exact Finds.map ((h.updated head c hhead).weaken fun e b _ he => .plain he)

theorem covers_updated (h : Laid whole n) (head : Head) (c : Cursor)
    (hhead : Head.Found whole head c) :
    Finds whole (updated (n + 1) head) c (Covers whole exprOutline c.pos.offset) := by
  rw [updated]
  have hgiven : Finds whole (given head (lhsExpr n)) c (Covers whole exprOutline c.pos.offset) := by
    cases head with
    | none => exact h.lhsExpr c
    | some reply => exact hhead reply rfl
  refine finds_node (hgiven.andThen fun target c₁ h₁ ht =>
    Finds.map (Finds.optional ?_ fun b hb => .plain (ht.mono (Nat.le_refl _) hb)))
  refine (finds_pick updateOps_splits c₁).weaken fun op b hb _ span hspan hstart hstop => ?_
  refine covers_updateNode hspan ?_
  rw [hstart, hstop]
  exact ht.mono (Nat.le_refl _) hb

/-! ## Operands -/

theorem between_rule {c : Cursor} {span : Span} (hspan : span.Of whole)
    (hstart : span.start.offset = c.pos.offset) {b : Nat} (hb : span.stop.offset ≤ b) :
    Between whole c.pos.offset span b := ⟨hspan, Nat.le_of_eq hstart.symm, hb⟩

theorem covers_dotMember (c : Cursor) :
    Finds whole dotMember c (SuffixCovers whole c.pos.offset) := by
  refine Finds.rule (T := fun _ _ => True) ?_ fun t span hspan hstart _ b hb =>
    between_rule hspan hstart hb
  exact (finds_sym "." c).before fun c₁ _ =>
    (Finds.token Lexeme.word_splits c₁).weaken fun _ _ _ _ => trivial

theorem covers_lhsExpr (h : Laid whole n) : FindsExpr whole (lhsExpr (n + 1)) := by
  intro c
  rw [lhsExpr]
  refine Finds.rule_plain (((h.newExpr c).or (h.primary c)).andThen fun base c₁ _ hbase =>
    Finds.map ((Finds.many (fun c₂ => ?_) n c₁).weaken fun ss b _ hss => covers_chain hbase hss))
  exact Finds.firstOf_cons (h.arguments c₂)
    (Finds.firstOf_cons (covers_dotMember c₂) (Finds.firstOf_cons (h.indexMember c₂) fail))

theorem covers_newExpr (h : Laid whole n) : FindsExpr whole (newExpr (n + 1)) := by
  intro c
  rw [newExpr]
  refine finds_node ((finds_kw "new" c).andThen fun _ c₁ h₁ _ => ?_)
  refine (h.memberChain c₁).andThen fun callee c₂ h₂ hcallee => Finds.map ?_
  refine Finds.optional (fun hc v c' hv => ?_) fun b hb span hspan hstart hstop => ?_
  · obtain ⟨hc', hle, hcovers⟩ := h.arguments c₂ hc v c' hv
    refine ⟨hc', hle, fun b hb span hspan hstart hstop => ?_⟩
    obtain ⟨-, -, honly⟩ := h.arguments_only c₂ hc v c' hv
    obtain ⟨span', args, rfl⟩ := honly b hb
    obtain ⟨hbetween, hargs⟩ := hcovers b hb
    refine Covers.bind fun e he => Covers.bind fun es hes => Covers.node hspan hstart hstop rfl ?_
    rw [exprs_outlines]
    have hargs := (lies_chain hargs hes).mono hbetween.start hbetween.stop
    exact ((hcallee e he).append (Nat.le_refl _) hargs).mono h₁ (Nat.le_refl _)
  · refine Covers.bind fun e he => Covers.node hspan hstart hstop rfl ?_
    exact (hcallee e he).mono h₁ hb

theorem covers_memberChain (h : Laid whole n) : FindsExpr whole (memberChain (n + 1)) := by
  intro c
  rw [memberChain]
  refine Finds.rule_plain ((h.primary c).andThen fun base c₁ _ hbase =>
    Finds.map ((Finds.many (fun c₂ => ?_) n c₁).weaken fun ss b _ hss => covers_chain hbase hss))
  exact (covers_dotMember c₂).or (h.indexMember c₂)

theorem covers_arguments (h : Laid whole n) (c : Cursor) :
    Finds whole (arguments (n + 1)) c (SuffixCovers whole c.pos.offset) := by
  rw [arguments]
  refine Finds.rule (finds_bracketed h.assignment n "(" ")" c)
    fun args span hspan hstart hargs b hb => ⟨between_rule hspan hstart hb, ?_⟩
  rw [hstart]
  exact hargs

theorem arguments_found (h : Laid whole n) (c : Cursor) :
    Finds whole (arguments (n + 1)) c fun s _ => ∃ span args, s = .arguments span args := by
  rw [arguments]
  exact Finds.rule (finds_bracketed h.assignment n "(" ")" c) fun args span _ _ _ _ _ =>
    ⟨span, args, rfl⟩

theorem covers_indexMember (h : Laid whole n) (c : Cursor) :
    Finds whole (indexMember (n + 1)) c (SuffixCovers whole c.pos.offset) := by
  rw [indexMember]
  refine Finds.rule (T := Covers whole exprOutline c.pos.offset) ?_
    fun key span hspan hstart hkey b hb => ⟨between_rule hspan hstart hb, ?_⟩
  · refine (finds_sym "[" c).andThen fun _ c₁ h₁ _ => ?_
    exact ((h.expression c₁).closedBy (finds_sym "]")).weaken fun key b _ hkey =>
      hkey.mono h₁ (Nat.le_refl _)
  · rw [hstart]
    exact hkey

/-- What a token stands for is a leaf with the span of the token. -/
theorem covers_leaf {l : Lexeme} (hl : l.Splits) {f : Token → Built Expr} (c : Cursor)
    (hf : ∀ t e, f t = .ok e → ∃ m, e.outline = .node t.span m [] ∧ ∀ id, m ≠ .function id) :
    Finds whole ((Matcher.token l).map f) c (Covers whole exprOutline c.pos.offset) := by
  refine Finds.map ((Finds.token hl c).weaken fun t b _ ht e he => ?_)
  obtain ⟨m, hm, hne⟩ := hf t e he
  rw [exprOutline, hm]
  exact .node ⟨ht.of, fun id hid => absurd hid (hne id)⟩ (.nil ht.of.le) ht.start ht.stop

theorem covers_literal : FindsExpr whole literal := by
  intro c
  refine Finds.rule_plain ?_
  refine Finds.firstOf_cons (covers_leaf Lexeme.number_splits c fun t e he => ?_) <|
    Finds.firstOf_cons (covers_leaf Lexeme.string_splits c fun t e he => ?_) <|
    Finds.firstOf_cons (covers_leaf (Lexeme.keyword_splits _) c fun t e he => ?_) <|
    Finds.firstOf_cons (covers_leaf (Lexeme.keyword_splits _) c fun t e he => ?_) <|
    Finds.firstOf_cons (covers_leaf (Lexeme.keyword_splits _) c fun t e he => ?_) fail
  · cases hv : numberValue t t.span with
    | error x =>
      rw [hv] at he
      cases he
    | ok x =>
      rw [hv] at he
      cases he
      exact ⟨.number x, rfl, nofun⟩
  all_goals
    cases he
    exact ⟨.plain, rfl, nofun⟩

theorem covers_nameExpr : FindsExpr whole nameExpr := fun c =>
  Finds.map ((finds_ident c).weaken fun _ _ _ ht => Covers.pure (.leaf ht))

theorem covers_primary (h : Laid whole n) : FindsExpr whole (primary (n + 1)) := by
  intro c
  rw [primary]
  refine Finds.rule_plain ?_
  refine Finds.firstOf_cons (h.functionExpr c) <| Finds.firstOf_cons ?this <|
    Finds.firstOf_cons (covers_literal c) <| Finds.firstOf_cons (covers_nameExpr c) <|
    Finds.firstOf_cons ?array <| Finds.firstOf_cons ?object <|
    Finds.firstOf_cons (Finds.rule_plain ?parens) fail
  case this =>
    refine covers_leaf (Lexeme.keyword_splits _) c fun t e he => ?_
    cases he
    exact ⟨.plain, rfl, nofun⟩
  case array =>
    refine finds_node ((finds_bracketed h.assignment n "[" "]" c).weaken
      fun vs b _ hvs span hspan hstart hstop => ?_)
    refine Covers.bind fun es hes => Covers.node hspan hstart hstop rfl ?_
    rw [exprs_outlines]
    exact lies_chain hvs hes
  case object =>
    refine finds_node ((finds_bracketed h.property n "\x7b" "\x7d" c).weaken
      fun vs b _ hvs span hspan hstart hstop => ?_)
    refine Covers.bind fun ps hps => Covers.node hspan hstart hstop rfl ?_
    rw [properties_outlines]
    exact lies_chain hvs hps
  case parens =>
    refine (finds_sym "(" c).andThen fun _ c₁ h₁ _ => ?_
    exact ((h.expression c₁).closedBy (finds_sym ")")).weaken fun e b _ he =>
      he.mono h₁ (Nat.le_refl _)

theorem finds_propertyKey (c : Cursor) : Finds whole propertyKey c fun _ _ => True := by
  refine Finds.rule_plain ?_
  exact Finds.firstOf_cons (Finds.map
      ((Finds.token Lexeme.string_splits c).weaken fun _ _ _ _ => trivial)) <|
    Finds.firstOf_cons (Finds.map
      ((Finds.token Lexeme.number_splits c).weaken fun _ _ _ _ => trivial)) <|
    Finds.firstOf_cons (Finds.map
      ((Finds.token Lexeme.word_splits c).weaken fun _ _ _ _ => trivial)) fail

theorem covers_property (h : Laid whole n) (c : Cursor) :
    Finds whole (property (n + 1)) c (Covers whole propertyOutline c.pos.offset) := by
  rw [property]
  refine finds_node (Finds.or ?_ (Finds.map ?_))
  · refine ((finds_propertyKey c).closedBy (finds_sym ":")).andThen fun key c₁ h₁ _ => Finds.map ?_
    refine (h.assignment c₁).weaken fun value b _ hv span hspan hstart hstop => ?_
    refine Covers.bind fun k hk => Covers.bind fun e he => Covers.node hspan hstart hstop rfl ?_
    exact (hv e he).mono h₁ (Nat.le_refl _)
  · refine (finds_ident c).weaken fun t b _ _ span hspan hstart hstop => Covers.pure ?_
    exact .plain hspan (.leaf ⟨hspan, Nat.le_refl _, Nat.le_refl _⟩) (Nat.le_refl _) (Nat.le_refl _)

/-! ## Functions -/

theorem finds_params (c : Cursor) : Finds whole (params n) c fun _ _ => True := by
  refine Finds.rule_plain ((finds_sym "(" c).andThen fun _ c₁ _ _ => ?_)
  refine Finds.closedBy (Finds.optional ?_ fun _ _ => trivial) (finds_sym ")")
  exact (finds_commaList (Q := fun _ _ _ => True)
    (fun c₂ => (finds_ident c₂).weaken fun _ _ _ _ => trivial) n c₁).weaken fun _ _ _ _ => trivial

theorem covers_functionBody (h : Laid whole n) (c : Cursor) :
    Finds whole (functionBody (n + 1)) c (Covers whole Stmt.outlines c.pos.offset) := by
  rw [functionBody]
  refine Finds.rule_plain ((finds_sym "\x7b" c).andThen fun _ c₁ h₁ _ => ?_)
  refine ((Finds.many h.statement n c₁).closedBy (finds_sym "\x7d")).weaken fun vs b _ hvs ts hts => ?_
  rw [stmts_outlines]
  exact (lies_chain hvs hts).mono h₁ (Nat.le_refl _)

/-- A closing brace. -/
theorem sym_closes (c : Cursor) : Closes whole (sym "\x7d") c := by
  intro hc
  obtain ⟨before, hbefore, hpos⟩ := id hc
  refine (Lands.text _ c).weaken (fun _ c' _ _ h => ⟨before, ?_, ?_⟩) hc
  · rw [hbefore, h.1]
    rfl
  · rw [h.2, hpos, Position.through_append]
    rfl

theorem functionBody_closes (h : Laid whole n) (c : Cursor) :
    Closes whole (functionBody (n + 1)) c := by
  rw [functionBody]
  refine Lands.rule ((Lands.text _ c).andThen fun _ c₁ _ _ => ?_)
  refine Lands.andThen (Finds.many h.statement n c₁.skip) fun vs c₂ _ _ => Lands.map ?_
  exact (sym_closes c₂.skip).weaken fun _ _ _ _ hclose _ => hclose

/-- What a function literal is read as: a span in braces, and a body that lies in it. -/
theorem lands_function {α : Type} (h : Laid whole n) {name : Matcher α}
    (hname : ∀ c, Finds whole name c fun _ _ => True) (c : Cursor) :
    Lands whole ((kw "function").andThen fun _ => name.andThen fun name =>
        (params n).andThen fun ps => (functionBody n).map fun body => (name, ps, body)) c
      fun v c' => Span.Braced whole ⟨c.pos, c'.pos⟩ ∧
        Covers whole Stmt.outlines c.pos.offset v.2.2 c'.pos.offset := by
  have hbody : Finds whole ((kw "function").andThen fun _ => name.andThen fun name =>
      (params n).andThen fun ps => (functionBody n).map fun body => (name, ps, body)) c
      fun v b => Covers whole Stmt.outlines c.pos.offset v.2.2 b := by
    refine (finds_kw "function" c).andThen fun _ c₁ h₁ _ => (hname c₁).andThen fun _ c₂ h₂ _ => ?_
    refine (finds_params c₂).andThen fun ps c₃ h₃ _ => Finds.map ?_
    exact (h.functionBody c₃).weaken fun body b _ hbody =>
      hbody.mono (Nat.le_trans h₁ (Nat.le_trans h₂ h₃)) (Nat.le_refl _)
  refine (lands_braced (fun _ c₁ => ?_) c).and (Lands.weaken hbody fun _ _ _ _ h => h _ (Nat.le_refl _))
  refine Lands.andThen (hname c₁) fun _ c₂ _ _ => Lands.andThen (finds_params c₂.skip) fun _ c₃ _ _ => ?_
  exact Lands.map (h.functionBody_closes c₃.skip)

/-- A function literal, and the node that holds it. -/
theorem lies_function {span : Span} {id : Nat} {os : List Outline} {b : Nat} (hspan : span.Of whole)
    (hbraced : span.Braced whole) (hos : Lies whole span.start.offset os span.stop.offset)
    (hb : span.stop.offset ≤ b) :
    Lies whole span.start.offset [.node span .plain [.node span (.function id) os]] b :=
  .plain hspan (.node ⟨hspan, fun _ _ => hbraced⟩ hos (Nat.le_refl _) (Nat.le_refl _))
    (Nat.le_refl _) hb

theorem covers_functionExpr (h : Laid whole n) : FindsExpr whole (functionExpr (n + 1)) := by
  intro c
  rw [functionExpr]
  have hname : ∀ c, Finds whole (Matcher.optional ident) c fun _ _ => True := fun c =>
    Finds.optional ((finds_ident c).weaken fun _ _ _ _ => trivial) fun _ _ => trivial
  refine Lands.rule ((lands_function h hname { c with nextFunction := c.nextFunction + 1 }).weaken
    fun v c' hc' hle hv hspan b hb => ?_)
  obtain ⟨hbraced, hbody⟩ := hv
  refine Covers.bind fun ts hts => Covers.pure ?_
  exact lies_function hspan hbraced (hbody ts hts) hb

end Fermata.Grammar
