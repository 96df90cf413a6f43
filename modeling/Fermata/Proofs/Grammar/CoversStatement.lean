import Fermata.Proofs.Grammar.CoversExpression

/-!
# Statements cover what they were read from

One lemma for each rule of the grammar that reads a statement, and all rules taken together.

* `Grammar.laid`: every rule gives trees that cover what they were read from, at every depth.
* `Grammar.parse_covers`: so does a whole text.
-/

namespace Fermata.Grammar

open Matcher Finds Outline

variable {whole : List Char} {n : Nat}

theorem finds_semicolon (c : Cursor) :
    Finds whole (Matcher.optional (sym ";")) c fun _ _ => True :=
  Finds.optional (finds_sym ";" c) fun _ _ => trivial

theorem covers_block (h : Laid whole n) : FindsStmt whole (block (n + 1)) := by
  intro c
  rw [block]
  refine finds_node ((finds_sym "\x7b" c).andThen fun _ c₁ h₁ _ => ?_)
  refine ((Finds.many h.statement n c₁).closedBy (finds_sym "\x7d")).weaken
    fun vs b _ hvs span hspan hstart hstop => ?_
  refine Covers.bind fun ts hts => Covers.node hspan hstart hstop rfl ?_
  rw [stmts_outlines]
  exact (lies_chain hvs hts).mono h₁ (Nat.le_refl _)

theorem covers_varDecl (h : Laid whole n) (c : Cursor) :
    Finds whole (varDecl (n + 1)) c (Covers whole declOutline c.pos.offset) := by
  rw [varDecl]
  refine finds_node ((finds_ident c).andThen fun t c₁ h₁ _ => Finds.map (Finds.optional ?_ ?_))
  · refine (finds_sym "=" c₁).andThen fun _ c₂ h₂ _ => (Finds.notNext '=' c₂).before fun c₃ h₃ => ?_
    refine (h.assignment c₃).weaken fun v b _ hv span hspan hstart hstop => ?_
    refine Covers.bind fun e he => Covers.node hspan hstart hstop rfl ?_
    exact (hv e he).mono (Nat.le_trans h₁ (Nat.le_trans h₂ h₃)) (Nat.le_refl _)
  · intro b hb span hspan hstart hstop
    exact Covers.node hspan hstart hstop rfl (.nil (Nat.le_trans h₁ hb))

theorem covers_varStmt (h : Laid whole n) : FindsStmt whole (varStmt (n + 1)) := by
  intro c
  rw [varStmt]
  refine finds_node ((finds_kw "var" c).andThen fun _ c₁ h₁ _ => ?_)
  refine ((finds_commaList h.varDecl n c₁).closedBy finds_semicolon).weaken
    fun vs b _ hvs span hspan hstart hstop => ?_
  refine Covers.bind fun ds hds => Covers.node hspan hstart hstop rfl ?_
  rw [decls_outlines]
  exact (lies_chain hvs hds).mono h₁ (Nat.le_refl _)

theorem covers_letStmt (h : Laid whole n) : FindsStmt whole (letStmt (n + 1)) := by
  intro c
  rw [letStmt]
  refine Finds.rule (T := fun _ _ => True) ?_ fun _ _ _ _ _ _ _ => Covers.refuse
  refine Finds.andThen ((finds_kw "let" c).or (finds_kw "const" c)) fun _ c₁ _ _ => ?_
  exact ((finds_commaList h.varDecl n c₁).closedBy finds_semicolon).weaken fun _ _ _ _ => trivial

theorem covers_functionDecl (h : Laid whole n) : FindsStmt whole (functionDecl (n + 1)) := by
  intro c
  rw [functionDecl]
  have hname : ∀ c, Finds whole ident c fun _ _ => True := fun c =>
    (finds_ident c).weaken fun _ _ _ _ => trivial
  refine Lands.rule ((lands_function h hname { c with nextFunction := c.nextFunction + 1 }).weaken
    fun v c' _ _ hv hspan b hb => ?_)
  obtain ⟨hbraced, hbody⟩ := hv
  refine Covers.bind fun ts hts => Covers.pure ?_
  exact lies_function hspan hbraced (hbody ts hts) hb

theorem covers_condition (h : Laid whole n) : FindsExpr whole (condition (n + 1)) := by
  intro c
  rw [condition]
  refine (finds_sym "(" c).andThen fun _ c₁ h₁ _ => ?_
  exact ((h.expression c₁).closedBy (finds_sym ")")).weaken fun e b _ he =>
    he.mono h₁ (Nat.le_refl _)

theorem covers_ifStmt (h : Laid whole n) : FindsStmt whole (ifStmt (n + 1)) := by
  intro c
  rw [ifStmt]
  refine finds_node ((finds_kw "if" c).andThen fun _ c₁ h₁ _ => ?_)
  refine (h.condition c₁).andThen fun test c₂ _ htest => ?_
  refine (h.statement c₂).andThen fun yes c₃ _ hyes =>
    Finds.map (Finds.optional (Finds.rule_plain ?_) ?_)
  · refine (finds_kw "else" c₃).before fun c₄ h₄ => ?_
    refine (h.statement c₄).weaken fun no b _ hno span hspan hstart hstop => ?_
    refine Covers.bind fun t ht => Covers.bind fun y hy => Covers.bind fun e he =>
      Covers.node hspan hstart hstop rfl ?_
    have hyes := (hyes y hy).append h₄ (hno e he)
    exact ((htest t ht).append (Nat.le_refl _) hyes).mono h₁ (Nat.le_refl _)
  · intro b hb span hspan hstart hstop
    refine Covers.bind fun t ht => Covers.bind fun y hy => Covers.node hspan hstart hstop rfl ?_
    exact ((htest t ht).append (Nat.le_refl _) (hyes y hy)).mono h₁ hb

theorem covers_whileStmt (h : Laid whole n) : FindsStmt whole (whileStmt (n + 1)) := by
  intro c
  rw [whileStmt]
  refine finds_node ((finds_kw "while" c).andThen fun _ c₁ h₁ _ => ?_)
  refine (h.condition c₁).andThen fun test c₂ _ htest => Finds.map ?_
  refine (h.statement c₂).weaken fun body b _ hbody span hspan hstart hstop => ?_
  refine Covers.bind fun t ht => Covers.bind fun y hy => Covers.node hspan hstart hstop rfl ?_
  exact ((htest t ht).append (Nat.le_refl _) (hbody y hy)).mono h₁ (Nat.le_refl _)

theorem covers_doStmt (h : Laid whole n) : FindsStmt whole (doStmt (n + 1)) := by
  intro c
  rw [doStmt]
  refine finds_node ((finds_kw "do" c).andThen fun _ c₁ h₁ _ => ?_)
  refine (h.statement c₁).andThen fun body c₂ _ hbody => ?_
  refine (finds_kw "while" c₂).andThen fun _ c₃ h₃ _ => ?_
  refine Finds.closedBy (Finds.map ((h.condition c₃).weaken
    fun test b _ htest span hspan hstart hstop => ?_)) finds_semicolon
  refine Covers.bind fun y hy => Covers.bind fun t ht => Covers.node hspan hstart hstop rfl ?_
  exact ((hbody y hy).append h₃ (htest t ht)).mono h₁ (Nat.le_refl _)

theorem covers_forTarget (h : Laid whole n) (c : Cursor) :
    Finds whole (forTarget (n + 1)) c
      (Covers whole (fun t => [ForTarget.outline t]) c.pos.offset) := by
  rw [forTarget]
  refine finds_node (Finds.or (Finds.map ?_) (Finds.map ?_))
  · refine (finds_kw "var" c).before fun c₁ h₁ => ?_
    refine (finds_ident c₁).weaken fun t b hb _ span hspan hstart hstop => ?_
    exact Covers.node hspan hstart hstop rfl (.nil (Nat.le_trans h₁ hb))
  · refine (h.lhsExpr c).weaken fun v b _ hv span _ hstart hstop => Covers.bind fun e he => ?_
    split
    · exact Covers.pure ((hv e he).mono (Nat.le_of_eq hstart) (Nat.le_of_eq hstop.symm))
    · exact Covers.refuse

theorem covers_forEachStmt (h : Laid whole n) : FindsStmt whole (forEachStmt (n + 1)) := by
  intro c
  rw [forEachStmt]
  refine finds_node ((finds_kw "for" c).andThen fun _ c₁ h₁ _ => ?_)
  refine (finds_sym "(" c₁).andThen fun _ c₂ h₂ _ => ?_
  refine (h.forTarget c₂).andThen fun target c₃ _ htarget => ?_
  refine Finds.andThen (T := fun _ _ => True)
    ((Finds.map ((finds_kw "of" c₃).weaken fun _ _ _ _ => trivial)).or
      (Finds.map ((finds_kw "in" c₃).weaken fun _ _ _ _ => trivial))) fun kind c₄ h₄ _ => ?_
  refine (h.expression c₄).andThen fun source c₅ _ hsource => ?_
  refine (finds_sym ")" c₅).andThen fun _ c₆ h₆ _ => Finds.map ?_
  refine (h.statement c₆).weaken fun body b _ hbody span hspan hstart hstop => ?_
  refine Covers.bind fun t ht => Covers.bind fun e he => Covers.bind fun y hy =>
    Covers.node hspan hstart hstop rfl ?_
  have hsource := (hsource e he).append h₆ (hbody y hy)
  exact ((htarget t ht).append h₄ hsource).mono (Nat.le_trans h₁ h₂) (Nat.le_refl _)

theorem covers_forInit (h : Laid whole n) (c : Cursor) :
    Finds whole (forInit (n + 1)) c
      (Covers whole (fun i => ForInit.outlines? (some i)) c.pos.offset) := by
  rw [forInit]
  refine Finds.rule_plain (Finds.or (Finds.rule_plain ?_) (Finds.map ?_))
  · refine (finds_kw "var" c).before fun c₁ h₁ => ?_
    refine (finds_commaList h.varDecl n c₁).weaken fun vs b _ hvs => ?_
    refine Covers.bind fun ds hds => Covers.pure ?_
    rw [ForInit.outlines?, decls_outlines]
    exact (lies_chain hvs hds).mono h₁ (Nat.le_refl _)
  · refine (h.expression c).weaken fun v b _ hv => Covers.bind fun e he => Covers.pure ?_
    exact hv e he

theorem covers_part (h : Laid whole n) : FindsExpr whole (part (n + 1)) := by
  intro c
  rw [part]
  exact Finds.rule_plain (h.expression c)

/-- What is read if it is there. -/
theorem finds_optional {α : Type} {p : Matcher (Built α)} {c : Cursor} {f : α → List Outline}
    (hp : Finds whole p c (Covers whole f c.pos.offset)) :
    Finds whole (Matcher.optional p) c fun v b => ∀ x, v.mapM id = .ok x →
      Lies whole c.pos.offset (x.elim [] f) b := by
  refine Finds.optional (hp.weaken fun v b _ hv x hx => ?_) fun b hb x hx => ?_
  · cases v with
    | error e => cases hx
    | ok y =>
      cases hx
      exact hv y rfl
  · cases hx
    exact .nil hb

theorem optionalExpr_outlines (e : Option Expr) : Expr.outlines? e = e.elim [] exprOutline := by
  cases e <;> rfl

theorem optionalStmt_outlines (t : Option Stmt) : Stmt.outlines? t = t.elim [] stmtOutline := by
  cases t <;> rfl

theorem optionalInit_outlines (i : Option ForInit) :
    ForInit.outlines? i = i.elim [] fun i => ForInit.outlines? (some i) := by
  cases i <;> rfl

theorem covers_forStmt (h : Laid whole n) : FindsStmt whole (forStmt (n + 1)) := by
  intro c
  rw [forStmt]
  refine finds_node ((finds_kw "for" c).andThen fun _ c₁ h₁ _ => ?_)
  refine (finds_sym "(" c₁).andThen fun _ c₂ h₂ _ => ?_
  refine ((finds_optional (h.forInit c₂)).closedBy (finds_sym ";")).andThen fun init c₃ _ hinit => ?_
  refine ((finds_optional (h.part c₃)).closedBy (finds_sym ";")).andThen fun test c₄ _ htest => ?_
  refine ((finds_optional (h.part c₄)).closedBy (finds_sym ")")).andThen fun update c₅ _ hupdate => ?_
  refine Finds.map ((h.statement c₅).weaken fun body b _ hbody span hspan hstart hstop => ?_)
  refine Covers.bind fun i hi => Covers.bind fun t ht => Covers.bind fun u hu =>
    Covers.bind fun y hy => Covers.node hspan hstart hstop rfl ?_
  rw [optionalInit_outlines, optionalExpr_outlines, optionalExpr_outlines]
  have hhead := (hinit i hi).append (Nat.le_refl _) (htest t ht)
  have hparts := (hhead.append (Nat.le_refl _) (hupdate u hu)).append (Nat.le_refl _) (hbody y hy)
  exact hparts.mono (Nat.le_trans h₁ h₂) (Nat.le_refl _)

theorem covers_returnStmt (h : Laid whole n) : FindsStmt whole (returnStmt (n + 1)) := by
  intro c
  rw [returnStmt]
  refine finds_node ((finds_kw "return" c).andThen fun _ c₁ h₁ _ => ?_)
  refine ((finds_optional (h.expression c₁)).closedBy finds_semicolon).weaken
    fun arg b _ harg span hspan hstart hstop => ?_
  refine Covers.bind fun e he => Covers.node hspan hstart hstop rfl ?_
  rw [optionalExpr_outlines]
  exact (harg e he).mono h₁ (Nat.le_refl _)

theorem covers_throwStmt (h : Laid whole n) : FindsStmt whole (throwStmt (n + 1)) := by
  intro c
  rw [throwStmt]
  refine finds_node ((finds_kw "throw" c).andThen fun _ c₁ h₁ _ => ?_)
  refine ((h.expression c₁).closedBy finds_semicolon).weaken
    fun arg b _ harg span hspan hstart hstop => ?_
  refine Covers.bind fun e he => Covers.node hspan hstart hstop rfl ?_
  exact (harg e he).mono h₁ (Nat.le_refl _)

theorem covers_labeledStmt (h : Laid whole n) : FindsStmt whole (labeledStmt (n + 1)) := by
  intro c
  rw [labeledStmt]
  refine finds_node (((finds_ident c).closedBy (finds_sym ":")).andThen fun label c₁ h₁ _ => ?_)
  refine Finds.map ((h.statement c₁).weaken fun body b _ hbody span hspan hstart hstop => ?_)
  refine Covers.bind fun y hy => Covers.node hspan hstart hstop rfl ?_
  exact (hbody y hy).mono h₁ (Nat.le_refl _)

theorem covers_jump (k : String) (node : Span → Option String → Stmt)
    (hnode : ∀ span label, stmtOutline (node span label) = [.node span .plain []]) :
    FindsStmt whole (jump k node) := by
  intro c
  have hlabel : Finds whole ((kw k).tight fun _ => Matcher.optional ((Matcher.silent .inlineBlanks).tight
      fun _ => ident)) c fun _ b => c.pos.offset ≤ b := by
    refine (finds_kw k c).tight fun _ c₁ h₁ _ => ?_
    refine Finds.optional ?_ fun b hb => Nat.le_trans h₁ hb
    refine (Finds.silent Lexeme.inlineBlanks_splits c₁).tight fun _ c₂ h₂ _ => ?_
    exact (finds_ident c₂).weaken fun _ b hb _ => Nat.le_trans h₁ (Nat.le_trans h₂ hb)
  refine finds_node (Finds.closedBy (Finds.rule_plain (hlabel.weaken
    fun label b _ hb span hspan hstart hstop => ?_)) finds_semicolon)
  exact Covers.node hspan hstart hstop (hnode _ _) (.nil hb)

/-- The handler of a guarded block. -/
theorem finds_handler (h : Laid whole n) (c : Cursor) :
    Finds whole (Matcher.optional (Matcher.rule
        ((kw "catch").andThen fun _ =>
          (Matcher.optional ((sym "(").andThen fun _ => ident.closedBy (sym ")"))).andThen
            fun param => (block n).map fun handler => (param, handler))
        fun _ clause => clause)) c
      fun v b => ∀ x, (v.mapM fun (param, handler) =>
        (return ⟨param.map Token.text, ← handler⟩ : Built CatchClause)) = .ok x →
        Lies whole c.pos.offset (CatchClause.outlines? x) b := by
  refine Finds.optional (Finds.rule_plain ?_) fun b hb x hx => ?_
  · refine (finds_kw "catch" c).andThen fun _ c₁ h₁ _ => ?_
    have hparam : Finds whole (Matcher.optional ((sym "(").andThen fun _ => ident.closedBy (sym ")")))
        c₁ fun _ _ => True := by
      refine Finds.optional ((finds_sym "(" c₁).andThen fun _ c₂ _ _ => ?_) fun _ _ => trivial
      exact ((finds_ident c₂).closedBy (finds_sym ")")).weaken fun _ _ _ _ => trivial
    refine hparam.andThen fun param c₂ h₂ _ => Finds.map ?_
    refine (h.block c₂).weaken fun handler b _ hh x hx => ?_
    cases handler with
    | error e => cases hx
    | ok t =>
      cases hx
      exact (hh t rfl).mono (Nat.le_trans h₁ h₂) (Nat.le_refl _)
  · cases hx
    exact .nil hb

theorem covers_tryStmt (h : Laid whole n) : FindsStmt whole (tryStmt (n + 1)) := by
  intro c
  rw [tryStmt]
  refine finds_node ((finds_kw "try" c).andThen fun _ c₁ h₁ _ => ?_)
  refine (h.block c₁).andThen fun body c₂ _ hbody => ?_
  refine (finds_handler h c₂).andThen fun handler c₃ _ hhandler => Finds.map ?_
  have hfinally : Finds whole (Matcher.rule ((kw "finally").before (block n)) fun _ b => b) c₃
      (Covers whole stmtOutline c₃.pos.offset) :=
    Finds.rule_plain ((finds_kw "finally" c₃).before fun c₄ h₄ =>
      (h.block c₄).weaken fun _ _ _ hb => hb.mono h₄ (Nat.le_refl _))
  refine (finds_optional hfinally).weaken fun finalizer b _ hf span hspan hstart hstop => ?_
  refine Covers.bind fun y hy => Covers.bind fun x hx => Covers.bind fun z hz =>
    Covers.node hspan hstart hstop rfl ?_
  rw [optionalStmt_outlines]
  have hrest := (hhandler x hx).append (Nat.le_refl _) (hf z hz)
  exact ((hbody y hy).append (Nat.le_refl _) hrest).mono h₁ (Nat.le_refl _)

theorem covers_statement (h : Laid whole n) : FindsStmt whole (statement (n + 1)) := by
  intro c
  rw [statement]
  refine Finds.rule_plain ?_
  refine Finds.firstOf_cons (h.block c) <| Finds.firstOf_cons (h.varStmt c) <|
    Finds.firstOf_cons (h.letStmt c) <| Finds.firstOf_cons (h.functionDecl c) <|
    Finds.firstOf_cons (h.ifStmt c) <| Finds.firstOf_cons (h.doStmt c) <|
    Finds.firstOf_cons (h.whileStmt c) <| Finds.firstOf_cons (h.forEachStmt c) <|
    Finds.firstOf_cons (h.forStmt c) <| Finds.firstOf_cons (h.returnStmt c) <|
    Finds.firstOf_cons (covers_jump "break" .leave (fun _ _ => rfl) c) <|
    Finds.firstOf_cons (covers_jump "continue" .next (fun _ _ => rfl) c) <|
    Finds.firstOf_cons (h.throwStmt c) <| Finds.firstOf_cons (h.tryStmt c) <|
    Finds.firstOf_cons (h.labeledStmt c) <| Finds.firstOf_cons ?empty <|
    Finds.firstOf_cons ?expression fail
  case empty =>
    refine finds_node ((finds_sym ";" c).weaken fun _ b hb _ span hspan hstart hstop => ?_)
    exact Covers.node hspan hstart hstop rfl (.nil hb)
  case expression =>
    refine finds_node (((h.expression c).closedBy finds_semicolon).weaken
      fun v b _ hv span hspan hstart hstop => ?_)
    exact Covers.bind fun e he => Covers.node hspan hstart hstop rfl (hv e he)

/-- **Every rule gives trees that cover what they were read from**, at every depth. -/
theorem laid (whole : List Char) (n : Nat) : Laid whole n := by
  induction n with
  | zero => constructor <;> intro c <;> intros <;> exact Lands.fail
  | succ n h =>
    exact {
      expression := covers_expression h
      assignment := covers_assignment h
      conditional := covers_conditional h
      level := covers_level h
      exponent := covers_exponent h
      unary := covers_unary h
      updated := covers_updated h
      lhsExpr := covers_lhsExpr h
      newExpr := covers_newExpr h
      memberChain := covers_memberChain h
      arguments := covers_arguments h
      arguments_only := arguments_found h
      indexMember := covers_indexMember h
      primary := covers_primary h
      property := covers_property h
      functionExpr := covers_functionExpr h
      functionBody := covers_functionBody h
      functionBody_closes := functionBody_closes h
      statement := covers_statement h
      block := covers_block h
      varDecl := covers_varDecl h
      varStmt := covers_varStmt h
      letStmt := covers_letStmt h
      functionDecl := covers_functionDecl h
      condition := covers_condition h
      ifStmt := covers_ifStmt h
      whileStmt := covers_whileStmt h
      doStmt := covers_doStmt h
      forTarget := covers_forTarget h
      forEachStmt := covers_forEachStmt h
      forInit := covers_forInit h
      part := covers_part h
      forStmt := covers_forStmt h
      returnStmt := covers_returnStmt h
      throwStmt := covers_throwStmt h
      tryStmt := covers_tryStmt h
      labeledStmt := covers_labeledStmt h }

/-! ## Programs -/

theorem finds_atEnd (c : Cursor) : Finds whole atEnd c fun _ _ => True := by
  intro hc v c' h
  unfold atEnd at h
  split at h
  · cases h
    exact ⟨hc, Nat.le_refl _, fun _ _ => trivial⟩
  · cases h

/-- **A program covers the text that it was read from**: its nodes are sound, and they are in order and do
not overlap. -/
theorem parse_covers {source : String} {p : Program} (h : parse source = .ok p) :
    p.outline.Each (Sound source.toList) ∧ p.outline.Ordered := by
  have hbody : ∀ c : Cursor, Finds source.toList ((succeed ()).andThen fun _ =>
      (Matcher.many (fuelFor source.toList) (statement (fuelFor source.toList))).closedBy atEnd) c
      (Chain (Covers source.toList stmtOutline) c.pos.offset) := fun c => by
    refine (Finds.succeed (T := fun _ _ => True) fun _ _ => trivial).andThen fun _ c₁ h₁ _ => ?_
    exact ((Finds.many (laid _ _).statement _ c₁).closedBy finds_atEnd).weaken fun _ _ _ hvs =>
      hvs.from h₁
  unfold parse program at h
  dsimp only at h
  generalize hr : ((succeed ()).andThen fun _ =>
    (Matcher.many (fuelFor source.toList) (statement (fuelFor source.toList))).closedBy atEnd)
      ⟨source.toList, {}, 1⟩ = r at h
  obtain ⟨reach, result⟩ := r
  cases result with
  | none => cases h
  | some found =>
    obtain ⟨vs, c'⟩ := found
    have hfront : Cursor.At source.toList ⟨source.toList, {}, 1⟩ := Onward.refl _ _
    obtain ⟨hc', hle, hchain⟩ := hbody _ hfront vs c' (congrArg Reply.result hr)
    cases hvs : vs.mapM id with
    | error e =>
      simp only [hvs] at h
      cases h
    | ok ts =>
      simp only [hvs] at h
      cases h
      have hlies := lies_chain (hchain _ (Nat.le_refl _)) hvs
      rw [← stmts_outlines] at hlies
      have hspan := hfront.span hc' hle
      exact ⟨each_node.mpr ⟨⟨hspan, nofun⟩, hlies.sound⟩, ordered_node.mpr hlies.ordered⟩

end Fermata.Grammar
