import Fermata.Proofs.Grammar.Expression

/-!
# Statements are numbered as they are read

One lemma for each rule of the grammar that reads a statement, and all rules taken together.

* `Grammar.rules`: every rule gives numbered trees, at every depth.
* `Grammar.parse_numbered`: so does a whole text.
-/

namespace Fermata.Grammar

open Matcher Mention Yields

variable {n : Nat}

theorem reads_block (h : Rules n) : ReadsStmt (block (n + 1)) := by
  intro c
  rw [block]
  refine Yields.rule ((yields_sym "\x7b" c).andThen fun _ c₁ h₁ => ?_)
  refine ((Yields.many h.statement n c₁).closedBy (yields_sym "\x7d")).weaken
    fun vs m hvs span bare => ?_
  refine Spells.bind fun ts hts => Spells.pure ?_
  rw [ofStmt, ofStmts_eq, ← h₁]
  exact numbered_chain_both hvs bare hts

theorem reads_varDecl (h : Rules n) (c : Cursor) :
    Yields (varDecl (n + 1)) c (SpellsBoth ofDecl c.nextFunction) := by
  rw [varDecl]
  refine Yields.rule ((yields_ident c).andThen fun t c₁ ht => Yields.map (Yields.optional ?_ ?_))
  · refine (yields_sym "=" c₁).andThen fun _ c₂ h₂ => (Yields.notNext '=' c₂).before fun c₃ _ h₃ => ?_
    refine (h.assignment c₃).weaken fun v m hv span bare => ?_
    refine Spells.bind fun e he => Spells.pure ?_
    have hnum := hv e he
    rw [h₃, h₂, ht.1] at hnum
    cases bare with
    | true =>
      rw [ofDecl, ofDecls, if_pos rfl, ofDecls, List.append_nil]
      exact hnum.append (.name ht.2 .nil)
    | false =>
      rw [ofDecl, ofDecls, if_neg Bool.false_ne_true, ofDecls, List.append_nil]
      exact .name ht.2 hnum
  · intro span bare
    refine Spells.pure ?_
    rw [ht.1]
    cases bare with
    | true => exact .name ht.2 .nil
    | false => exact .nil

theorem reads_varStmt (h : Rules n) : ReadsStmt (varStmt (n + 1)) := by
  intro c
  rw [varStmt]
  refine Yields.rule ((yields_kw "var" c).andThen fun _ c₁ h₁ => ?_)
  refine ((yields_commaList h.varDecl n c₁).closedBy fun c₂ =>
    Yields.optional (yields_sym ";" c₂) rfl).weaken fun vs m hvs span bare => ?_
  refine Spells.bind fun ds hds => Spells.pure ?_
  rw [ofStmt, ofDecls_eq, ← h₁]
  exact numbered_chain_both hvs bare hds

theorem reads_letStmt : ReadsStmt (letStmt (n + 1)) := by
  intro c
  rw [letStmt]
  exact Yields.rule fun _ _ _ _ _ => Spells.refuse

theorem reads_functionDecl (h : Rules n) : ReadsStmt (functionDecl (n + 1)) := by
  intro c
  rw [functionDecl]
  have hrule : ∀ c₀ : Cursor, c₀.nextFunction = c.nextFunction + 1 → Yields (Matcher.rule
      ((kw "function").andThen fun _ => ident.andThen fun called =>
        (params n).andThen fun ps => (functionBody n).map fun body => (called, ps, body))
      (fun span found => do
        let body ← found.2.2
        return .function span ⟨c.nextFunction, some found.1.text, found.2.1, body, true, span⟩))
      c₀ (SpellsBoth ofStmt c.nextFunction) := by
    intro c₀ h₀
    refine Yields.rule ((yields_kw "function" c₀).andThen fun _ c₁ h₁ => ?_)
    refine (yields_ident c₁).andThen fun called c₂ h₂ => ?_
    refine (yields_params c₂).andThen fun ps c₃ h₃ => Yields.map ?_
    refine (h.functionBody c₃).weaken fun body m hbody span bare => ?_
    refine Spells.bind fun ts hts => Spells.pure ?_
    have hnum := hbody false ts hts
    rw [h₃, h₂.1, h₁, h₀] at hnum
    rw [ofStmt]
    exact .literal rfl hnum .nil
  exact hrule { c with nextFunction := c.nextFunction + 1 } rfl

theorem reads_condition (h : Rules n) : ReadsExpr (condition (n + 1)) := by
  intro c
  rw [condition]
  refine (yields_sym "(" c).andThen fun _ c₁ h₁ => ?_
  rw [← h₁]
  exact (h.expression c₁).closedBy (yields_sym ")")

theorem reads_ifStmt (h : Rules n) : ReadsStmt (ifStmt (n + 1)) := by
  intro c
  rw [ifStmt]
  refine Yields.rule ((yields_kw "if" c).andThen fun _ c₁ h₁ => ?_)
  refine (h.condition c₁).andThen fun test c₂ htest => ?_
  refine (h.statement c₂).andThen fun yes c₃ hyes => Yields.map (Yields.optional (Yields.rule ?_) ?_)
  · refine (yields_kw "else" c₃).before fun c₄ _ h₄ => ?_
    refine (h.statement c₄).weaken fun no m hno _ span bare => ?_
    refine Spells.bind fun t ht => Spells.bind fun y hy => Spells.bind fun e he => Spells.pure ?_
    rw [h₁] at htest
    rw [h₄] at hno
    rw [ofStmt, ofOptionalStmt]
    exact (htest t ht).append ((hyes bare y hy).append (hno bare e he))
  · intro span bare
    refine Spells.bind fun t ht => Spells.bind fun y hy => Spells.pure ?_
    rw [h₁] at htest
    rw [ofStmt, ofOptionalStmt, List.append_nil]
    exact (htest t ht).append (hyes bare y hy)

theorem reads_whileStmt (h : Rules n) : ReadsStmt (whileStmt (n + 1)) := by
  intro c
  rw [whileStmt]
  refine Yields.rule ((yields_kw "while" c).andThen fun _ c₁ h₁ => ?_)
  refine (h.condition c₁).andThen fun test c₂ htest => Yields.map ?_
  refine (h.statement c₂).weaken fun body m hbody span bare => ?_
  refine Spells.bind fun t ht => Spells.bind fun b hb => Spells.pure ?_
  rw [h₁] at htest
  rw [ofStmt]
  exact (htest t ht).append (hbody bare b hb)

theorem reads_doStmt (h : Rules n) : ReadsStmt (doStmt (n + 1)) := by
  intro c
  rw [doStmt]
  refine Yields.rule ((yields_kw "do" c).andThen fun _ c₁ h₁ => ?_)
  refine (h.statement c₁).andThen fun body c₂ hbody => ?_
  refine (yields_kw "while" c₂).andThen fun _ c₃ h₃ => ?_
  refine Yields.closedBy (Yields.map ((h.condition c₃).weaken fun test m htest span bare => ?_))
    fun c₄ => Yields.optional (yields_sym ";" c₄) rfl
  refine Spells.bind fun b hb => Spells.bind fun t ht => Spells.pure ?_
  rw [h₃] at htest
  rw [h₁] at hbody
  rw [ofStmt]
  exact (hbody bare b hb).append (htest t ht)

theorem reads_forTarget (h : Rules n) (c : Cursor) :
    Yields (forTarget (n + 1)) c (Spells ofTarget c.nextFunction) := by
  rw [forTarget]
  refine Yields.rule (Yields.or (Yields.map ?_) (Yields.map ?_))
  · refine (yields_kw "var" c).before fun c₁ _ h₁ => ?_
    refine (yields_ident c₁).weaken fun t m ht span => Spells.pure ?_
    rw [ofTarget, ht.1, h₁]
    exact .name ht.2 .nil
  · refine (h.lhsExpr c).weaken fun v m hv span => Spells.bind fun e he => ?_
    split
    · exact Spells.pure (hv e he)
    · exact Spells.refuse

theorem reads_forEachStmt (h : Rules n) : ReadsStmt (forEachStmt (n + 1)) := by
  intro c
  rw [forEachStmt]
  refine Yields.rule ((yields_kw "for" c).andThen fun _ c₁ h₁ => ?_)
  refine (yields_sym "(" c₁).andThen fun _ c₂ h₂ => ?_
  refine (h.forTarget c₂).andThen fun target c₃ htarget => ?_
  refine Yields.andThen (T := fun _ m => m = c₃.nextFunction)
    ((Yields.map (yields_kw "of" c₃)).or (Yields.map (yields_kw "in" c₃))) fun kind c₄ h₄ => ?_
  refine (h.expression c₄).andThen fun source c₅ hsource => ?_
  refine (yields_sym ")" c₅).andThen fun _ c₆ h₆ => Yields.map ?_
  refine (h.statement c₆).weaken fun body m hbody span bare => ?_
  refine Spells.bind fun t ht => Spells.bind fun e he => Spells.bind fun b hb => Spells.pure ?_
  rw [h₂, h₁] at htarget
  rw [h₄] at hsource
  rw [h₆] at hbody
  rw [ofStmt]
  exact (htarget t ht).append ((hsource e he).append (hbody bare b hb))

theorem reads_forInit (h : Rules n) (c : Cursor) :
    Yields (forInit (n + 1)) c (SpellsBoth (fun bare i => ofInit bare (some i)) c.nextFunction) := by
  rw [forInit]
  refine Yields.rule (Yields.or (Yields.rule ?_) (Yields.map ?_))
  · refine (yields_kw "var" c).before fun c₁ _ h₁ => ?_
    refine (yields_commaList h.varDecl n c₁).weaken fun vs m hvs _ span bare => ?_
    refine Spells.bind fun ds hds => Spells.pure ?_
    change Numbered _ (ofDecls bare ds) _
    rw [ofDecls_eq, ← h₁]
    exact numbered_chain_both hvs bare hds
  · refine (h.expression c).weaken fun v m hv span bare => Spells.bind fun e he => Spells.pure ?_
    exact hv e he

theorem reads_part (h : Rules n) : ReadsExpr (part (n + 1)) := by
  intro c
  rw [part]
  exact Yields.rule ((h.expression c).weaken fun _ _ hv _ => hv)

/-- What is read if it is there, and the number that comes next. -/
theorem yields_optional {α : Type} {p : Matcher (Built α)} {c : Cursor} {f : α → List Mention}
    (hp : Yields p c (Spells f c.nextFunction)) :
    Yields (Matcher.optional p) c fun v m => ∀ x, v.mapM id = .ok x →
      Numbered c.nextFunction (x.elim [] f) m := by
  refine Yields.optional (hp.weaken fun v m hv x hx => ?_) fun x hx => ?_
  · cases v with
    | error e => cases hx
    | ok y =>
      cases hx
      exact hv y rfl
  · cases hx
    exact .nil

theorem ofOptionalExpr_eq (e : Option Expr) : ofOptionalExpr e = e.elim [] ofExpr := by
  cases e <;> rfl

theorem ofOptionalStmt_eq (bare : Bool) (t : Option Stmt) :
    ofOptionalStmt bare t = t.elim [] (ofStmt bare) := by
  cases t <;> rw [ofOptionalStmt] <;> rfl

theorem reads_forStmt (h : Rules n) : ReadsStmt (forStmt (n + 1)) := by
  intro c
  rw [forStmt]
  refine Yields.rule ((yields_kw "for" c).andThen fun _ c₁ h₁ => ?_)
  refine (yields_sym "(" c₁).andThen fun _ c₂ h₂ => ?_
  have hinit : Yields (Matcher.optional (forInit n)) c₂ fun v m => ∀ bare x, v.mapM id = .ok x →
      Numbered c₂.nextFunction (x.elim [] fun i => ofInit bare (some i)) m := fun v c' hv bare =>
    yields_optional ((h.forInit c₂).weaken fun _ _ hi => hi bare) v c' hv
  refine (hinit.closedBy (yields_sym ";")).andThen fun init c₃ hi => ?_
  refine ((yields_optional (h.part c₃)).closedBy (yields_sym ";")).andThen fun test c₄ htest => ?_
  refine ((yields_optional (h.part c₄)).closedBy (yields_sym ")")).andThen fun update c₅ hupdate => ?_
  refine Yields.map ((h.statement c₅).weaken fun body m hbody span bare => ?_)
  refine Spells.bind fun i hi' => Spells.bind fun t ht => Spells.bind fun u hu =>
    Spells.bind fun b hb => Spells.pure ?_
  have hfirst := hi bare i hi'
  rw [h₂, h₁] at hfirst
  have hofInit : ofInit bare i = i.elim [] fun i => ofInit bare (some i) := by cases i <;> rfl
  rw [ofStmt, hofInit, ofOptionalExpr_eq, ofOptionalExpr_eq]
  exact hfirst.append ((htest t ht).append ((hupdate u hu).append (hbody bare b hb)))

theorem reads_returnStmt (h : Rules n) : ReadsStmt (returnStmt (n + 1)) := by
  intro c
  rw [returnStmt]
  refine Yields.rule ((yields_kw "return" c).andThen fun _ c₁ h₁ => ?_)
  refine ((yields_optional (h.expression c₁)).closedBy fun c₂ =>
    Yields.optional (yields_sym ";" c₂) rfl).weaken fun arg m harg span bare => ?_
  refine Spells.bind fun e he => Spells.pure ?_
  rw [ofStmt, ofOptionalExpr_eq, ← h₁]
  exact harg e he

theorem reads_throwStmt (h : Rules n) : ReadsStmt (throwStmt (n + 1)) := by
  intro c
  rw [throwStmt]
  refine Yields.rule ((yields_kw "throw" c).andThen fun _ c₁ h₁ => ?_)
  refine ((h.expression c₁).closedBy fun c₂ =>
    Yields.optional (yields_sym ";" c₂) rfl).weaken fun arg m harg span bare => ?_
  refine Spells.bind fun e he => Spells.pure ?_
  rw [ofStmt, ← h₁]
  exact harg e he

theorem reads_labeledStmt (h : Rules n) : ReadsStmt (labeledStmt (n + 1)) := by
  intro c
  rw [labeledStmt]
  refine Yields.rule (((yields_ident c).closedBy (yields_sym ":")).andThen fun label c₁ h₁ => ?_)
  refine Yields.map ((h.statement c₁).weaken fun body m hbody span bare => ?_)
  refine Spells.bind fun b hb => Spells.pure ?_
  rw [ofStmt, ← h₁.1]
  exact hbody bare b hb

theorem reads_jump (k : String) (node : Span → Option String → Stmt)
    (hnode : ∀ bare span label, ofStmt bare (node span label) = []) : ReadsStmt (jump k node) := by
  intro c
  have hlabel : Yields ((kw k).tight fun _ => Matcher.optional ((Matcher.silent .inlineBlanks).tight
      fun _ => ident)) c fun _ m => m = c.nextFunction := by
    refine (yields_kw k c).tight fun _ c₁ h₁ => ?_
    refine Yields.optional ((Yields.silent _ c₁).tight fun _ c₂ h₂ => ?_) h₁
    exact (yields_ident c₂).weaken fun _ _ ht => ht.1.trans (h₂.trans h₁)
  refine Yields.rule (Yields.closedBy (Yields.rule (hlabel.weaken fun label m hm _ span bare => ?_))
    fun c₂ => Yields.optional (yields_sym ";" c₂) rfl)
  refine Spells.pure ?_
  rw [hnode, hm]
  exact .nil

/-- The handler of a guarded block. -/
theorem reads_handler (h : Rules n) (c : Cursor) :
    Yields (Matcher.optional (Matcher.rule
        ((kw "catch").andThen fun _ =>
          (Matcher.optional ((sym "(").andThen fun _ => ident.closedBy (sym ")"))).andThen
            fun param => (block n).map fun handler => (param, handler))
        fun _ clause => clause)) c
      fun v m => ∀ bare x, (v.mapM fun (param, handler) =>
        (return ⟨param.map Token.text, ← handler⟩ : Built CatchClause)) = .ok x →
        Numbered c.nextFunction (ofHandler bare x) m := by
  refine Yields.optional (Yields.rule ?_) fun bare x hx => ?_
  · refine (yields_kw "catch" c).andThen fun _ c₁ h₁ => ?_
    have hparam : Yields (Matcher.optional ((sym "(").andThen fun _ => ident.closedBy (sym ")"))) c₁
        fun _ m => m = c₁.nextFunction := by
      refine Yields.optional ((yields_sym "(" c₁).andThen fun _ c₂ h₂ => ?_) rfl
      exact ((yields_ident c₂).closedBy (yields_sym ")")).weaken fun _ _ ht => ht.1.trans h₂
    refine hparam.andThen fun param c₂ h₂ => Yields.map ?_
    refine (h.block c₂).weaken fun handler m hh _ bare x hx => ?_
    cases handler with
    | error e => cases hx
    | ok t =>
      cases hx
      rw [ofHandler, ← h₁, ← h₂]
      exact hh bare t rfl
  · cases hx
    rw [ofHandler]
    exact .nil

theorem reads_tryStmt (h : Rules n) : ReadsStmt (tryStmt (n + 1)) := by
  intro c
  rw [tryStmt]
  refine Yields.rule ((yields_kw "try" c).andThen fun _ c₁ h₁ => ?_)
  refine (h.block c₁).andThen fun body c₂ hbody => ?_
  refine (reads_handler h c₂).andThen fun handler c₃ hhandler => Yields.map ?_
  have hfinally : Yields (Matcher.optional (Matcher.rule ((kw "finally").before (block n))
      fun _ b => b)) c₃ fun v m => ∀ bare x, v.mapM id = .ok x →
        Numbered c₃.nextFunction (x.elim [] (ofStmt bare)) m := by
    intro v c' hv bare
    refine yields_optional (Yields.rule ?_) v c' hv
    refine (yields_kw "finally" c₃).before fun c₄ _ h₄ => ?_
    rw [← h₄]
    exact (h.block c₄).weaken fun _ _ hb _ => hb bare
  refine hfinally.weaken fun finalizer m hf span bare => ?_
  refine Spells.bind fun b hb => Spells.bind fun x hx => Spells.bind fun y hy => Spells.pure ?_
  rw [h₁] at hbody
  rw [ofStmt, ofOptionalStmt_eq]
  exact (hbody bare b hb).append ((hhandler bare x hx).append (hf bare y hy))

theorem reads_statement (h : Rules n) : ReadsStmt (statement (n + 1)) := by
  intro c
  rw [statement]
  refine Yields.rule (Yields.weaken (S := SpellsBoth ofStmt c.nextFunction) ?_ fun _ _ h _ => h)
  refine yields_firstOf_cons (h.block c) <| yields_firstOf_cons (h.varStmt c) <|
    yields_firstOf_cons (h.letStmt c) <| yields_firstOf_cons (h.functionDecl c) <|
    yields_firstOf_cons (h.ifStmt c) <| yields_firstOf_cons (h.doStmt c) <|
    yields_firstOf_cons (h.whileStmt c) <| yields_firstOf_cons (h.forEachStmt c) <|
    yields_firstOf_cons (h.forStmt c) <| yields_firstOf_cons (h.returnStmt c) <|
    yields_firstOf_cons (reads_jump "break" .leave (fun _ _ _ => by rw [ofStmt]) c) <|
    yields_firstOf_cons (reads_jump "continue" .next (fun _ _ _ => by rw [ofStmt]) c) <|
    yields_firstOf_cons (h.throwStmt c) <| yields_firstOf_cons (h.tryStmt c) <|
    yields_firstOf_cons (h.labeledStmt c) <| yields_firstOf_cons (Yields.rule ?empty) <|
    yields_firstOf_cons (Yields.rule ?expression) fail
  case empty =>
    refine (yields_sym ";" c).weaken fun _ m hm span bare => Spells.pure ?_
    rw [ofStmt, hm]
    exact .nil
  case expression =>
    refine ((h.expression c).closedBy fun c₂ =>
      Yields.optional (yields_sym ";" c₂) rfl).weaken fun v m hv span bare => ?_
    refine Spells.bind fun e he => Spells.pure ?_
    rw [ofStmt]
    exact hv e he

/-- **Every rule gives numbered trees**, at every depth. -/
theorem rules (n : Nat) : Rules n := by
  induction n with
  | zero => constructor <;> intro c <;> intros <;> exact Yields.fail
  | succ n h =>
    exact {
      expression := reads_expression h
      assignment := reads_assignment h
      conditional := reads_conditional h
      level := reads_level h
      exponent := reads_exponent h
      unary := reads_unary h
      updated := reads_updated h
      lhsExpr := reads_lhsExpr h
      newExpr := reads_newExpr h
      memberChain := reads_memberChain h
      arguments := reads_arguments h
      arguments_only := arguments_arguments
      indexMember := reads_indexMember h
      primary := reads_primary h
      property := reads_property h
      functionExpr := reads_functionExpr h
      functionBody := reads_functionBody h
      statement := reads_statement h
      block := reads_block h
      varDecl := reads_varDecl h
      varStmt := reads_varStmt h
      letStmt := reads_letStmt
      functionDecl := reads_functionDecl h
      condition := reads_condition h
      ifStmt := reads_ifStmt h
      whileStmt := reads_whileStmt h
      doStmt := reads_doStmt h
      forTarget := reads_forTarget h
      forEachStmt := reads_forEachStmt h
      forInit := reads_forInit h
      part := reads_part h
      forStmt := reads_forStmt h
      returnStmt := reads_returnStmt h
      throwStmt := reads_throwStmt h
      tryStmt := reads_tryStmt h
      labeledStmt := reads_labeledStmt h }

/-! ## Programs -/

theorem yields_atEnd (c : Cursor) : Yields atEnd c fun _ m => m = c.nextFunction := by
  intro v c' h
  unfold atEnd at h
  split at h
  · cases h
    rfl
  · cases h

/-- **The literals of a program are numbered** from 1 on, in the order in which they start, and its
names are names. -/
theorem parse_numbered {source : String} {p : Program} (h : parse source = .ok p) :
    Numbered 1 p.mentions p.functionCount := by
  have hbody : ∀ c : Cursor, Yields ((succeed ()).andThen fun _ =>
      (Matcher.many (fuelFor source.toList) (statement (fuelFor source.toList))).closedBy atEnd) c
      (Chain (SpellsBoth ofStmt) c.nextFunction) := fun c =>
    (Yields.succeed (T := fun _ m => m = c.nextFunction) rfl).andThen fun _ c₁ h₁ => by
      rw [← h₁]
      exact (Yields.many (rules _).statement _ c₁).closedBy yields_atEnd
  unfold parse program at h
  dsimp only at h
  generalize hr : ((succeed ()).andThen fun _ =>
    (Matcher.many (fuelFor source.toList) (statement (fuelFor source.toList))).closedBy atEnd)
      ⟨source.toList, {}, 1⟩ = r at h
  obtain ⟨reach, result⟩ := r
  cases result with
  | none => cases h
  | some found =>
    obtain ⟨vs, c'⟩ := found
    have hchain := hbody _ vs c' (congrArg Reply.result hr)
    cases hvs : vs.mapM id with
    | error e =>
      simp only [hvs] at h
      cases h
    | ok ts =>
      simp only [hvs] at h
      cases h
      rw [Program.mentions, ofStmts_eq]
      exact numbered_chain_both hchain true hvs

end Fermata.Grammar
