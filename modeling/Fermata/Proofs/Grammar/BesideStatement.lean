import Fermata.Proofs.Grammar.BesideExpression

/-!
# Statements in two places

One lemma for each rule of the grammar that reads a statement, and all rules taken together.

* `Grammar.shorter`: depths that suffice for what is left up to the closing parenthesis allow the same
  readings, wherever the text stands.
-/

namespace Fermata.Grammar

open Matcher

variable {s : List Char} {δ d N n m : Nat} {c k : Cursor}

/-- Statements read one after the other. -/
theorem same_stmts {vs ws : List (Built Stmt)} (h : List.Forall₂ (Same Stmt.bare δ) vs ws) :
    Same Stmt.bares δ (vs.mapM id) (ws.mapM id) := by
  refine (Same.mapM h).weaken fun xs ys hs => ?_
  rw [Stmt.bares_eq_map, Stmt.bares_eq_map, hs]

theorem same_decls {vs ws : List (Built VarDecl)} (h : List.Forall₂ (Same VarDecl.bare δ) vs ws) :
    Same VarDecl.bares δ (vs.mapM id) (ws.mapM id) := by
  refine (Same.mapM h).weaken fun xs ys hs => ?_
  rw [VarDecl.bares_eq_map, VarDecl.bares_eq_map, hs]

/-- Statements in braces. -/
theorem agree_braces (hb : Below s δ c.rest.length n m) (hn : c.rest.length ≤ n)
    (hm : c.rest.length ≤ m) (hck : c.Beside s δ d k) (hN : c.rest.length ≤ N) :
    Agree s δ d N (List.Forall₂ (Same Stmt.bare δ))
      (((sym "\x7b").andThen fun _ => (many n (statement n)).closedBy (sym "\x7d")) c)
      (((sym "\x7b").andThen fun _ => (many m (statement m)).closedBy (sym "\x7d")) k) := by
  refine (agree_sym rfl (by decide) hck (Nat.le_refl _)).andThen fun _ _ c₁ k₁ _ h₁ hlt => ?_
  refine Agree.closedBy (n := c.rest.length) (Agree.many (fun c₂ k₂ h₂ hle => ?_) (by omega)
    (by omega) h₁ hlt) fun c₂ k₂ h₂ hlt₂ => agree_sym rfl (by decide) h₂ (by omega)
  exact hb.statement h₂ (by omega) (Nat.le_refl _)

theorem agree_functionBody : AgreeAt s δ 1 (Same Stmt.bares δ) functionBody := by
  intro d N c k n m h hsuff hck hN
  obtain ⟨n, m, rfl, rfl, hsuff, hb⟩ := h.unfold hsuff
  obtain ⟨hn, hm⟩ := hsuff.many
  rw [functionBody, functionBody]
  exact Agree.rule (agree_braces hb hn hm hck hN) fun vs ws hvs _ _ => same_stmts hvs

theorem agree_block : AgreeAt s δ 1 (Same Stmt.bare δ) block := by
  intro d N c k n m h hsuff hck hN
  obtain ⟨n, m, rfl, rfl, hsuff, hb⟩ := h.unfold hsuff
  obtain ⟨hn, hm⟩ := hsuff.many
  rw [block, block]
  refine Agree.rule (agree_braces hb hn hm hck hN) fun vs ws hvs _ _ => ?_
  refine Same.bind (same_stmts hvs) fun xs ys hs => Same.pure ?_
  rw [Stmt.bare, Stmt.bare, hs]

theorem agree_varDecl : AgreeAt s δ 1 (Same VarDecl.bare δ) varDecl := by
  intro d N c k n m h hsuff hck hN
  obtain ⟨n, m, rfl, rfl, hsuff, hb⟩ := h.unfold hsuff
  rw [varDecl, varDecl]
  refine Agree.rule
    (R := fun a b => Agree.SameToken a.1 b.1 ∧ Option.Rel (Same Expr.bare δ) a.2 b.2)
    ((agree_ident hck (Nat.le_refl _)).andThen fun t u c₁ k₁ htu h₁ hlt => Agree.map
      (agree_optional ?_ h₁ (by omega)) fun a b hab => ⟨htu, hab⟩) ?_
  · refine (agree_sym rfl (by decide) h₁ (Nat.le_refl _)).andThen fun _ _ c₂ k₂ _ h₂ hlt₂ => ?_
    exact (Agree.notNext '=' h₂ hlt₂).before fun c₃ k₃ h₃ hlt₃ =>
      hb.assignment h₃ (by omega) (by omega)
  · rintro ⟨t, a⟩ ⟨u, b⟩ ⟨htu, hab⟩ σ τ
    have htext : t.text = u.text := congrArg String.ofList htu
    cases hab with
    | none =>
      refine .built ?_
      rw [VarDecl.bare, VarDecl.bare, Expr.bare?, Expr.bare?, htext]
    | some hab =>
      refine Same.bind hab fun x y hxy => Same.pure ?_
      rw [VarDecl.bare, VarDecl.bare, Expr.bare?, Expr.bare?, htext, hxy]

/-- Declared names. -/
theorem agree_decls {L : Nat} (hb : Below s δ L n m) (hL : c.rest.length < L)
    (hn : c.rest.length ≤ n) (hm : c.rest.length ≤ m) (hck : c.Beside s δ d k)
    (hN : c.rest.length ≤ N) :
    Agree s δ d N (List.Forall₂ (Same VarDecl.bare δ)) (commaList n (varDecl n) c)
      (commaList m (varDecl m) k) :=
  agree_commaList hb.varDecl (hb.varDecl hck hL (Nat.le_refl _)) (Nat.le_of_lt hL) hn hm hN

theorem agree_varStmt : AgreeAt s δ 1 (Same Stmt.bare δ) varStmt := by
  intro d N c k n m h hsuff hck hN
  obtain ⟨n, m, rfl, rfl, hsuff, hb⟩ := h.unfold hsuff
  obtain ⟨hn, hm⟩ := hsuff.many
  rw [varStmt, varStmt]
  refine Agree.rule ((agree_kw "var" hck (Nat.le_refl _)).andThen fun _ _ c₁ k₁ _ h₁ hlt =>
    Agree.closedBy (n := c.rest.length)
      (agree_decls hb hlt (by omega) (by omega) h₁ (by omega)) fun c₂ k₂ h₂ hlt₂ =>
        agree_optional_sym rfl (by decide) h₂ (by omega)) fun vs ws hvs _ _ => ?_
  refine Same.bind (same_decls hvs) fun xs ys hs => Same.pure ?_
  rw [Stmt.bare, Stmt.bare, hs]

theorem agree_letStmt : AgreeAt s δ 1 (Same Stmt.bare δ) letStmt := by
  intro d N c k n m h hsuff hck hN
  obtain ⟨n, m, rfl, rfl, hsuff, hb⟩ := h.unfold hsuff
  obtain ⟨hn, hm⟩ := hsuff.many
  rw [letStmt, letStmt]
  exact Agree.rule (((agree_kw "let" hck (Nat.le_refl _)).or
    (agree_kw "const" hck (Nat.le_refl _))).andThen fun _ _ c₁ k₁ _ h₁ hlt =>
      Agree.closedBy (n := c.rest.length)
        (agree_decls hb hlt (by omega) (by omega) h₁ (by omega)) fun c₂ k₂ h₂ hlt₂ =>
          agree_optional_sym rfl (by decide) h₂ (by omega)) fun vs ws hvs _ _ => .refused

theorem agree_functionDecl : AgreeAt s δ 1 (Same Stmt.bare δ) functionDecl := by
  intro d N c k n m h hsuff hck hN
  obtain ⟨n, m, rfl, rfl, hsuff, hb⟩ := h.unfold hsuff
  obtain ⟨hn, hm⟩ := hsuff.many
  rw [functionDecl, functionDecl]
  refine Agree.rule (R := fun a b => Agree.SameToken a.1 b.1 ∧ a.2.1 = b.2.1 ∧
    Same Stmt.bares δ a.2.2 b.2.2) (Agree.andThen (n := c.rest.length)
    (agree_kw "function" hck.numbered (Nat.le_refl _)) fun _ _ c₁ k₁ _ h₁ hlt => (agree_ident h₁ (Nat.le_refl _)).andThen
      fun name name' c₂ k₂ hname h₂ hlt₂ =>
        (agree_params (by omega) (by omega) h₂ (Nat.le_refl _)).andThen fun ps ps' c₃ k₃ hps h₃ hlt₃ =>
          (hb.functionBody h₃ (by omega) (by omega)).map fun body body' hbody =>
            ⟨hname, hps, hbody⟩) ?_
  rintro ⟨name, ps, body⟩ ⟨name', ps', body'⟩ ⟨hname, rfl, hbody⟩ σ τ
  have htext : name.text = name'.text := congrArg String.ofList hname
  refine Same.bind hbody fun x y hxy => Same.pure ?_
  rw [Stmt.bare, Stmt.bare, FunctionNode.bare, FunctionNode.bare, htext, hxy, hck.next, Nat.add_zero]

theorem agree_condition : AgreeAt s δ 1 (Same Expr.bare δ) condition := by
  intro d N c k n m h hsuff hck hN
  obtain ⟨n, m, rfl, rfl, hsuff, hb⟩ := h.unfold hsuff
  rw [condition, condition]
  refine (agree_open hck (Nat.le_refl _)).andThen fun _ _ c₁ k₁ _ h₁ hlt => ?_
  exact (hb.expression h₁ hlt (Nat.le_refl _)).closedBy fun c₂ k₂ h₂ hlt₂ =>
    agree_close h₂ (by omega)

theorem agree_ifStmt : AgreeAt s δ 1 (Same Stmt.bare δ) ifStmt := by
  intro d N c k n m h hsuff hck hN
  obtain ⟨n, m, rfl, rfl, hsuff, hb⟩ := h.unfold hsuff
  rw [ifStmt, ifStmt]
  refine Agree.rule (R := fun a b => Same Expr.bare δ a.1 b.1 ∧ Same Stmt.bare δ a.2.1 b.2.1 ∧
    Option.Rel (Same Stmt.bare δ) a.2.2 b.2.2) ((agree_kw "if" hck (Nat.le_refl _)).andThen
    fun _ _ c₁ k₁ _ h₁ hlt => (hb.condition h₁ hlt (Nat.le_refl _)).andThen
      fun t t' c₂ k₂ ht h₂ hlt₂ => (hb.statement h₂ (by omega) (Nat.le_refl _)).andThen
        fun y y' c₃ k₃ hy h₃ hlt₃ => Agree.map (agree_optional (Agree.rule
          ((agree_kw "else" h₃ (Nat.le_refl _)).before fun c₄ k₄ h₄ hlt₄ =>
            hb.statement h₄ (by omega) (by omega)) fun _ _ hvw _ _ => hvw) h₃ (by omega))
              fun a b hab => ⟨ht, hy, hab⟩) ?_
  rintro ⟨t, y, a⟩ ⟨t', y', b⟩ ⟨ht, hy, hab⟩ σ τ
  refine Same.bind ht fun e e' he => Same.bind hy fun f f' hf => ?_
  cases hab with
  | none =>
    refine .built ?_
    rw [Stmt.bare, Stmt.bare, Stmt.bare?, Stmt.bare?, he, hf]
  | some hab =>
    refine Same.bind hab fun g g' hg => Same.pure ?_
    rw [Stmt.bare, Stmt.bare, Stmt.bare?, Stmt.bare?, he, hf, hg]

theorem agree_whileStmt : AgreeAt s δ 1 (Same Stmt.bare δ) whileStmt := by
  intro d N c k n m h hsuff hck hN
  obtain ⟨n, m, rfl, rfl, hsuff, hb⟩ := h.unfold hsuff
  rw [whileStmt, whileStmt]
  refine Agree.rule (R := fun a b => Same Expr.bare δ a.1 b.1 ∧ Same Stmt.bare δ a.2 b.2)
    ((agree_kw "while" hck (Nat.le_refl _)).andThen fun _ _ c₁ k₁ _ h₁ hlt =>
      (hb.condition h₁ hlt (Nat.le_refl _)).andThen fun t t' c₂ k₂ ht h₂ hlt₂ =>
        (hb.statement h₂ (by omega) (by omega)).map fun y y' hy => ⟨ht, hy⟩) ?_
  rintro ⟨t, y⟩ ⟨t', y'⟩ ⟨ht, hy⟩ σ τ
  refine Same.bind ht fun e e' he => Same.bind hy fun f f' hf => Same.pure ?_
  rw [Stmt.bare, Stmt.bare, he, hf]

theorem agree_doStmt : AgreeAt s δ 1 (Same Stmt.bare δ) doStmt := by
  intro d N c k n m h hsuff hck hN
  obtain ⟨n, m, rfl, rfl, hsuff, hb⟩ := h.unfold hsuff
  rw [doStmt, doStmt]
  refine Agree.rule (R := fun a b => Same Stmt.bare δ a.1 b.1 ∧ Same Expr.bare δ a.2 b.2)
    ((agree_kw "do" hck (Nat.le_refl _)).andThen fun _ _ c₁ k₁ _ h₁ hlt =>
      (hb.statement h₁ hlt (Nat.le_refl _)).andThen fun y y' c₂ k₂ hy h₂ hlt₂ =>
        (agree_kw "while" h₂ (Nat.le_refl _)).andThen fun _ _ c₃ k₃ _ h₃ hlt₃ =>
          Agree.closedBy (n := c.rest.length)
            ((hb.condition h₃ (by omega) (by omega)).map fun t t' ht => ⟨hy, ht⟩)
              fun c₄ k₄ h₄ hlt₄ => agree_optional_sym rfl (by decide) h₄ (by omega)) ?_
  rintro ⟨y, t⟩ ⟨y', t'⟩ ⟨hy, ht⟩ σ τ
  refine Same.bind hy fun f f' hf => Same.bind ht fun e e' he => Same.pure ?_
  rw [Stmt.bare, Stmt.bare, he, hf]

theorem agree_forTarget : AgreeAt s δ 4 (Same ForTarget.bare δ) forTarget := by
  intro d N c k n m h hsuff hck hN
  obtain ⟨n, m, rfl, rfl, hsuff', hb⟩ := h.unfold hsuff
  rw [forTarget, forTarget]
  refine Agree.rule (R := SameNode ForTarget.bare δ) (Agree.or ?_ ?_) fun _ _ hvw σ τ => hvw σ τ
  · refine ((agree_kw "var" hck (Nat.le_refl _)).before fun c₁ k₁ h₁ hlt =>
      agree_ident h₁ (by omega)).map fun t u htu σ τ => .built ?_
    rw [ForTarget.bare, ForTarget.bare, Token.text, Token.text, htu]
  · refine (agree_lhsExpr h hsuff' hck hN).map fun v w hvw σ τ => Same.bind hvw fun x y hxy => ?_
    have hassignable : x.isAssignable = y.isAssignable := by
      rw [← Expr.bare_isAssignable x, hxy, Expr.bare_isAssignable]
    rw [hassignable]
    split
    · refine Same.pure ?_
      rw [ForTarget.bare, ForTarget.bare, hxy]
    · exact .refused

theorem agree_forEachStmt : AgreeAt s δ 1 (Same Stmt.bare δ) forEachStmt := by
  intro d N c k n m h hsuff hck hN
  obtain ⟨n, m, rfl, rfl, hsuff, hb⟩ := h.unfold hsuff
  rw [forEachStmt, forEachStmt]
  refine Agree.rule (R := fun a b => Same ForTarget.bare δ a.1 b.1 ∧ a.2.1 = b.2.1 ∧
    Same Expr.bare δ a.2.2.1 b.2.2.1 ∧ Same Stmt.bare δ a.2.2.2 b.2.2.2)
    ((agree_kw "for" hck (Nat.le_refl _)).andThen fun _ _ c₁ k₁ _ h₁ hlt =>
      (agree_open h₁ (Nat.le_refl _)).andThen fun _ _ c₂ k₂ _ h₂ hlt₂ =>
        (hb.forTarget h₂ (by omega) (Nat.le_refl _)).andThen fun t t' c₃ k₃ ht h₃ hlt₃ =>
          Agree.andThen (n := c.rest.length) (R := (· = ·)) (Agree.or
            ((agree_kw "of" h₃ (by omega)).map fun _ _ _ => rfl)
            ((agree_kw "in" h₃ (by omega)).map fun _ _ _ => rfl)) fun kind kind' c₄ k₄ hkind h₄ hlt₄ =>
              (hb.expression h₄ (by omega) (Nat.le_refl _)).andThen fun v w c₅ k₅ hv h₅ hlt₅ =>
                (agree_close h₅ (Nat.le_refl _)).andThen fun _ _ c₆ k₆ _ h₆ hlt₆ =>
                  (hb.statement h₆ (by omega) (by omega)).map fun y y' hy => ⟨ht, hkind, hv, hy⟩) ?_
  rintro ⟨t, kind, v, y⟩ ⟨t', kind', w, y'⟩ ⟨ht, rfl, hv, hy⟩ σ τ
  refine Same.bind ht fun e e' he => Same.bind hv fun f f' hf => Same.bind hy fun g g' hg =>
    Same.pure ?_
  rw [Stmt.bare, Stmt.bare, he, hf, hg]

theorem agree_forInit : AgreeAt s δ 22 (Same ForInit.bare δ) forInit := by
  intro d N c k n m h hsuff hck hN
  obtain ⟨n, m, rfl, rfl, hsuff', hb⟩ := h.unfold hsuff
  obtain ⟨hn, hm⟩ := hsuff'.many
  rw [forInit, forInit]
  refine Agree.rule (R := Same ForInit.bare δ) (Agree.or ?_ ?_) fun _ _ hvw _ _ => hvw
  · refine Agree.rule ((agree_kw "var" hck (Nat.le_refl _)).before fun c₁ k₁ h₁ hlt =>
      agree_decls hb hlt (by omega) (by omega) h₁ (by omega)) fun vs ws hvs _ _ => ?_
    refine Same.bind (same_decls hvs) fun xs ys hs => Same.pure ?_
    rw [ForInit.bare, ForInit.bare, hs]
  · refine (agree_expression h hsuff' hck hN).map fun v w hvw => Same.bind hvw fun x y hxy =>
      Same.pure ?_
    rw [ForInit.bare, ForInit.bare, hxy]

theorem agree_part : AgreeAt s δ 22 (Same Expr.bare δ) part := by
  intro d N c k n m h hsuff hck hN
  obtain ⟨n, m, rfl, rfl, hsuff', hb⟩ := h.unfold hsuff
  rw [part, part]
  exact Agree.rule (agree_expression h hsuff' hck hN) fun _ _ hvw _ _ => hvw

theorem agree_forStmt : AgreeAt s δ 1 (Same Stmt.bare δ) forStmt := by
  intro d N c k n m h hsuff hck hN
  obtain ⟨n, m, rfl, rfl, hsuff, hb⟩ := h.unfold hsuff
  rw [forStmt, forStmt]
  refine Agree.rule (R := fun a b => Option.Rel (Same ForInit.bare δ) a.1 b.1 ∧
    Option.Rel (Same Expr.bare δ) a.2.1 b.2.1 ∧ Option.Rel (Same Expr.bare δ) a.2.2.1 b.2.2.1 ∧
      Same Stmt.bare δ a.2.2.2 b.2.2.2)
    ((agree_kw "for" hck (Nat.le_refl _)).andThen fun _ _ c₁ k₁ _ h₁ hlt =>
      (agree_open h₁ (Nat.le_refl _)).andThen fun _ _ c₂ k₂ _ h₂ hlt₂ =>
        Agree.andThen (n := c.rest.length) (Agree.closedBy (n := c.rest.length)
          (agree_optional (hb.forInit h₂ (by omega) (by omega)) h₂ (by omega)) fun c₃ k₃ h₃ hlt₃ =>
            agree_sym rfl (by decide) h₃ (by omega)) fun i i' c₃ k₃ hi h₃ hlt₃ =>
        Agree.andThen (n := c.rest.length) (Agree.closedBy (n := c.rest.length)
          (agree_optional (hb.part h₃ (by omega) (by omega)) h₃ (by omega)) fun c₄ k₄ h₄ hlt₄ =>
            agree_sym rfl (by decide) h₄ (by omega)) fun t t' c₄ k₄ ht h₄ hlt₄ =>
        Agree.andThen (n := c.rest.length) (Agree.closedBy (n := c.rest.length)
          (agree_optional (hb.part h₄ (by omega) (by omega)) h₄ (by omega)) fun c₅ k₅ h₅ hlt₅ =>
            agree_close h₅ (by omega)) fun u u' c₅ k₅ hu h₅ hlt₅ =>
        (hb.statement h₅ (by omega) (by omega)).map fun y y' hy => ⟨hi, ht, hu, hy⟩) ?_
  rintro ⟨i, t, u, y⟩ ⟨i', t', u', y'⟩ ⟨hi, ht, hu, hy⟩ σ τ
  refine Same.bind (Same.option hi) fun e e' he => Same.bind (Same.option ht) fun f f' hf =>
    Same.bind (Same.option hu) fun g g' hg => Same.bind hy fun x x' hx => Same.pure ?_
  rw [Stmt.bare, Stmt.bare, ForInit.bare?_eq_map, ForInit.bare?_eq_map, he, Expr.bare?_eq_map,
    Expr.bare?_eq_map, Expr.bare?_eq_map, Expr.bare?_eq_map, hf, hg, hx]

theorem agree_returnStmt : AgreeAt s δ 1 (Same Stmt.bare δ) returnStmt := by
  intro d N c k n m h hsuff hck hN
  obtain ⟨n, m, rfl, rfl, hsuff, hb⟩ := h.unfold hsuff
  rw [returnStmt, returnStmt]
  refine Agree.rule ((agree_kw "return" hck (Nat.le_refl _)).andThen fun _ _ c₁ k₁ _ h₁ hlt =>
    Agree.closedBy (n := c.rest.length) (agree_optional (hb.expression h₁ hlt (by omega)) h₁ hlt)
      fun c₂ k₂ h₂ hlt₂ => agree_optional_sym rfl (by decide) h₂ (by omega)) fun a b hab σ τ => ?_
  refine Same.bind (Same.option hab) fun e e' he => Same.pure ?_
  rw [Stmt.bare, Stmt.bare, Expr.bare?_eq_map, Expr.bare?_eq_map, he]

theorem agree_throwStmt : AgreeAt s δ 1 (Same Stmt.bare δ) throwStmt := by
  intro d N c k n m h hsuff hck hN
  obtain ⟨n, m, rfl, rfl, hsuff, hb⟩ := h.unfold hsuff
  rw [throwStmt, throwStmt]
  refine Agree.rule ((agree_kw "throw" hck (Nat.le_refl _)).andThen fun _ _ c₁ k₁ _ h₁ hlt =>
    Agree.closedBy (n := c.rest.length) (hb.expression h₁ hlt (by omega))
      fun c₂ k₂ h₂ hlt₂ => agree_optional_sym rfl (by decide) h₂ (by omega)) fun a b hab σ τ => ?_
  refine Same.bind hab fun e e' he => Same.pure ?_
  rw [Stmt.bare, Stmt.bare, he]

theorem agree_tryStmt : AgreeAt s δ 1 (Same Stmt.bare δ) tryStmt := by
  intro d N c k n m h hsuff hck hN
  obtain ⟨n, m, rfl, rfl, hsuff, hb⟩ := h.unfold hsuff
  rw [tryStmt, tryStmt]
  refine Agree.rule (R := fun a b => Same Stmt.bare δ a.1 b.1 ∧
    Option.Rel (fun x y => x.1.map Token.text = y.1.map Token.text ∧ Same Stmt.bare δ x.2 y.2)
      a.2.1 b.2.1 ∧ Option.Rel (Same Stmt.bare δ) a.2.2 b.2.2)
    ((agree_kw "try" hck (Nat.le_refl _)).andThen fun _ _ c₁ k₁ _ h₁ hlt =>
      (hb.block h₁ hlt (Nat.le_refl _)).andThen fun v w c₂ k₂ hv h₂ hlt₂ =>
        Agree.andThen (n := c.rest.length) (agree_optional (Agree.rule ?handler
          fun _ _ hvw _ _ => hvw) h₂ (by omega)) fun a b c₃ k₃ hab h₃ hlt₃ =>
        Agree.map (agree_optional (Agree.rule
          ((agree_kw "finally" h₃ (Nat.le_refl _)).before fun c₄ k₄ h₄ hlt₄ =>
            hb.block h₄ (by omega) (by omega)) fun _ _ hvw _ _ => hvw) h₃ (by omega))
              fun x y hxy => ⟨hv, hab, hxy⟩) ?_
  case handler =>
    refine (agree_kw "catch" h₂ (Nat.le_refl _)).andThen fun _ _ c₃ k₃ _ h₃ hlt₃ => ?_
    refine Agree.andThen (n := c.rest.length) (agree_optional
      ((agree_open h₃ (Nat.le_refl _)).andThen fun _ _ c₄ k₄ _ h₄ hlt₄ =>
        Agree.closedBy (n := c.rest.length) (agree_ident h₄ (by omega)) fun c₅ k₅ h₅ hlt₅ =>
          agree_close h₅ (by omega))
      h₃ (by omega)) fun t u c₄ k₄ htu h₄ hlt₄ => ?_
    exact (hb.block h₄ (by omega) (by omega)).map fun x y hxy => ⟨map_text_eq htu, hxy⟩
  rintro ⟨v, a, x⟩ ⟨w, b, y⟩ ⟨hv, hab, hxy⟩ σ τ
  refine Same.bind hv fun e e' he => ?_
  refine Same.bind (f := fun δ => Option.map (CatchClause.bare δ)) ?_ fun f f' hf =>
    Same.bind (Same.option hxy) fun g g' hg => Same.pure ?_
  · cases hab with
    | none => exact .built rfl
    | @some x y hab =>
      obtain ⟨t, x⟩ := x
      obtain ⟨u, y⟩ := y
      obtain ⟨htu, hxy⟩ := hab
      refine Same.bind (f := CatchClause.bare) ?_ fun f f' hf => Same.pure (congrArg some hf)
      refine Same.bind hxy fun f f' hf => Same.pure ?_
      rw [CatchClause.bare, CatchClause.bare, htu, hf]
  · rw [Stmt.bare, Stmt.bare, CatchClause.bare?_eq_map, CatchClause.bare?_eq_map, he, hf,
      Stmt.bare?_eq_map, Stmt.bare?_eq_map, hg]

theorem agree_labeledStmt : AgreeAt s δ 1 (Same Stmt.bare δ) labeledStmt := by
  intro d N c k n m h hsuff hck hN
  obtain ⟨n, m, rfl, rfl, hsuff, hb⟩ := h.unfold hsuff
  rw [labeledStmt, labeledStmt]
  refine Agree.rule (R := fun a b => Agree.SameToken a.1 b.1 ∧ Same Stmt.bare δ a.2 b.2)
    (Agree.andThen (n := c.rest.length) ((agree_ident hck (Nat.le_refl _)).closedBy
      fun c₁ k₁ h₁ hlt => agree_sym rfl (by decide) h₁ (by omega)) fun t u c₁ k₁ htu h₁ hlt =>
        (hb.statement h₁ hlt (by omega)).map fun v w hvw => ⟨htu, hvw⟩) ?_
  rintro ⟨t, v⟩ ⟨u, w⟩ ⟨htu, hvw⟩ σ τ
  have htext : t.text = u.text := congrArg String.ofList htu
  refine Same.bind hvw fun x y hxy => Same.pure ?_
  rw [Stmt.bare, Stmt.bare, htext, hxy]

theorem agree_jump (word : String) {node : Span → Option String → Stmt}
    (hnode : ∀ σ τ label, (node σ label).bare δ = (node τ label).bare 0) (hck : c.Beside s δ d k)
    (hN : c.rest.length ≤ N) :
    Agree s δ d N (Same Stmt.bare δ) (jump word node c) (jump word node k) := by
  unfold jump
  refine Agree.rule (Agree.closedBy (n := c.rest.length) (Agree.rule
    ((agree_kw word hck (Nat.le_refl _)).tight fun _ _ c₁ k₁ _ h₁ hlt => agree_optional
      ((Agree.silent Lexeme.inlineBlanks_stays h₁ (Nat.le_refl _)).tight
        fun _ _ c₂ k₂ _ h₂ hlt₂ => agree_ident h₂ (by omega)) h₁ hlt) fun _ _ htu _ _ => htu)
    fun c₁ k₁ h₁ hlt => agree_optional_sym rfl (by decide) h₁ (by omega)) fun t u htu σ τ => ?_
  rw [map_text_eq htu]
  exact .built (hnode σ τ _)

theorem agree_statement : AgreeAt s δ 22 (Same Stmt.bare δ) statement := by
  intro d N c k n m h hsuff hck hN
  obtain ⟨n, m, rfl, rfl, hsuff', hb⟩ := h.unfold hsuff
  have hone : Suffices 1 c n m := hsuff'.mono (by omega)
  rw [statement, statement]
  refine Agree.rule (T := Same Stmt.bare δ) ?_ fun _ _ hvw _ _ => hvw
  refine Agree.firstOf_cons (agree_block h hone hck hN) <|
    Agree.firstOf_cons (agree_varStmt h hone hck hN) <|
    Agree.firstOf_cons (agree_letStmt h hone hck hN) <|
    Agree.firstOf_cons (agree_functionDecl h hone hck hN) <|
    Agree.firstOf_cons (agree_ifStmt h hone hck hN) <|
    Agree.firstOf_cons (agree_doStmt h hone hck hN) <|
    Agree.firstOf_cons (agree_whileStmt h hone hck hN) <|
    Agree.firstOf_cons (agree_forEachStmt h hone hck hN) <|
    Agree.firstOf_cons (agree_forStmt h hone hck hN) <|
    Agree.firstOf_cons (agree_returnStmt h hone hck hN) <|
    Agree.firstOf_cons (agree_jump "break" ?leave hck hN) <|
    Agree.firstOf_cons (agree_jump "continue" ?next hck hN) <|
    Agree.firstOf_cons (agree_throwStmt h hone hck hN) <|
    Agree.firstOf_cons (agree_tryStmt h hone hck hN) <|
    Agree.firstOf_cons (agree_labeledStmt h hone hck hN) <|
    Agree.firstOf_cons ?empty <| Agree.firstOf_cons ?expression .fail
  case leave | next => exact fun _ _ _ => by rw [Stmt.bare, Stmt.bare]
  case empty =>
    refine Agree.rule (agree_sym rfl (by decide) hck hN) fun _ _ _ σ τ => .built ?_
    rw [Stmt.bare, Stmt.bare]
  case expression =>
    refine Agree.rule ((agree_expression h hsuff' hck hN).closedBy fun c₁ k₁ h₁ hlt =>
      agree_optional_sym rfl (by decide) h₁ hlt) fun v w hvw σ τ => ?_
    refine Same.bind hvw fun x y hxy => Same.pure ?_
    rw [Stmt.bare, Stmt.bare, hxy]

/-! ## All rules -/

/-- A rule agrees where less is left, if enough depth is allowed. -/
theorem AgreeAt.below {α : Type} {R : α → α → Prop} {p : Nat → Matcher α} {r L : Nat}
    (hp : AgreeAt s δ r R p) (hr : r ≤ 32) (h : ∀ L' < L, Shorter s δ L') (hn : 32 * L ≤ n)
    (hm : 32 * L ≤ m) : AgreeBelow s δ L R (p n) (p m) :=
  fun hck hL hN => hp (h _ hL) ⟨by omega, by omega⟩ hck hN

theorem AgreeWith.below {p : Nat → Head → Matcher (Built Expr)} {r L : Nat}
    (hp : AgreeWith s δ r p) (hr : r ≤ 32) (h : ∀ L' < L, Shorter s δ L') (hn : 32 * L ≤ n)
    (hm : 32 * L ≤ m) : AgreeBelow s δ L (Same Expr.bare δ) (p n none) (p m none) :=
  fun hck hL hN => hp (h _ hL) ⟨by omega, by omega⟩ hck .none hN

/-- **A text is read the same in two places**, up to the closing parenthesis. -/
theorem shorter (s : List Char) (δ L : Nat) : Shorter s δ L := by
  induction L using Nat.strongRecOn with
  | ind L h =>
    intro n m hn hm
    exact {
      expression := agree_expression.below (by decide) h hn hm
      assignment := agree_assignment.below (by decide) h hn hm
      level := fun ops hops hlength =>
        AgreeWith.below (agree_level ops hops hlength) (by omega) h hn hm
      exponent := agree_exponent.below (by decide) h hn hm
      unary := agree_unary.below (by decide) h hn hm
      memberChain := agree_memberChain.below (by decide) h hn hm
      arguments := agree_arguments.below (by decide) h hn hm
      indexMember := agree_indexMember.below (by decide) h hn hm
      property := agree_property.below (by decide) h hn hm
      functionBody := agree_functionBody.below (by decide) h hn hm
      statement := agree_statement.below (by decide) h hn hm
      block := agree_block.below (by decide) h hn hm
      varDecl := agree_varDecl.below (by decide) h hn hm
      condition := agree_condition.below (by decide) h hn hm
      forTarget := agree_forTarget.below (by decide) h hn hm
      forInit := agree_forInit.below (by decide) h hn hm
      part := agree_part.below (by decide) h hn hm }

end Fermata.Grammar
