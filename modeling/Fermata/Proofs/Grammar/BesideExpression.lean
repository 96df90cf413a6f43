import Fermata.Proofs.Grammar.Beside

/-!
# Expressions in two places

One lemma for each rule of the grammar that reads an expression: two cursors that are beside each other
read the same, if any two cursors do that have less before the closing parenthesis. The depths that are
allowed to the rules may differ as long as both suffice for what is left.
-/

namespace Fermata.Grammar

open Matcher

/-- Where less than `L` characters are left, both matchers agree. -/
def AgreeBelow {α β : Type} (s : List Char) (δ L : Nat) (R : α → β → Prop) (p : Matcher α)
    (q : Matcher β) : Prop :=
  ∀ {d N c k}, c.Beside s δ d k → c.rest.length < L → c.rest.length ≤ N →
    Agree s δ d N R (p c) (q k)

/-- The rules that occur in others behind a token agree at two depths where less than `L` characters are
left. -/
structure Below (s : List Char) (δ L n m : Nat) : Prop where
  expression : AgreeBelow s δ L (Same Expr.bare δ) (expression n) (expression m)
  assignment : AgreeBelow s δ L (Same Expr.bare δ) (assignment n) (assignment m)
  level : ∀ ops, (∀ table ∈ ops, StayAll table) → ops.length ≤ 11 →
    AgreeBelow s δ L (Same Expr.bare δ) (level n ops none) (level m ops none)
  exponent : AgreeBelow s δ L (Same Expr.bare δ) (exponent n none) (exponent m none)
  unary : AgreeBelow s δ L (Same Expr.bare δ) (unary n none) (unary m none)
  memberChain : AgreeBelow s δ L (Same Expr.bare δ) (memberChain n) (memberChain m)
  arguments : AgreeBelow s δ L (SameSuffix δ) (arguments n) (arguments m)
  indexMember : AgreeBelow s δ L (SameSuffix δ) (indexMember n) (indexMember m)
  property : AgreeBelow s δ L (Same PropertyDef.bare δ) (property n) (property m)
  functionBody : AgreeBelow s δ L (Same Stmt.bares δ) (functionBody n) (functionBody m)
  statement : AgreeBelow s δ L (Same Stmt.bare δ) (statement n) (statement m)
  block : AgreeBelow s δ L (Same Stmt.bare δ) (block n) (block m)
  varDecl : AgreeBelow s δ L (Same VarDecl.bare δ) (varDecl n) (varDecl m)
  condition : AgreeBelow s δ L (Same Expr.bare δ) (condition n) (condition m)
  forTarget : AgreeBelow s δ L (Same ForTarget.bare δ) (forTarget n) (forTarget m)
  forInit : AgreeBelow s δ L (Same ForInit.bare δ) (forInit n) (forInit m)
  part : AgreeBelow s δ L (Same Expr.bare δ) (part n) (part m)

/-- Depths that suffice for `L` characters allow the rules behind a token. -/
def Shorter (s : List Char) (δ L : Nat) : Prop :=
  ∀ n m, 32 * L ≤ n → 32 * L ≤ m → Below s δ L n m

/-- Both depths suffice for what is left, and for `r` rules in front of the first character. -/
structure Suffices (r : Nat) (c : Cursor) (n m : Nat) : Prop where
  left : 32 * c.rest.length + r ≤ n
  right : 32 * c.rest.length + r ≤ m

variable {s : List Char} {δ d e N n m r : Nat} {c k : Cursor}

/-- A rule uses one of its depth. -/
theorem Shorter.unfold (h : Shorter s δ c.rest.length) (hsuff : Suffices (r + 1) c n m) :
    ∃ n' m', n = n' + 1 ∧ m = m' + 1 ∧ Suffices r c n' m' ∧ Below s δ c.rest.length n' m' := by
  obtain ⟨hn, hm⟩ := hsuff
  obtain ⟨n', rfl⟩ : ∃ n', n = n' + 1 := ⟨n - 1, by omega⟩
  obtain ⟨m', rfl⟩ : ∃ m', m = m' + 1 := ⟨m - 1, by omega⟩
  exact ⟨n', m', rfl, rfl, ⟨by omega, by omega⟩, h n' m' (by omega) (by omega)⟩

theorem Suffices.many (h : Suffices r c n m) : c.rest.length ≤ n ∧ c.rest.length ≤ m := by
  obtain ⟨hn, hm⟩ := h
  omega

/-- The rule agrees wherever the rules behind its first token do. -/
def AgreeAt {α : Type} (s : List Char) (δ r : Nat) (R : α → α → Prop) (p : Nat → Matcher α) :
    Prop :=
  ∀ {d N c k n m}, Shorter s δ c.rest.length → Suffices r c n m → c.Beside s δ d k →
    c.rest.length ≤ N → Agree s δ d N R (p n c) (p m k)

/-- What may be left out and does not matter. -/
theorem agree_optional {α β : Type} {R : α → β → Prop} {p : Matcher α} {q : Matcher β}
    (h : Agree s δ d N R (p c) (q k)) (hck : c.Beside s δ d k) (hN : c.rest.length < N) :
    Agree s δ d N (Option.Rel R) (optional p c) (optional q k) :=
  .optional (h.weaken fun _ _ => .some) .none hck hN

/-- A token that may be left out. -/
theorem agree_optional_sym {piece : String} (hpiece : piece.toList.all isPlain = true)
    (hne : piece.toList ≠ []) (hck : c.Beside s δ d k) (hN : c.rest.length < N) :
    Agree s δ d N (Option.Rel fun _ _ => True) (optional (sym piece) c) (optional (sym piece) k) :=
  agree_optional (agree_sym hpiece hne hck (Nat.le_of_lt hN)) hck hN

/-! ## Lists -/

theorem agree_commaList {α : Type} {R : α → α → Prop} {p q : Matcher α} {L : Nat}
    (hp : AgreeBelow s δ L R p q) (hfirst : Agree s δ d c.rest.length R (p c) (q k))
    (hL : c.rest.length ≤ L) (hn : c.rest.length ≤ n) (hm : c.rest.length ≤ m)
    (hN : c.rest.length ≤ N) :
    Agree s δ d N (List.Forall₂ R) (commaList n p c) (commaList m q k) := by
  refine hfirst.andThen fun v w c₁ k₁ hv h₁ hlt => ?_
  refine Agree.map (Agree.many (R := R) (fun c₂ k₂ h₂ hle => ?_) (by omega) (by omega) h₁ (by omega))
    fun _ _ hvs => .cons hv hvs
  exact (agree_sym rfl (by decide) h₂ (Nat.le_refl _)).before fun c₃ k₃ h₃ hlt₃ =>
    hp h₃ (by omega) (by omega)

theorem agree_bracketed {α : Type} {R : α → α → Prop} {p q : Matcher α} {opening closing : String}
    (hopening : ∀ {N c k}, c.Beside s δ d k → c.rest.length ≤ N →
      Agree s δ e N (fun _ _ => True) (sym opening c) (sym opening k))
    (hclosing : ∀ {N c k}, c.Beside s δ e k → c.rest.length ≤ N →
      Agree s δ d N (fun _ _ => True) (sym closing c) (sym closing k))
    (hp : AgreeBelow s δ c.rest.length R p q) (hn : c.rest.length ≤ n) (hm : c.rest.length ≤ m)
    (hck : c.Beside s δ d k) (hN : c.rest.length ≤ N) :
    Agree s δ d N (List.Forall₂ R) (bracketed n opening closing p c)
      (bracketed m opening closing q k) := by
  refine (hopening hck (Nat.le_refl _)).andThen fun _ _ c₁ k₁ _ h₁ hlt => ?_
  refine Agree.closedBy (n := c.rest.length) (Agree.map (agree_optional (R := List.Forall₂ R) ?_ h₁ hlt) ?_) fun c₂ k₂ h₂ hlt₂ => hclosing h₂ (by omega)
  · refine Agree.closedBy (n := c.rest.length) (agree_commaList (L := c.rest.length) hp
      (hp h₁ hlt (Nat.le_refl _)) (by omega) (by omega) (by omega) (by omega)) fun c₂ k₂ h₂ hlt₂ =>
        agree_optional_sym rfl (by decide) h₂ hlt₂
  · intro v w hvw
    cases hvw with
    | none => exact .nil
    | some hvs => exact hvs

/-! ## Operands -/

/-- Nodes that are given their span. -/
def SameNode {α γ : Type} (f : Nat → α → γ) (δ : Nat) (F G : Span → Built α) : Prop :=
  ∀ σ τ, Same f δ (F σ) (G τ)

/-- What was already matched at both cursors agrees. -/
inductive AgreeHead (s : List Char) (δ d N : Nat) : Head → Head → Prop
  | none : AgreeHead s δ d N none none
  | some {x y} : Agree s δ d N (Same Expr.bare δ) x y → AgreeHead s δ d N (some x) (some y)

theorem map_text_eq {t u : Option Token} (h : Option.Rel Agree.SameToken t u) :
    t.map Token.text = u.map Token.text := by
  cases h with
  | none => rfl
  | some htu => exact congrArg (fun w => some (String.ofList w)) htu

theorem agree_params (hn : c.rest.length ≤ n) (hm : c.rest.length ≤ m) (hck : c.Beside s δ d k)
    (hN : c.rest.length ≤ N) : Agree s δ d N (· = ·) (params n c) (params m k) := by
  unfold params
  refine Agree.rule ((agree_open hck (Nat.le_refl _)).andThen fun _ _ c₁ k₁ _ h₁ hlt =>
    Agree.closedBy (n := c.rest.length) (agree_optional (agree_commaList (L := c.rest.length)
      (fun h _ hle => agree_ident h hle) (agree_ident h₁ (Nat.le_refl _)) (by omega) (by omega)
      (by omega) (by omega)) h₁ hlt) fun c₂ k₂ h₂ hlt₂ => agree_close h₂ (by omega))
    fun ts us hts _ _ => ?_
  cases hts with
  | none => rfl
  | some hts =>
    dsimp only [Option.getD_some]
    induction hts with
    | nil => rfl
    | cons ht _ ih => rw [List.map_cons, List.map_cons, Token.text, Token.text, ht, ih]

theorem agree_functionExpr : AgreeAt s δ 1 (Same Expr.bare δ) functionExpr := by
  intro d N c k n m h hsuff hck hN
  obtain ⟨n, m, rfl, rfl, hsuff, hb⟩ := h.unfold hsuff
  obtain ⟨hn, hm⟩ := hsuff.many
  rw [functionExpr, functionExpr]
  refine Agree.rule (R := fun a b => a.1.map Token.text = b.1.map Token.text ∧ a.2.1 = b.2.1 ∧
    Same Stmt.bares δ a.2.2 b.2.2) ((agree_kw "function" hck.numbered (Nat.le_refl _)).andThen
    fun _ _ c₁ k₁ _ h₁ hlt => Agree.andThen (n := c.rest.length)
      (agree_optional (agree_ident h₁ (Nat.le_of_lt hlt)) h₁ hlt) fun name name' c₂ k₂ hname h₂ hlt₂ =>
        (agree_params (by omega) (by omega) h₂ (Nat.le_refl _)).andThen fun ps ps' c₃ k₃ hps h₃ hlt₃ =>
          (hb.functionBody h₃ (by omega) (by omega)).map fun body body' hbody =>
            ⟨map_text_eq hname, hps, hbody⟩) ?_
  rintro ⟨name, ps, body⟩ ⟨name', ps', body'⟩ ⟨hname, rfl, hbody⟩ σ τ
  refine Same.bind hbody fun x y hxy => Same.pure ?_
  rw [Expr.bare, Expr.bare, FunctionNode.bare, FunctionNode.bare, hname, hxy, hck.next, Nat.add_zero]

theorem agree_literal (hck : c.Beside s δ d k) (hN : c.rest.length ≤ N) :
    Agree s δ d N (Same Expr.bare δ) (literal c) (literal k) := by
  unfold literal
  refine Agree.rule (T := Same Expr.bare δ) ?_ fun _ _ hvw _ _ => hvw
  refine Agree.firstOf_cons ?number <| Agree.firstOf_cons ?string <| Agree.firstOf_cons ?true <|
    Agree.firstOf_cons ?false <| Agree.firstOf_cons ?null .fail
  case number =>
    refine (Agree.token Lexeme.number_stays hck hN).map fun t u htu => ?_
    refine Same.bind (same_numberValue htu _ _) fun x y hxy => Same.pure ?_
    rw [Expr.bare, Expr.bare, show x = y from hxy]
  case string =>
    refine (Agree.token Lexeme.string_stays hck hN).map fun t u htu => .built ?_
    rw [Expr.bare, Expr.bare, htu]
  all_goals
    refine (agree_kw _ hck hN).map fun t u _ => .built ?_
    rw [Expr.bare, Expr.bare]

theorem agree_nameExpr (hck : c.Beside s δ d k) (hN : c.rest.length ≤ N) :
    Agree s δ d N (Same Expr.bare δ) (nameExpr c) (nameExpr k) := by
  unfold nameExpr
  refine (agree_ident hck hN).map fun t u htu => .built ?_
  rw [Expr.bare, Expr.bare, Token.text, Token.text, htu]

theorem agree_primary : AgreeAt s δ 2 (Same Expr.bare δ) primary := by
  intro d N c k n m h hsuff hck hN
  obtain ⟨n, m, rfl, rfl, hsuff', hb⟩ := h.unfold hsuff
  obtain ⟨hn, hm⟩ := hsuff'.many
  rw [primary, primary]
  refine Agree.rule (T := Same Expr.bare δ) ?_ fun _ _ hvw _ _ => hvw
  refine Agree.firstOf_cons (agree_functionExpr h hsuff' hck hN) <|
    Agree.firstOf_cons ?this <| Agree.firstOf_cons (agree_literal hck hN) <|
    Agree.firstOf_cons (agree_nameExpr hck hN) <| Agree.firstOf_cons ?array <|
    Agree.firstOf_cons ?object <| Agree.firstOf_cons ?parentheses .fail
  case this =>
    unfold thisExpr
    refine (agree_kw "this" hck hN).map fun t u _ => .built ?_
    rw [Expr.bare, Expr.bare]
  case array =>
    refine Agree.rule (agree_bracketed (fun h hN => agree_sym rfl (by decide) h hN)
      (fun h hN => agree_sym rfl (by decide) h hN) hb.assignment hn hm hck hN) fun vs ws hvs σ τ => ?_
    refine Same.bind (Same.mapM hvs) fun xs ys hs => Same.pure ?_
    rw [Expr.bare, Expr.bare, Expr.bares_eq_map, Expr.bares_eq_map, hs]
  case object =>
    refine Agree.rule (agree_bracketed (fun h hN => agree_sym rfl (by decide) h hN)
      (fun h hN => agree_sym rfl (by decide) h hN) hb.property hn hm hck hN) fun vs ws hvs σ τ => ?_
    refine Same.bind (Same.mapM hvs) fun xs ys hs => Same.pure ?_
    rw [Expr.bare, Expr.bare, PropertyDef.bares_eq_map, PropertyDef.bares_eq_map, hs]
  case parentheses =>
    refine Agree.rule ((agree_open hck (Nat.le_refl _)).andThen fun _ _ c₁ k₁ _ h₁ hlt => ?_)
      fun _ _ hvw _ _ => hvw
    exact (hb.expression h₁ hlt (Nat.le_refl _)).closedBy fun c₂ k₂ h₂ hlt₂ =>
      agree_close h₂ (by omega)

theorem agree_dotMember (hck : c.Beside s δ d k) (hN : c.rest.length ≤ N) :
    Agree s δ d N (SameSuffix δ) (dotMember c) (dotMember k) := by
  unfold dotMember
  refine Agree.rule ((agree_sym rfl (by decide) hck (Nat.le_refl _)).before fun c₁ k₁ h₁ hlt =>
    Agree.token Lexeme.word_stays h₁ (by omega)) fun t u htu σ τ => ?_
  rw [Token.text, Token.text, htu]
  exact .named

theorem agree_memberChain : AgreeAt s δ 3 (Same Expr.bare δ) memberChain := by
  intro d N c k n m h hsuff hck hN
  obtain ⟨n, m, rfl, rfl, hsuff', hb⟩ := h.unfold hsuff
  obtain ⟨hn, hm⟩ := hsuff'.many
  rw [memberChain, memberChain]
  refine Agree.rule ((agree_primary h hsuff' hck (Nat.le_refl _)).andThen fun v w c₁ k₁ hv h₁ hlt =>
    Agree.map (Agree.many (fun c₂ k₂ h₂ hle => ?_) (by omega) (by omega) h₁ (by omega))
      fun _ _ hss => same_chain hv hss) fun _ _ hvw _ _ => hvw
  exact (agree_dotMember h₂ (Nat.le_refl _)).or (hb.indexMember h₂ (by omega) (Nat.le_refl _))

theorem agree_newExpr : AgreeAt s δ 1 (Same Expr.bare δ) newExpr := by
  intro d N c k n m h hsuff hck hN
  obtain ⟨n, m, rfl, rfl, hsuff, hb⟩ := h.unfold hsuff
  rw [newExpr, newExpr]
  refine Agree.rule (R := fun a b => Same Expr.bare δ a.1 b.1 ∧ Option.Rel (SameSuffix δ) a.2 b.2)
    ((agree_kw "new" hck (Nat.le_refl _)).andThen fun _ _ c₁ k₁ _ h₁ hlt =>
    (hb.memberChain h₁ hlt (Nat.le_refl _)).andThen fun v w c₂ k₂ hv h₂ hlt₂ =>
      Agree.map (agree_optional (hb.arguments h₂ (by omega) (by omega)) h₂ (by omega))
        fun a b hab => ⟨hv, hab⟩) ?_
  rintro ⟨v, a⟩ ⟨w, b⟩ ⟨hv, hab⟩ σ τ
  refine Same.bind hv fun x y hxy => ?_
  have hbare : (Expr.construct σ x []).bare δ = (Expr.construct τ y []).bare 0 := by
    rw [Expr.bare, Expr.bare, Expr.bares, Expr.bares, hxy]
  cases hab with
  | none => exact .built hbare
  | some hab =>
    cases hab with
    | arguments hvs =>
      refine Same.bind (Same.mapM hvs) fun xs ys hs => Same.pure ?_
      rw [Expr.bare, Expr.bare, Expr.bares_eq_map, Expr.bares_eq_map, hxy, hs]
    | named => exact .built hbare
    | computed => exact .built hbare

theorem agree_lhsExpr : AgreeAt s δ 3 (Same Expr.bare δ) lhsExpr := by
  intro d N c k n m h hsuff hck hN
  obtain ⟨n, m, rfl, rfl, hsuff', hb⟩ := h.unfold hsuff
  obtain ⟨hn, hm⟩ := hsuff'.many
  have hnew : Suffices 1 c n m := ⟨by have := hsuff'.left; omega, by have := hsuff'.right; omega⟩
  rw [lhsExpr, lhsExpr]
  refine Agree.rule (((agree_newExpr h hnew hck (Nat.le_refl _)).or
    (agree_primary h hsuff' hck (Nat.le_refl _))).andThen fun v w c₁ k₁ hv h₁ hlt =>
      Agree.map (Agree.many (fun c₂ k₂ h₂ hle => ?_) (by omega) (by omega) h₁ (by omega))
        fun _ _ hss => same_chain hv hss) fun _ _ hvw _ _ => hvw
  exact Agree.firstOf_cons (hb.arguments h₂ (by omega) (Nat.le_refl _)) <|
    Agree.firstOf_cons (agree_dotMember h₂ (Nat.le_refl _)) <|
    Agree.firstOf_cons (hb.indexMember h₂ (by omega) (Nat.le_refl _)) .fail

theorem agree_arguments : AgreeAt s δ 1 (SameSuffix δ) arguments := by
  intro d N c k n m h hsuff hck hN
  obtain ⟨n, m, rfl, rfl, hsuff, hb⟩ := h.unfold hsuff
  obtain ⟨hn, hm⟩ := hsuff.many
  rw [Grammar.arguments, Grammar.arguments]
  exact Agree.rule (agree_bracketed agree_open agree_close hb.assignment hn hm hck hN)
    fun vs ws hvs σ τ => .arguments hvs

theorem agree_indexMember : AgreeAt s δ 1 (SameSuffix δ) indexMember := by
  intro d N c k n m h hsuff hck hN
  obtain ⟨n, m, rfl, rfl, hsuff, hb⟩ := h.unfold hsuff
  rw [indexMember, indexMember]
  refine Agree.rule ((agree_sym rfl (by decide) hck (Nat.le_refl _)).andThen
    fun _ _ c₁ k₁ _ h₁ hlt => ?_) fun v w hvw σ τ => .computed hvw
  exact (hb.expression h₁ hlt (Nat.le_refl _)).closedBy fun c₂ k₂ h₂ hlt₂ =>
    agree_sym rfl (by decide) h₂ (by omega)

theorem agree_propertyKey (hck : c.Beside s δ d k) (hN : c.rest.length ≤ N) :
    Agree s δ d N (SameNode (fun _ => id) δ) (propertyKey c) (propertyKey k) := by
  unfold propertyKey
  refine Agree.rule (T := SameNode (fun _ => id) δ) ?_ fun _ _ hvw _ _ => hvw
  refine Agree.firstOf_cons ?string <| Agree.firstOf_cons ?number <| Agree.firstOf_cons ?word .fail
  case string =>
    refine (Agree.token Lexeme.string_stays hck hN).map fun t u htu σ τ => .built ?_
    rw [htu]
  case number =>
    refine (Agree.token Lexeme.number_stays hck hN).map fun t u htu σ τ => ?_
    refine Same.bind (same_numberValue htu _ _) fun x y hxy => Same.pure ?_
    rw [show x = y from hxy]
  case word =>
    refine (Agree.token Lexeme.word_stays hck hN).map fun t u htu σ τ => .built ?_
    rw [Token.text, Token.text, htu]

theorem agree_property : AgreeAt s δ 1 (Same PropertyDef.bare δ) property := by
  intro d N c k n m h hsuff hck hN
  obtain ⟨n, m, rfl, rfl, hsuff, hb⟩ := h.unfold hsuff
  rw [property, property]
  refine Agree.rule (R := SameNode PropertyDef.bare δ) (Agree.or ?_ ?_) fun _ _ hvw σ τ => hvw σ τ
  · refine Agree.andThen (n := c.rest.length) ((agree_propertyKey hck (Nat.le_refl _)).closedBy
      fun c₁ k₁ h₁ hlt => agree_sym rfl (by decide) h₁ (Nat.le_of_lt hlt)) fun f g c₁ k₁ hkey h₁ hlt => ?_
    refine (hb.assignment h₁ hlt (by omega)).map fun v w hvw σ τ => ?_
    refine Same.bind (hkey σ τ) fun x y hxy => Same.bind hvw fun x' y' hval => Same.pure ?_
    rw [PropertyDef.bare, PropertyDef.bare, show x = y from hxy, hval]
  · refine (agree_ident hck hN).map fun t u htu σ τ => .built ?_
    rw [PropertyDef.bare, PropertyDef.bare, Expr.bare, Expr.bare, Token.text, Token.text, htu]

/-! ## Operators -/

/-- The rule agrees if what was already matched does. -/
def AgreeWith (s : List Char) (δ r : Nat) (p : Nat → Head → Matcher (Built Expr)) : Prop :=
  ∀ {d N c k n m head head'}, Shorter s δ c.rest.length → Suffices r c n m → c.Beside s δ d k →
    AgreeHead s δ d c.rest.length head head' → c.rest.length ≤ N →
    Agree s δ d N (Same Expr.bare δ) (p n head c) (p m head' k)

theorem Suffices.mono {r' : Nat} (h : Suffices r c n m) (hr : r' ≤ r) : Suffices r' c n m :=
  ⟨Nat.le_trans (Nat.add_le_add_left hr _) h.left, Nat.le_trans (Nat.add_le_add_left hr _) h.right⟩

theorem agree_updated : AgreeWith s δ 4 updated := by
  intro d N c k n m head head' h hsuff hck hhead hN
  obtain ⟨n, m, rfl, rfl, hsuff', hb⟩ := h.unfold hsuff
  rw [updated, updated]
  have hgiven : Agree s δ d c.rest.length (Same Expr.bare δ) (given head (lhsExpr n) c)
      (given head' (lhsExpr m) k) := by
    cases hhead with
    | none => exact agree_lhsExpr h hsuff' hck (Nat.le_refl _)
    | some hreply => exact hreply
  refine Agree.rule (R := fun a b => Same Expr.bare δ a.1 b.1 ∧ Option.Rel (· = ·) a.2 b.2)
    (hgiven.andThen fun v w c₁ k₁ hv h₁ hlt => Agree.map
      (agree_optional (agree_pick updateOps_stays h₁ (by omega)) h₁ (by omega))
      fun a b hab => ⟨hv, hab⟩) ?_
  rintro ⟨v, a⟩ ⟨w, b⟩ ⟨hv, hab⟩ σ τ
  cases hab with
  | none => exact hv
  | some hab => exact hab ▸ same_updateNode _ false σ τ hv

theorem agree_unary : AgreeWith s δ 5 unary := by
  intro d N c k n m head head' h hsuff hck hhead hN
  obtain ⟨n, m, rfl, rfl, hsuff', hb⟩ := h.unfold hsuff
  rw [unary, unary]
  refine Agree.rule (R := SameNode Expr.bare δ) ?_ fun _ _ hvw σ τ => hvw σ τ
  refine Agree.firstOf_cons ?unary <| Agree.firstOf_cons ?update <| Agree.firstOf_cons ?updated .fail
  case unary =>
    refine Agree.andThen (n := c.rest.length) (R := (· = ·)) (Agree.rule
      (agree_pick unaryOps_stays hck (Nat.le_refl _)) fun _ _ h _ _ => h)
      fun op op' c₁ k₁ hop h₁ hlt => ?_
    refine (hb.unary h₁ hlt (by omega)).map fun v w hvw σ τ => Same.bind hvw fun x y hxy =>
      Same.pure ?_
    rw [Expr.bare, Expr.bare, hop, hxy]
  case update =>
    refine (agree_pick updateOps_stays hck (Nat.le_refl _)).andThen fun op op' c₁ k₁ hop h₁ hlt => ?_
    refine (hb.unary h₁ hlt (by omega)).map fun v w hvw σ τ => ?_
    exact hop ▸ same_updateNode _ true σ τ hvw
  case updated =>
    exact (agree_updated h hsuff' hck hhead hN).map fun v w hvw σ τ => hvw

theorem agree_power (hck : c.Beside s δ d k) (hN : c.rest.length ≤ N) :
    Agree s δ d N Agree.SameToken (power c) (power k) :=
  .token (Lexeme.operator_stays (by decide) (by decide)) hck hN

theorem agree_exponent : AgreeWith s δ 6 exponent := by
  intro d N c k n m head head' h hsuff hck hhead hN
  obtain ⟨n, m, rfl, rfl, hsuff', hb⟩ := h.unfold hsuff
  rw [exponent, exponent]
  refine Agree.rule
    (R := fun a b => Same Expr.bare δ a.1 b.1 ∧ Option.Rel (Same Expr.bare δ) a.2 b.2)
    ((agree_unary h hsuff' hck hhead (Nat.le_refl _)).andThen fun v w c₁ k₁ hv h₁ hlt => Agree.map
      (agree_optional ?_ h₁ (by omega)) fun a b hab => ⟨hv, hab⟩) ?_
  · exact (agree_power h₁ (Nat.le_refl _)).before fun c₂ k₂ h₂ hlt₂ =>
      hb.exponent h₂ (by omega) (by omega)
  · rintro ⟨v, a⟩ ⟨w, b⟩ ⟨hv, hab⟩ σ τ
    cases hab with
    | none => exact hv
    | some hab =>
      refine Same.bind hv fun x y hxy => Same.bind hab fun x' y' hxy' => Same.pure ?_
      rw [Expr.bare, Expr.bare, hxy, hxy']

theorem agree_level (ops : List (List (Lexeme × Operator))) (hops : ∀ table ∈ ops, StayAll table)
    (hlength : ops.length ≤ 11) : AgreeWith s δ (7 + ops.length) (level · ops) := by
  induction ops with
  | nil =>
    intro d N c k n m head head' h hsuff hck hhead hN
    obtain ⟨n, m, rfl, rfl, hsuff', hb⟩ := h.unfold hsuff
    beta_reduce
    rw [level, level]
    exact agree_exponent h hsuff' hck hhead hN
  | cons table tighter ih =>
    intro d N c k n m head head' h hsuff hck hhead hN
    rw [List.length_cons] at hlength
    have htighter : ∀ table ∈ tighter, StayAll table := fun t ht => hops t (List.mem_cons_of_mem _ ht)
    obtain ⟨n, m, rfl, rfl, hsuff', hb⟩ := h.unfold hsuff
    obtain ⟨hn, hm⟩ := hsuff'.many
    beta_reduce
    rw [level, level]
    refine Agree.rule ((ih htighter (by omega) h hsuff' hck hhead (Nat.le_refl _)).andThen
      fun v w c₁ k₁ hv h₁ hlt => Agree.map (Agree.many (R := SamePair δ) (fun c₂ k₂ h₂ hle => ?_)
        (by omega) (by omega) h₁ (by omega)) fun _ _ hrest => same_groupLeft hv hrest)
      fun _ _ hvw _ _ => hvw
    refine (agree_pick (hops _ List.mem_cons_self) h₂ (Nat.le_refl _)).andThen
      fun op op' c₃ k₃ hop h₃ hlt₃ => ?_
    exact (hb.level tighter htighter (by omega) h₃ (by omega) (by omega)).map fun v w hvw => ⟨hop, hvw⟩

theorem agree_conditional : AgreeWith s δ 19 conditional := by
  intro d N c k n m head head' h hsuff hck hhead hN
  obtain ⟨n, m, rfl, rfl, hsuff', hb⟩ := h.unfold hsuff
  rw [conditional, conditional]
  refine Agree.rule (R := fun a b => Same Expr.bare δ a.1 b.1 ∧
    Option.Rel (fun x y => Same Expr.bare δ x.1 y.1 ∧ Same Expr.bare δ x.2 y.2) a.2 b.2)
    ((agree_level precedence precedence_stays (by decide) h hsuff' hck hhead (Nat.le_refl _)).andThen
      fun v w c₁ k₁ hv h₁ hlt => Agree.map (agree_optional ?_ h₁ (by omega)) fun a b hab => ⟨hv, hab⟩) ?_
  · refine (agree_sym rfl (by decide) h₁ (Nat.le_refl _)).andThen fun _ _ c₂ k₂ _ h₂ hlt₂ => ?_
    refine (hb.assignment h₂ (by omega) (Nat.le_refl _)).andThen fun x y c₃ k₃ hxy h₃ hlt₃ => ?_
    refine (agree_sym rfl (by decide) h₃ (Nat.le_refl _)).before fun c₄ k₄ h₄ hlt₄ => ?_
    exact (hb.assignment h₄ (by omega) (by omega)).map fun x' y' hxy' => ⟨hxy, hxy'⟩
  · rintro ⟨v, a⟩ ⟨w, b⟩ ⟨hv, hab⟩ σ τ
    cases hab with
    | none => exact hv
    | some hab =>
      refine Same.bind hv fun x y hxy => Same.bind hab.1 fun x' y' hxy' =>
        Same.bind hab.2 fun x'' y'' hxy'' => Same.pure ?_
      rw [Expr.bare, Expr.bare, hxy, hxy', hxy'']

theorem agree_assignment : AgreeAt s δ 20 (Same Expr.bare δ) assignment := by
  intro d N c k n m h hsuff hck hN
  obtain ⟨n, m, rfl, rfl, hsuff', hb⟩ := h.unfold hsuff
  rw [assignment, assignment]
  have hhead := agree_lhsExpr h (hsuff'.mono (by omega)) hck (Nat.le_refl _)
  refine Agree.rule (R := SameNode Expr.bare δ) ?_ fun _ _ hvw σ τ => hvw σ τ
  refine Agree.or ?_ ((agree_conditional h hsuff' hck (.some hhead) hN).map fun _ _ hvw σ τ => hvw)
  refine Agree.andThen (p := fun _ => lhsExpr n c) (q := fun _ => lhsExpr m k) hhead
    fun v w c₁ k₁ hv h₁ hlt => ?_
  refine (agree_pick assignOps_stays h₁ (Nat.le_refl _)).andThen fun op op' c₂ k₂ hop h₂ hlt₂ => ?_
  refine (hb.assignment h₂ (by omega) (by omega)).map fun x y hxy σ τ => ?_
  exact hop ▸ same_assignNode _ σ τ hv hxy

theorem agree_expression : AgreeAt s δ 21 (Same Expr.bare δ) expression := by
  intro d N c k n m h hsuff hck hN
  obtain ⟨n, m, rfl, rfl, hsuff', hb⟩ := h.unfold hsuff
  obtain ⟨hn, hm⟩ := hsuff'.many
  rw [expression, expression]
  refine (agree_commaList hb.assignment (agree_assignment h hsuff' hck (Nat.le_refl _))
    (Nat.le_refl _) hn hm hN).rule fun vs ws hvs σ τ => ?_
  refine Same.bind (Same.mapM hvs) fun xs ys hs => ?_
  have hseq : (Expr.sequence σ xs).bare δ = (Expr.sequence τ ys).bare 0 := by
    rw [Expr.bare, Expr.bare, Expr.bares_eq_map, Expr.bares_eq_map, hs]
  have hlength := congrArg List.length hs
  rcases xs with _ | ⟨x, _ | ⟨x', xs⟩⟩ <;> rcases ys with _ | ⟨y, _ | ⟨y', ys⟩⟩ <;> first
    | exact .built hseq
    | exact .built (List.cons.inj hs).1
    | simp at hlength

end Fermata.Grammar
