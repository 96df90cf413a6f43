import Fermata.Proofs.Grammar.Numbering

/-!
# Expressions are numbered as they are read

One lemma for each rule of the grammar that reads an expression: if every rule gives numbered trees at
one depth, this rule does at the next one.
-/

namespace Fermata.Grammar

open Matcher Mention Yields

variable {n : Nat}

/-- The alternatives of a choice, one by one. -/
theorem yields_firstOf_cons {α : Type} {c : Cursor} {p : Matcher α} {ps : List (Matcher α)}
    {T : α → Nat → Prop} (hp : Yields p c T) (hps : Yields (firstOf ps) c T) :
    Yields (firstOf (p :: ps)) c T :=
  hp.or hps

theorem reads_expression (h : Rules n) : ReadsExpr (expression (n + 1)) := by
  intro c
  rw [expression]
  refine Yields.rule ((yields_commaList h.assignment n c).weaken fun vs m hvs span => ?_)
  refine Spells.bind fun es hes => ?_
  have hnum := numbered_chain hvs hes
  split
  · refine Spells.pure ?_
    simpa using hnum
  · refine Spells.pure ?_
    rw [ofExpr, ofExprs_eq]
    exact hnum

theorem reads_assignment (h : Rules n) : ReadsExpr (assignment (n + 1)) := by
  intro c
  rw [assignment]
  refine Yields.rule ?_
  have hhead : Yields (fun _ => lhsExpr n c) c (Spells ofExpr c.nextFunction) := fun v c' hv =>
    h.lhsExpr c v c' hv
  have hfits : Head.Fits (some (lhsExpr n c)) c := fun reply heq v c' hv => by
    cases heq
    exact h.lhsExpr c v c' hv
  have hboth : Yields ((Matcher.andThen (fun _ => lhsExpr n c) fun target =>
      (pick assignOps).andThen fun op => (assignment n).map fun value => assignNode op target value).or
        ((conditional n (some (lhsExpr n c))).map fun e _ => e)) c
      fun node m => ∀ span, Spells ofExpr c.nextFunction (node span) m := by
    refine Yields.or (hhead.andThen fun target c₁ ht => ?_) (Yields.map ?_)
    · refine (yields_pick assignOps c₁).andThen fun op c₂ hop => Yields.map ?_
      refine (h.assignment c₂).weaken fun value m hv span => ?_
      rw [hop] at hv
      exact spells_assignNode ht hv
    · exact (h.conditional _ c hfits).weaken fun e m he _ => he
  exact hboth

theorem reads_conditional (h : Rules n) (head : Head) (c : Cursor) (hhead : Head.Fits head c) :
    Yields (conditional (n + 1) head) c (Spells ofExpr c.nextFunction) := by
  rw [conditional]
  refine Yields.rule ((h.level precedence head c hhead).andThen fun test c₁ ht => ?_)
  refine Yields.map (Yields.optional ?_ fun span => ht)
  refine (yields_sym "?" c₁).andThen fun _ c₂ h₂ => (h.assignment c₂).andThen fun yes c₃ hyes => ?_
  refine (yields_sym ":" c₃).before fun c₄ _ h₄ => Yields.map ?_
  refine (h.assignment c₄).weaken fun no m hno span => ?_
  refine Spells.bind fun t htest => Spells.bind fun y hy => Spells.bind fun e he => Spells.pure ?_
  rw [h₂] at hyes
  rw [h₄] at hno
  rw [ofExpr]
  exact (ht t htest).append ((hyes y hy).append (hno e he))

theorem reads_level (h : Rules n) (ops : List (List (Lexeme × Operator))) (head : Head) (c : Cursor)
    (hhead : Head.Fits head c) :
    Yields (level (n + 1) ops head) c (Spells ofExpr c.nextFunction) := by
  cases ops with
  | nil =>
    rw [level]
    exact h.exponent head c hhead
  | cons ops tighter =>
    rw [level]
    refine Yields.rule ((h.level tighter head c hhead).andThen fun first c₁ hfirst => Yields.map ?_)
    refine (Yields.many (Q := fun a (v : Operator × Built Expr) b => Spells ofExpr a v.2 b)
      (fun c₂ => ?_) n c₁).weaken fun rest m hrest span => spells_groupLeft hfirst hrest
    refine (yields_pick ops c₂).andThen fun op c₃ h₃ => Yields.map ?_
    rw [← h₃]
    exact h.level tighter none c₃ (Head.fits_none c₃)

theorem reads_exponent (h : Rules n) (head : Head) (c : Cursor) (hhead : Head.Fits head c) :
    Yields (exponent (n + 1) head) c (Spells ofExpr c.nextFunction) := by
  rw [exponent]
  refine Yields.rule ((h.unary head c hhead).andThen fun base c₁ hbase => ?_)
  refine Yields.map (Yields.optional ?_ fun span => hbase)
  refine ((Yields.token _ c₁).weaken fun _ _ ht => ht.1).before fun c₂ _ h₂ => ?_
  refine (h.exponent none c₂ (Head.fits_none c₂)).weaken fun e m he span => ?_
  refine Spells.bind fun b hb => Spells.bind fun x hx => Spells.pure ?_
  rw [h₂] at he
  rw [ofExpr]
  exact (hbase b hb).append (he x hx)

theorem reads_unary (h : Rules n) (head : Head) (c : Cursor) (hhead : Head.Fits head c) :
    Yields (unary (n + 1) head) c (Spells ofExpr c.nextFunction) := by
  rw [unary]
  refine Yields.rule (yields_firstOf_cons ?_ (yields_firstOf_cons ?_ (yields_firstOf_cons ?_ fail)))
  · refine (Yields.rule ((yields_pick unaryOps c).weaken fun _ _ h₁ _ => h₁)).andThen
      fun op c₁ h₁ => Yields.map ?_
    refine (h.unary none c₁ (Head.fits_none c₁)).weaken fun arg m harg span => ?_
    refine Spells.bind fun a ha => Spells.pure ?_
    rw [h₁] at harg
    rw [ofExpr]
    exact harg a ha
  · refine (yields_pick updateOps c).andThen fun op c₁ h₁ => Yields.map ?_
    refine (h.unary none c₁ (Head.fits_none c₁)).weaken fun target m ht span => ?_
    rw [h₁] at ht
    exact spells_updateNode ht
  · exact Yields.map ((h.updated head c hhead).weaken fun e m he _ => he)

theorem reads_updated (h : Rules n) (head : Head) (c : Cursor) (hhead : Head.Fits head c) :
    Yields (updated (n + 1) head) c (Spells ofExpr c.nextFunction) := by
  rw [updated]
  have hgiven : Yields (given head (lhsExpr n)) c (Spells ofExpr c.nextFunction) := by
    cases head with
    | none => exact h.lhsExpr c
    | some reply => exact hhead reply rfl
  refine Yields.rule (hgiven.andThen fun target c₁ ht => Yields.map (Yields.optional ?_ fun _ => ht))
  refine (yields_pick updateOps c₁).weaken fun op m hm span => ?_
  rw [hm]
  exact spells_updateNode ht

/-! ## Operands -/

theorem reads_dotMember (c : Cursor) : Yields dotMember c (SpellsSuffix c.nextFunction) := by
  refine Yields.rule ((yields_sym "." c).before fun c₁ _ h₁ => ?_)
  refine (Yields.token _ c₁).weaken fun t m ht span => ?_
  exact ht.1.trans h₁

theorem reads_lhsExpr (h : Rules n) : ReadsExpr (lhsExpr (n + 1)) := by
  intro c
  rw [lhsExpr]
  refine Yields.rule (((h.newExpr c).or (h.primary c)).andThen fun base c₁ hbase => Yields.map ?_)
  refine (Yields.many (fun c₂ => ?_) n c₁).weaken fun ss m hss span => spells_chain hbase hss
  exact yields_firstOf_cons (h.arguments c₂)
    (yields_firstOf_cons (reads_dotMember c₂) (yields_firstOf_cons (h.indexMember c₂) fail))

theorem reads_newExpr (h : Rules n) : ReadsExpr (newExpr (n + 1)) := by
  intro c
  rw [newExpr]
  refine Yields.rule ((yields_kw "new" c).andThen fun _ c₁ h₁ => ?_)
  refine (h.memberChain c₁).andThen fun callee c₂ hcallee => Yields.map ?_
  rw [h₁] at hcallee
  refine Yields.optional (fun v c' hv span => ?_) fun span => ?_
  · obtain ⟨span', args, rfl⟩ := h.arguments_only c₂ v c' hv
    have hargs := h.arguments c₂ _ c' hv
    refine Spells.bind fun e he => Spells.bind fun es hes => Spells.pure ?_
    rw [ofExpr, ofExprs_eq]
    exact (hcallee e he).append (numbered_chain hargs hes)
  · refine Spells.bind fun e he => Spells.pure ?_
    rw [ofExpr, ofExprs, List.append_nil]
    exact hcallee e he

theorem reads_memberChain (h : Rules n) : ReadsExpr (memberChain (n + 1)) := by
  intro c
  rw [memberChain]
  refine Yields.rule ((h.primary c).andThen fun base c₁ hbase => Yields.map ?_)
  refine (Yields.many (fun c₂ => ?_) n c₁).weaken fun ss m hss span => spells_chain hbase hss
  exact (reads_dotMember c₂).or (h.indexMember c₂)

theorem reads_arguments (h : Rules n) (c : Cursor) :
    Yields (arguments (n + 1)) c (SpellsSuffix c.nextFunction) := by
  rw [arguments]
  exact Yields.rule ((yields_bracketed h.assignment n "(" ")" c).weaken fun args m hargs _ => hargs)

theorem arguments_arguments (c : Cursor) :
    Yields (arguments (n + 1)) c fun s _ => ∃ span args, s = .arguments span args := by
  rw [arguments]
  exact Yields.rule fun args _ _ span => ⟨span, args, rfl⟩

theorem reads_indexMember (h : Rules n) (c : Cursor) :
    Yields (indexMember (n + 1)) c (SpellsSuffix c.nextFunction) := by
  rw [indexMember]
  refine Yields.rule ((yields_sym "[" c).andThen fun _ c₁ h₁ => ?_)
  refine ((h.expression c₁).closedBy (yields_sym "]")).weaken fun key m hkey span => ?_
  rw [h₁] at hkey
  exact hkey

/-- What a token stands for mentions nothing, or a name. -/
theorem reads_leaf {l : Lexeme} {f : Token → Built Expr} (c : Cursor)
    (hf : ∀ t e, f t = .ok e → ofExpr e = []) :
    Yields ((Matcher.token l).map f) c (Spells ofExpr c.nextFunction) := by
  refine Yields.map ((Yields.token l c).weaken fun t m ht e he => ?_)
  rw [hf t e he, ht.1]
  exact .nil

theorem reads_literal : ReadsExpr literal := by
  intro c
  refine Yields.rule (Yields.weaken (S := Spells ofExpr c.nextFunction) ?_ fun _ _ h _ => h)
  refine yields_firstOf_cons (reads_leaf c fun t e he => ?_) <|
    yields_firstOf_cons (reads_leaf c fun t e he => ?_) <|
    yields_firstOf_cons (reads_leaf c fun t e he => ?_) <|
    yields_firstOf_cons (reads_leaf c fun t e he => ?_) <|
    yields_firstOf_cons (reads_leaf c fun t e he => ?_) fail
  · cases hv : numberValue t t.span with
    | error x =>
      rw [hv] at he
      cases he
    | ok x =>
      rw [hv] at he
      cases he
      rw [ofExpr]
  all_goals
    cases he
    rw [ofExpr]

theorem reads_nameExpr : ReadsExpr nameExpr := by
  intro c
  refine Yields.map ((yields_ident c).weaken fun t m ht => Spells.pure ?_)
  rw [ofExpr, ht.1]
  exact .name ht.2 .nil

theorem reads_primary (h : Rules n) : ReadsExpr (primary (n + 1)) := by
  intro c
  rw [primary]
  refine Yields.rule (Yields.weaken (S := Spells ofExpr c.nextFunction) ?_ fun _ _ h _ => h)
  refine yields_firstOf_cons (h.functionExpr c) <| yields_firstOf_cons ?this <|
    yields_firstOf_cons (reads_literal c) <| yields_firstOf_cons (reads_nameExpr c) <|
    yields_firstOf_cons (Yields.rule ?array) <| yields_firstOf_cons (Yields.rule ?object) <|
    yields_firstOf_cons (Yields.rule ?parens) fail
  case this =>
    refine reads_leaf c fun t e he => ?_
    cases he
    rw [ofExpr]
  case array =>
    refine (yields_bracketed h.assignment n "[" "]" c).weaken fun vs m hvs span => ?_
    refine Spells.bind fun es hes => Spells.pure ?_
    rw [ofExpr, ofExprs_eq]
    exact numbered_chain hvs hes
  case object =>
    refine (yields_bracketed h.property n "\x7b" "\x7d" c).weaken fun vs m hvs span => ?_
    refine Spells.bind fun ps hps => Spells.pure ?_
    rw [ofExpr, ofProperties_eq]
    exact numbered_chain hvs hps
  case parens =>
    refine (yields_sym "(" c).andThen fun _ c₁ h₁ => ?_
    refine ((h.expression c₁).closedBy (yields_sym ")")).weaken fun e m he span => ?_
    rw [h₁] at he
    exact he

theorem yields_propertyKey (c : Cursor) :
    Yields propertyKey c fun _ m => m = c.nextFunction := by
  refine Yields.rule (Yields.weaken (S := fun _ m => m = c.nextFunction) ?_ fun _ _ h _ => h)
  exact yields_firstOf_cons (Yields.map ((Yields.token _ c).weaken fun _ _ h => h.1)) <|
    yields_firstOf_cons (Yields.map ((Yields.token _ c).weaken fun _ _ h => h.1)) <|
    yields_firstOf_cons (Yields.map ((Yields.token _ c).weaken fun _ _ h => h.1)) fail

theorem reads_property (h : Rules n) (c : Cursor) :
    Yields (property (n + 1)) c
      (Spells (fun p : PropertyDef => ofExpr p.value) c.nextFunction) := by
  rw [property]
  refine Yields.rule (Yields.or ?_ (Yields.map ?_))
  · refine ((yields_propertyKey c).closedBy (yields_sym ":")).andThen fun key c₁ h₁ => Yields.map ?_
    refine (h.assignment c₁).weaken fun value m hv span => ?_
    rw [h₁] at hv
    exact Spells.bind fun k hk => Spells.bind fun e he => Spells.pure (hv e he)
  · refine (yields_ident c).weaken fun t m ht span => Spells.pure ?_
    rw [ofExpr, ht.1]
    exact .name ht.2 .nil

/-! ## Functions -/

theorem yields_params (c : Cursor) : Yields (params n) c fun _ m => m = c.nextFunction := by
  refine Yields.rule (Yields.weaken (S := fun _ m => m = c.nextFunction) ?_ fun _ _ h _ => h)
  refine (yields_sym "(" c).andThen fun _ c₁ h₁ => ?_
  rw [← h₁]
  refine Yields.closedBy (Yields.optional ?_ rfl) (yields_sym ")")
  refine (yields_commaList (Q := fun a _ b => b = a)
    (fun c₂ => (yields_ident c₂).weaken fun _ _ h => h.1) n c₁).weaken fun ts m hts => ?_
  generalize c₁.nextFunction = a at hts ⊢
  induction hts with
  | nil => rfl
  | cons hv _ ih => exact ih.trans hv

/-- A literal takes its number before its body is read. -/
theorem reads_functionBody (h : Rules n) (c : Cursor) :
    Yields (functionBody (n + 1)) c (SpellsBoth ofStmts c.nextFunction) := by
  rw [functionBody]
  refine Yields.rule ((yields_sym "\x7b" c).andThen fun _ c₁ h₁ => ?_)
  refine ((Yields.many h.statement n c₁).closedBy (yields_sym "\x7d")).weaken
    fun vs m hvs span bare => ?_
  intro ts hts
  rw [ofStmts_eq, ← h₁]
  exact numbered_chain_both hvs bare hts

theorem reads_functionExpr (h : Rules n) : ReadsExpr (functionExpr (n + 1)) := by
  intro c
  rw [functionExpr]
  have hrule : ∀ c₀ : Cursor, c₀.nextFunction = c.nextFunction + 1 → Yields (Matcher.rule
      ((kw "function").andThen fun _ => (optional ident).andThen fun called =>
        (params n).andThen fun ps => (functionBody n).map fun body => (called, ps, body))
      (fun span found => do
        let body ← found.2.2
        return .function span ⟨c.nextFunction, found.1.map Token.text, found.2.1, body, false, span⟩))
      c₀ (Spells ofExpr c.nextFunction) := by
    intro c₀ h₀
    refine Yields.rule ((yields_kw "function" c₀).andThen fun _ c₁ h₁ => ?_)
    refine (Yields.optional (T := fun _ m => m = c₁.nextFunction)
      ((yields_ident c₁).weaken fun _ _ ht => ht.1) rfl).andThen fun called c₂ h₂ => ?_
    refine (yields_params c₂).andThen fun ps c₃ h₃ => Yields.map ?_
    refine (h.functionBody c₃).weaken fun body m hbody span => ?_
    refine Spells.bind fun ts hts => Spells.pure ?_
    have hnum := hbody false ts hts
    rw [h₃, h₂, h₁, h₀] at hnum
    rw [ofExpr]
    exact .literal rfl hnum .nil
  exact hrule { c with nextFunction := c.nextFunction + 1 } rfl

end Fermata.Grammar
