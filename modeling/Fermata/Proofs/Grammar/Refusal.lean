import Fermata.Proofs.Grammar.CoversStatement
import Fermata.Proofs.Grammar.Numeral

/-!
# What texts are refused for

A text that matches the grammar has a tree, or it is refused for something that it holds: a declaration
with `let` or `const`, an assignment, an update or a loop over a collection whose target is neither a name
nor a member, or a hexadecimal number that does not fit 64 bits.

* `Grammar.Refused`: the text holds what the refusal says, where the refusal says.
* `Grammar.Accountable`: every rule of the grammar gives a tree or such a refusal.
* `Grammar.parse_total`: so does a whole text that matches.
-/

namespace Fermata.Grammar

open Matcher

variable {whole : List Char}

/-! ## What a text holds -/

/-- The text holds what it is refused for, and at the span of the refusal. -/
inductive Refused (whole : List Char) : BuildError → Prop
  /-- A declaration with `let` or `const`. -/
  | blockScoped {n : Nat} {c c' : Cursor} {v} (hc : c.At whole) (h : (letStmt n c).result = some (v, c')) :
      Refused whole ⟨.blockScoped, ⟨c.pos, c'.pos⟩⟩
  /-- An assignment to something else than a name or a member, at the target. -/
  | assignTarget {n : Nat} {c c₁ c₂ c₃ : Cursor} {target op v} (hc : c.At whole)
      (htarget : (lhsExpr n c).result = some (.ok target, c₁)) (hno : target.isAssignable = false)
      (hop : (pick assignOps c₁.skip).result = some (op, c₂))
      (hvalue : (assignment n c₂.skip).result = some (v, c₃)) :
      Refused whole ⟨.assignTarget, target.span⟩
  /-- `++` or `--` in front of something else than a name or a member. -/
  | updateBefore {n : Nat} {c c₁ c' : Cursor} {target op} (hc : c.At whole)
      (hop : (pick updateOps c).result = some (op, c₁))
      (htarget : (unary n none c₁.skip).result = some (.ok target, c'))
      (hno : target.isAssignable = false) : Refused whole ⟨.updateTarget, ⟨c.pos, c'.pos⟩⟩
  /-- `++` or `--` behind something else than a name or a member. -/
  | updateBehind {n : Nat} {c c₁ c' : Cursor} {target op} (hc : c.At whole)
      (htarget : (lhsExpr n c).result = some (.ok target, c₁)) (hno : target.isAssignable = false)
      (hop : (pick updateOps c₁.skip).result = some (op, c')) :
      Refused whole ⟨.updateTarget, ⟨c.pos, c'.pos⟩⟩
  /-- A loop over a collection that assigns to something else than a name or a member, at the target. -/
  | eachTarget {m n : Nat} {c c₁ c₂ c₃ c' : Cursor} {t target v} (hc : c.At whole)
      (hfor : (kw "for" c).result = some (t, c₁)) (hopen : (sym "(" c₁.skip).result = some ((), c₂))
      (htarget : (lhsExpr n c₂.skip).result = some (.ok target, c₃))
      (hno : target.isAssignable = false)
      (hstmt : (forEachStmt m c).result = some (v, c')) :
      Refused whole ⟨.eachTarget, ⟨c₂.skip.pos, c₃.pos⟩⟩
  /-- A number that does not fit 64 bits. -/
  | largeNumber {c c' : Cursor} {t} (hc : c.At whole)
      (h : (token .number c).result = some (t, c')) (hlarge : Literal.Large t.chars) :
      Refused whole ⟨.numberTooLarge t.text, ⟨c.pos, c'.pos⟩⟩
  /-- Such a number as the key of a property, at the property. -/
  | largeKey {n : Nat} {c c₁ c' : Cursor} {t v} (hc : c.At whole)
      (h : (token .number c).result = some (t, c₁)) (hlarge : Literal.Large t.chars)
      (hproperty : (property n c).result = some (v, c')) :
      Refused whole ⟨.numberTooLarge t.text, ⟨c.pos, c'.pos⟩⟩

/-- If there is no tree, the text holds what it is refused for. -/
def Accounted {α : Type} (whole : List Char) (v : Built α) : Prop :=
  ∀ e, v = .error e → Refused whole e

namespace Accounted

variable {α β : Type}

theorem ok (x : α) : Accounted whole (.ok x) := fun _ h => nomatch h

theorem error {e : BuildError} (h : Refused whole e) : Accounted whole (.error e : Built α) := by
  rintro _ ⟨⟩
  exact h

theorem bind {v : Built α} {k : α → Built β} (hv : Accounted whole v)
    (hk : ∀ x, v = .ok x → Accounted whole (k x)) : Accounted whole (v >>= k) := by
  cases v with
  | error e => exact .error (hv e rfl)
  | ok x => exact hk x rfl

/-- A node with one part. -/
theorem map {v : Built α} {k : α → β} (hv : Accounted whole v) :
    Accounted whole (v >>= fun x => pure (k x)) := hv.bind fun _ _ => .ok _

theorem mapM {vs : List (Built α)} (h : ∀ v ∈ vs, Accounted whole v) :
    Accounted whole (vs.mapM id) := by
  induction vs with
  | nil => exact .ok []
  | cons v vs ih =>
    obtain ⟨hv, hvs⟩ := List.forall_mem_cons.mp h
    rw [List.mapM_cons]
    exact hv.bind fun _ _ => (ih hvs).map

theorem optional {v : Option (Built α)} (h : ∀ x, v = some x → Accounted whole x) :
    Accounted whole (v.mapM id) := by
  cases v with
  | none => exact .ok none
  | some x => exact (h x rfl).map

end Accounted

/-! ## Nodes -/

/-- What the parts of a suffix are accounted for. -/
def Suffix.Accounted (whole : List Char) : Suffix → Prop
  | .arguments _ args => ∀ v ∈ args, Grammar.Accounted whole v
  | .named _ _ => True
  | .computed _ key => Grammar.Accounted whole key

theorem Suffix.accounted_apply {s : Suffix} (hs : s.Accounted whole) (e : Expr) :
    Grammar.Accounted whole (s.apply e) := by
  cases s with
  | arguments span args => exact (Accounted.mapM hs).map
  | named span name => exact .ok _
  | computed span key => exact Accounted.map hs

theorem accounted_chain {base : Built Expr} {ss : List Suffix} (hbase : Accounted whole base)
    (hss : ∀ s ∈ ss, s.Accounted whole) : Accounted whole (chain base ss) := by
  refine hbase.bind fun e he => ?_
  clear hbase he
  induction ss generalizing e with
  | nil => exact .ok e
  | cons s ss ih =>
    obtain ⟨hs, hss⟩ := List.forall_mem_cons.mp hss
    rw [List.foldlM_cons]
    exact (Suffix.accounted_apply hs e).bind fun e' _ => ih hss e'

theorem accounted_groupLeft {first : Built Expr} {rest : List (Operator × Built Expr)}
    (hfirst : Accounted whole first) (hrest : ∀ r ∈ rest, Accounted whole r.2) :
    Accounted whole (groupLeft first rest) := by
  refine hfirst.bind fun e he => ?_
  clear hfirst he
  induction rest generalizing e with
  | nil => exact .ok e
  | cons r rest ih =>
    obtain ⟨op, right⟩ := r
    obtain ⟨hright, hrest⟩ := List.forall_mem_cons.mp hrest
    rw [List.foldlM_cons]
    exact (Accounted.map hright).bind fun e' _ => ih hrest e'

/-- An assignment is refused for its parts, or for its target. -/
theorem accounted_assignNode {op : AssignOp} {target value : Built Expr} {span : Span}
    (ht : Accounted whole target) (hv : Accounted whole value)
    (hno : ∀ t, target = .ok t → t.isAssignable = false → Refused whole ⟨.assignTarget, t.span⟩) :
    Accounted whole (assignNode op target value span) := by
  refine ht.bind fun t htarget => ?_
  split
  · exact hv.map
  next h => exact .error (hno t htarget (by simpa using h))

theorem accounted_updateNode {op : UpdateOp} {before : Bool} {target : Built Expr} {span : Span}
    (ht : Accounted whole target)
    (hno : ∀ t, target = .ok t → t.isAssignable = false → Refused whole ⟨.updateTarget, span⟩) :
    Accounted whole (updateNode op before target span) := by
  refine ht.bind fun t htarget => ?_
  split
  · exact .ok _
  next h => exact .error (hno t htarget (by simpa using h))

/-! ## Rules -/

/-- Whatever the rule takes has a tree, or is refused for what the text holds. -/
abbrev Accounts {α : Type} (whole : List Char) (p : Matcher (Built α)) : Prop :=
  Takes whole p (Accounted whole)

/-- The same at one cursor. -/
abbrev AccountsAt {α : Type} (whole : List Char) (p : Matcher (Built α)) (c : Cursor) : Prop :=
  Lands whole p c fun v _ => Accounted whole v

/-- What was already matched here is a left-hand side. -/
def Head.Given (whole : List Char) (head : Head) (c : Cursor) : Prop :=
  ∀ reply, head = some reply → ∃ n, reply = lhsExpr n c ∧ AccountsAt whole (lhsExpr n) c

theorem Head.given_none (c : Cursor) : Head.Given whole none c := fun _ h => nomatch h

/-- Every rule of the grammar, at one depth. -/
structure Accountable (whole : List Char) (n : Nat) : Prop where
  expression : Accounts whole (expression n)
  assignment : Accounts whole (assignment n)
  conditional : ∀ head c, Head.Given whole head c → AccountsAt whole (conditional n head) c
  level : ∀ ops, SplitTables ops → ∀ head c, Head.Given whole head c →
    AccountsAt whole (level n ops head) c
  exponent : ∀ head c, Head.Given whole head c → AccountsAt whole (exponent n head) c
  unary : ∀ head c, Head.Given whole head c → AccountsAt whole (unary n head) c
  updated : ∀ head c, Head.Given whole head c → AccountsAt whole (updated n head) c
  lhsExpr : Accounts whole (lhsExpr n)
  newExpr : Accounts whole (newExpr n)
  memberChain : Accounts whole (memberChain n)
  arguments : Takes whole (arguments n) (Suffix.Accounted whole)
  indexMember : Takes whole (indexMember n) (Suffix.Accounted whole)
  primary : Accounts whole (primary n)
  property : Accounts whole (property n)
  functionExpr : Accounts whole (functionExpr n)
  functionBody : Accounts whole (functionBody n)
  statement : Accounts whole (statement n)
  block : Accounts whole (block n)
  varDecl : Accounts whole (varDecl n)
  varStmt : Accounts whole (varStmt n)
  letStmt : Accounts whole (letStmt n)
  functionDecl : Accounts whole (functionDecl n)
  condition : Accounts whole (condition n)
  ifStmt : Accounts whole (ifStmt n)
  whileStmt : Accounts whole (whileStmt n)
  doStmt : Accounts whole (doStmt n)
  forTarget : ∀ c, Lands whole (forTarget n) c fun v c' =>
    (∀ n target, (Grammar.lhsExpr n c).result = some (.ok target, c') → target.isAssignable = false →
      Refused whole ⟨.eachTarget, ⟨c.pos, c'.pos⟩⟩) → Accounted whole v
  forEachStmt : Accounts whole (forEachStmt n)
  forInit : Accounts whole (forInit n)
  part : Accounts whole (part n)
  forStmt : Accounts whole (forStmt n)
  returnStmt : Accounts whole (returnStmt n)
  throwStmt : Accounts whole (throwStmt n)
  tryStmt : Accounts whole (tryStmt n)
  labeledStmt : Accounts whole (labeledStmt n)

variable {n : Nat}

/-- A rule whose node is given its span. -/
theorem accountsAt_node {α β : Type} {f : Span → α → Built β} {p : Matcher α} {c : Cursor}
    (hp : Lands whole p c fun v c' => Accounted whole (f ⟨c.pos, c'.pos⟩ v)) :
    AccountsAt whole (Matcher.rule p f) c :=
  Lands.rule (hp.weaken fun _ _ _ _ hv _ => hv)

theorem accounts_expression (h : Accountable whole n) : Accounts whole (expression (n + 1)) := by
  rw [expression]
  refine Takes.rule ((commaList_takes h.assignment n).weaken fun es hes span => ?_)
  refine (Accounted.mapM hes).bind fun es _ => ?_
  split
  · exact .ok _
  · exact .ok _

theorem accounts_assignment (h : Accountable whole n) : Accounts whole (assignment (n + 1)) := by
  intro c hc
  rw [assignment]
  have hhead : Head.Given whole (some (lhsExpr n c)) c := fun reply heq =>
    ⟨n, (Option.some.inj heq).symm, h.lhsExpr c⟩
  have htarget : Lands whole (fun _ => lhsExpr n c) c fun v c' =>
      Accounted whole v ∧ (lhsExpr n c).result = some (v, c') := (h.lhsExpr c).exact
  have hboth : Lands whole ((Matcher.andThen (fun _ => lhsExpr n c) fun target =>
      (pick assignOps).andThen fun op => (assignment n).map fun value => assignNode op target value).or
        ((conditional n (some (lhsExpr n c))).map fun e _ => e)) c
      fun node _ => ∀ span, Accounted whole (node span) := by
    refine Lands.or (htarget.andThen fun target c₁ _ ht => ?_) (Lands.map ?_)
    · refine (pick_takes assignOps_splits c₁.skip).exact.andThen fun op c₂ _ hop => Lands.map ?_
      refine (h.assignment c₂.skip).exact.weaken fun value c₃ _ _ hv span => ?_
      refine accounted_assignNode ht.1 hv.1 fun t heq hno => ?_
      exact .assignTarget hc (heq ▸ ht.2) hno hop.2 hv.2
    · exact (h.conditional _ c hhead).weaken fun _ _ _ _ he _ => he
  exact accountsAt_node (fun hc v c' hv => have hland := hboth hc v c' hv
    ⟨hland.1, hland.2.1, hland.2.2 _⟩) hc

theorem accounts_conditional (h : Accountable whole n) (head : Head) (c : Cursor)
    (hhead : Head.Given whole head c) : AccountsAt whole (conditional (n + 1) head) c := by
  rw [conditional]
  have harms : Takes whole ((sym "?").andThen fun _ => (assignment n).andThen fun yes =>
      (sym ":").before ((assignment n).map fun no => (yes, no))) fun arms =>
      Accounted whole arms.1 ∧ Accounted whole arms.2 :=
    (sym_takes "?").andThen fun _ _ => h.assignment.andThen fun yes hyes =>
      (sym_takes ":").before (Takes.map (h.assignment.weaken fun no hno => ⟨hyes, hno⟩))
  refine accountsAt_node ((h.level precedence precedence_splits head c hhead).andThen
    fun test c₁ _ ht => Lands.map (Lands.optional ?_ ht))
  exact (harms c₁.skip).weaken fun arms _ _ _ h =>
    ht.bind fun _ _ => h.1.bind fun _ _ => h.2.bind fun _ _ => .ok _

theorem accounts_level (h : Accountable whole n) (ops : List (List (Lexeme × Operator)))
    (hops : SplitTables ops) (head : Head) (c : Cursor) (hhead : Head.Given whole head c) :
    AccountsAt whole (level (n + 1) ops head) c := by
  cases ops with
  | nil =>
    rw [level]
    exact h.exponent head c hhead
  | cons ops tighter =>
    have htighter : SplitTables tighter := fun table ht => hops table (List.mem_cons_of_mem _ ht)
    have hright : Takes whole ((pick ops).andThen fun op =>
        (level n tighter none).map fun e => (op, e)) fun r => Accounted whole r.2 :=
      (pick_takes (hops ops List.mem_cons_self)).andThen fun op _ => Takes.map fun c =>
        h.level tighter htighter none c (Head.given_none c)
    rw [level]
    refine accountsAt_node ((h.level tighter htighter head c hhead).andThen
      fun first c₁ _ hfirst => Lands.map ?_)
    exact (hright.many n c₁.skip).weaken fun rest _ _ _ hrest => accounted_groupLeft hfirst hrest

theorem accounts_exponent (h : Accountable whole n) (head : Head) (c : Cursor)
    (hhead : Head.Given whole head c) : AccountsAt whole (exponent (n + 1) head) c := by
  rw [exponent]
  have hpower : Accounts whole (power.before (exponent n none)) :=
    (Takes.of_finds (Finds.token (Lexeme.operator_splits _ _))).before fun c =>
      h.exponent none c (Head.given_none c)
  refine accountsAt_node ((h.unary head c hhead).andThen fun base c₁ _ hbase =>
    Lands.map (Lands.optional ?_ hbase))
  exact (hpower c₁.skip).weaken fun e _ _ _ he => hbase.bind fun _ _ => he.bind fun _ _ => .ok _

theorem accounts_unary (h : Accountable whole n) (head : Head) (c : Cursor)
    (hhead : Head.Given whole head c) : AccountsAt whole (unary (n + 1) head) c := by
  intro hc
  rw [unary]
  have hunary := fun c => h.unary none c (Head.given_none c)
  refine accountsAt_node (Lands.or ?operator (Lands.or ?update (Lands.or ?plain Lands.fail))) hc
  case operator =>
    refine Lands.andThen (T := fun _ _ => True)
      (Lands.rule ((pick_takes unaryOps_splits c).weaken fun _ _ _ _ _ _ => trivial)) fun op c₁ _ _ => ?_
    exact Lands.map ((hunary c₁.skip).weaken fun arg _ _ _ harg => harg.map)
  case update =>
    refine (pick_takes updateOps_splits c).exact.andThen fun op c₁ _ hop => Lands.map ?_
    refine (hunary c₁.skip).exact.weaken fun target c' _ _ ht => ?_
    exact accounted_updateNode ht.1 fun t heq hno => .updateBefore hc hop.2 (heq ▸ ht.2) hno
  case plain =>
    exact Lands.map (h.updated head c hhead)

theorem accounts_updated (h : Accountable whole n) (head : Head) (c : Cursor)
    (hhead : Head.Given whole head c) : AccountsAt whole (updated (n + 1) head) c := by
  intro hc
  rw [updated]
  have hgiven : Lands whole (given head (lhsExpr n)) c fun v c' =>
      Accounted whole v ∧ ∃ n, (lhsExpr n c).result = some (v, c') := by
    cases head with
    | none => exact (h.lhsExpr c).exact.weaken fun v c' _ _ hv => ⟨hv.1, n, hv.2⟩
    | some reply =>
      obtain ⟨m, rfl, hreply⟩ := hhead reply rfl
      exact fun hc v c' hv => ⟨(hreply hc v c' hv).1, (hreply hc v c' hv).2.1,
        (hreply hc v c' hv).2.2, m, hv⟩
  refine accountsAt_node (hgiven.andThen fun target c₁ _ ht =>
    Lands.map (Lands.optional ?_ ht.1)) hc
  refine (pick_takes updateOps_splits c₁.skip).exact.weaken fun op c' _ _ hop => ?_
  obtain ⟨m, hresult⟩ := ht.2
  exact accounted_updateNode ht.1 fun t heq hno => .updateBehind hc (heq ▸ hresult) hno hop.2

/-! ## Operands -/

theorem dotMember_takes : Takes whole dotMember (Suffix.Accounted whole) :=
  Takes.rule (((sym_takes ".").before (Takes.of_finds (Finds.token Lexeme.word_splits))).weaken
    fun _ _ _ => trivial)

theorem accounts_lhsExpr (h : Accountable whole n) : Accounts whole (lhsExpr (n + 1)) := by
  rw [lhsExpr]
  have hsuffix : Takes whole (Matcher.firstOf [arguments n, dotMember, indexMember n])
      (Suffix.Accounted whole) :=
    .firstOf_cons h.arguments (.firstOf_cons dotMember_takes (.firstOf_cons h.indexMember .fail))
  exact Takes.rule ((h.newExpr.or h.primary).andThen fun base hbase =>
    Takes.map ((hsuffix.many n).weaken fun ss hss _ => accounted_chain hbase hss))

theorem accounts_newExpr (h : Accountable whole n) : Accounts whole (newExpr (n + 1)) := by
  rw [newExpr]
  refine Takes.rule ((kw_takes "new").andThen fun _ _ => h.memberChain.andThen fun callee hcallee =>
    Takes.map (h.arguments.optional.weaken fun args hargs span => hcallee.bind fun e _ => ?_))
  split
  next args => exact (Accounted.mapM (hargs _ rfl)).map
  next => exact .ok _

theorem accounts_memberChain (h : Accountable whole n) : Accounts whole (memberChain (n + 1)) := by
  rw [memberChain]
  exact Takes.rule (h.primary.andThen fun base hbase =>
    Takes.map (((dotMember_takes.or h.indexMember).many n).weaken fun ss hss _ =>
      accounted_chain hbase hss))

theorem arguments_takes (h : Accountable whole n) :
    Takes whole (arguments (n + 1)) (Suffix.Accounted whole) := by
  rw [arguments]
  exact Takes.rule ((bracketed_takes h.assignment n "(" ")").weaken fun _ hargs _ => hargs)

theorem indexMember_takes (h : Accountable whole n) :
    Takes whole (indexMember (n + 1)) (Suffix.Accounted whole) := by
  rw [indexMember]
  exact Takes.rule (((sym_takes "[").andThen fun _ _ =>
    h.expression.closedBy (sym_takes "]")).weaken fun _ hkey _ => hkey)

/-- A number token is refused only if it does not fit 64 bits. -/
theorem accounted_numberValue {t : Token} {text rest : List Char} {span : Span}
    (h : Lexeme.number text = some (t.chars, rest))
    (hlarge : Literal.Large t.chars → Refused whole ⟨.numberTooLarge t.text, span⟩) :
    Accounted whole (numberValue t span) := by
  unfold numberValue
  split
  · exact .ok _
  next hnone => exact .error (hlarge ((Literal.number_none h).mp hnone))

/-- A token that stands for an expression. -/
theorem accounts_leaf {l : Lexeme} (hl : l.Splits) (f : Token → Expr) :
    Accounts whole ((token l).map fun t => .ok (f t)) :=
  Takes.map ((Takes.of_finds (Finds.token hl)).weaken fun _ _ => .ok _)

theorem accounts_literal : Accounts whole literal := by
  intro c hc
  refine accountsAt_node (Lands.or (Lands.map ?_) ?_) hc
  · refine (Lands.token Lexeme.number_splits c).exact.weaken fun t c' _ _ ht => ?_
    obtain ⟨⟨hspan, hnumber, -⟩, hresult⟩ := ht
    refine Accounted.map (accounted_numberValue hnumber fun hlarge => ?_)
    rw [hspan]
    exact .largeNumber hc hresult hlarge
  · exact Takes.firstOf_cons (accounts_leaf Lexeme.string_splits _)
      (.firstOf_cons (accounts_leaf (Lexeme.keyword_splits _) _)
        (.firstOf_cons (accounts_leaf (Lexeme.keyword_splits _) _)
          (.firstOf_cons (accounts_leaf (Lexeme.keyword_splits _) _) .fail))) c

theorem accounts_primary (h : Accountable whole n) : Accounts whole (primary (n + 1)) := by
  rw [primary]
  refine Takes.rule (Takes.weaken (S := Accounted whole) ?_ fun _ hv _ => hv)
  refine Takes.firstOf_cons h.functionExpr <|
    Takes.firstOf_cons (accounts_leaf (Lexeme.keyword_splits _) _) <|
    Takes.firstOf_cons accounts_literal <|
    Takes.firstOf_cons (accounts_leaf Lexeme.identifier_splits _) <|
    Takes.firstOf_cons (Takes.rule ?array) <| Takes.firstOf_cons (Takes.rule ?object) <|
    Takes.firstOf_cons (Takes.rule ?parens) .fail
  case array =>
    exact (bracketed_takes h.assignment n "[" "]").weaken fun vs hvs _ => (Accounted.mapM hvs).map
  case object =>
    exact (bracketed_takes h.property n "\x7b" "\x7d").weaken fun vs hvs _ =>
      (Accounted.mapM hvs).map
  case parens =>
    exact ((sym_takes "(").andThen fun _ _ => h.expression.closedBy (sym_takes ")")).weaken
      fun _ he _ => he

/-- The key of a property is refused only if it is a number that does not fit 64 bits. -/
theorem lands_propertyKey (c : Cursor) : Lands whole propertyKey c fun key _ => ∀ span,
    (∀ t c₁, (token .number c).result = some (t, c₁) → Literal.Large t.chars →
      Refused whole ⟨.numberTooLarge t.text, span⟩) → Accounted whole (key span) := by
  have hleaf : ∀ {l : Lexeme}, l.Splits → ∀ f : Token → String,
      Takes whole ((token l).map fun t (_ : Span) => (.ok (f t) : Built String)) fun key =>
        ∀ span, Accounted whole (key span) := fun hl f =>
    Takes.map ((Takes.of_finds (Finds.token hl)).weaken fun _ _ _ => .ok _)
  refine Lands.rule (Lands.or ?string (Lands.or ?number (Lands.or ?word Lands.fail)))
  case string =>
    exact (hleaf Lexeme.string_splits _ c).weaken fun _ _ _ _ hv _ span _ => hv span
  case number =>
    refine Lands.map ((Lands.token Lexeme.number_splits c).exact.weaken
      fun t c' _ _ ht _ span hlarge => ?_)
    exact (accounted_numberValue ht.1.2.1 (hlarge t c' ht.2)).map
  case word =>
    exact (hleaf Lexeme.word_splits _ c).weaken fun _ _ _ _ hv _ span _ => hv span

theorem accounts_property (h : Accountable whole n) : Accounts whole (property (n + 1)) := by
  intro c hc
  have hland : Lands whole (property (n + 1)) c fun v c' =>
      (∀ t c₁, (token .number c).result = some (t, c₁) → Literal.Large t.chars →
        Refused whole ⟨.numberTooLarge t.text, ⟨c.pos, c'.pos⟩⟩) → Accounted whole v := by
    rw [property]
    refine Lands.rule (Lands.or ?pair (Lands.map ?name))
    case pair =>
      refine Lands.andThen (Lands.andThen (lands_propertyKey c) fun key c₁ _ hk => Lands.map
        ((sym_takes ":" c₁.skip).weaken fun _ _ _ _ _ => hk)) fun key c₂ _ hk => Lands.map ?_
      exact (h.assignment c₂.skip).weaken fun value c' _ _ hv _ hlarge =>
        (hk _ hlarge).bind fun _ _ => hv.bind fun _ _ => .ok _
    case name =>
      exact (ident_takes c).weaken fun _ _ _ _ _ _ _ => .ok _
  exact hland.exact.weaken (fun v c' _ _ hv => hv.1 fun t c₁ ht hlarge =>
    .largeKey hc ht hlarge hv.2) hc

/-! ## Functions -/

theorem accounts_functionBody (h : Accountable whole n) :
    Accounts whole (functionBody (n + 1)) := by
  rw [functionBody]
  exact Takes.rule (((sym_takes "\x7b").andThen fun _ _ =>
    (h.statement.many n).closedBy (sym_takes "\x7d")).weaken fun _ hvs _ => .mapM hvs)

/-- The parts of a function literal. -/
theorem function_takes {α : Type} (h : Accountable whole n) {name : Matcher α}
    (hname : Takes whole name fun _ => True) :
    Takes whole ((kw "function").andThen fun _ => name.andThen fun name =>
      (params n).andThen fun ps => (functionBody n).map fun body => (name, ps, body)) fun v =>
        Accounted whole v.2.2 :=
  (kw_takes "function").andThen fun _ _ => hname.andThen fun _ _ =>
    (params_takes n).andThen fun _ _ => Takes.map h.functionBody

theorem accounts_functionExpr (h : Accountable whole n) :
    Accounts whole (functionExpr (n + 1)) := by
  intro c
  rw [functionExpr]
  have hname : Takes whole (optional ident) fun _ => True :=
    ident_takes.optional.weaken fun _ _ => trivial
  exact Lands.rule ((function_takes h hname { c with nextFunction := c.nextFunction + 1 }).weaken
    fun v _ _ _ hbody _ => hbody.map)

/-! ## Statements -/

theorem accounts_block (h : Accountable whole n) : Accounts whole (block (n + 1)) := by
  rw [block]
  exact Takes.rule (((sym_takes "\x7b").andThen fun _ _ =>
    (h.statement.many n).closedBy (sym_takes "\x7d")).weaken fun _ hvs _ =>
      (Accounted.mapM hvs).map)

theorem accounts_varDecl (h : Accountable whole n) : Accounts whole (varDecl (n + 1)) := by
  rw [varDecl]
  have hinit : Accounts whole ((sym "=").andThen fun _ => (notNext '=').before (assignment n)) :=
    (sym_takes "=").andThen fun _ _ => (Takes.of_finds (Finds.notNext '=')).before h.assignment
  refine Takes.rule (ident_takes.andThen fun name _ =>
    Takes.map (hinit.optional.weaken fun init hinit span => ?_))
  cases init with
  | none => exact .ok _
  | some e => exact (hinit e rfl).map

theorem accounts_varStmt (h : Accountable whole n) : Accounts whole (varStmt (n + 1)) := by
  rw [varStmt]
  exact Takes.rule (((kw_takes "var").andThen fun _ _ =>
    (commaList_takes h.varDecl n).closedBy semicolon_takes).weaken fun _ hvs _ =>
      (Accounted.mapM hvs).map)

/-- A declaration with `let` or `const` is refused for what it is. -/
theorem accounts_letStmt (h : Accountable whole n) : Accounts whole (letStmt (n + 1)) := by
  intro c hc
  have hland : Lands whole (letStmt (n + 1)) c fun v c' =>
      Refused whole ⟨.blockScoped, ⟨c.pos, c'.pos⟩⟩ → Accounted whole v := by
    rw [letStmt]
    have hdecls : Takes whole (((kw "let").or (kw "const")).andThen fun _ =>
        (commaList n (varDecl n)).closedBy (optional (sym ";"))) fun _ => True :=
      (((kw_takes "let").or (kw_takes "const")).andThen fun _ _ =>
        (commaList_takes h.varDecl n).closedBy semicolon_takes).weaken fun _ _ => trivial
    exact Lands.rule ((hdecls c).weaken fun _ _ _ _ _ _ => .error)
  exact hland.exact.weaken (fun v c' _ _ hv => hv.1 (.blockScoped hc hv.2)) hc

theorem accounts_functionDecl (h : Accountable whole n) :
    Accounts whole (functionDecl (n + 1)) := by
  intro c
  rw [functionDecl]
  exact Lands.rule ((function_takes h ident_takes { c with nextFunction := c.nextFunction + 1 }).weaken
    fun v _ _ _ hbody _ => hbody.map)

theorem accounts_condition (h : Accountable whole n) : Accounts whole (condition (n + 1)) := by
  rw [condition]
  exact (sym_takes "(").andThen fun _ _ => h.expression.closedBy (sym_takes ")")

theorem accounts_ifStmt (h : Accountable whole n) : Accounts whole (ifStmt (n + 1)) := by
  rw [ifStmt]
  have helse : Accounts whole (Matcher.rule ((kw "else").before (statement n)) fun _ s => s) :=
    Takes.rule (((kw_takes "else").before h.statement).weaken fun _ hs _ => hs)
  refine Takes.rule ((kw_takes "if").andThen fun _ _ => h.condition.andThen fun test htest =>
    h.statement.andThen fun yes hyes => Takes.map (helse.optional.weaken fun no hno span =>
      htest.bind fun _ _ => hyes.bind fun _ _ => ?_))
  cases no with
  | none => exact .ok _
  | some no => exact (hno no rfl).map

theorem accounts_whileStmt (h : Accountable whole n) : Accounts whole (whileStmt (n + 1)) := by
  rw [whileStmt]
  exact Takes.rule ((kw_takes "while").andThen fun _ _ => h.condition.andThen fun test htest =>
    Takes.map (h.statement.weaken fun body hbody span => htest.bind fun _ _ => hbody.map))

theorem accounts_doStmt (h : Accountable whole n) : Accounts whole (doStmt (n + 1)) := by
  rw [doStmt]
  exact Takes.rule ((kw_takes "do").andThen fun _ _ => h.statement.andThen fun body hbody =>
    (kw_takes "while").andThen fun _ _ => Takes.closedBy (Takes.map
      (h.condition.weaken fun test htest span => hbody.bind fun _ _ => htest.map)) semicolon_takes)

/-- The target of a loop is refused for its parts, or for what it is. -/
theorem lands_forTarget (h : Accountable whole n) (c : Cursor) :
    Lands whole (forTarget (n + 1)) c fun v c' =>
      (∀ n target, (lhsExpr n c).result = some (.ok target, c') → target.isAssignable = false →
        Refused whole ⟨.eachTarget, ⟨c.pos, c'.pos⟩⟩) → Accounted whole v := by
  rw [forTarget]
  refine Lands.rule (Lands.or (Lands.map ?_) (Lands.map ?_))
  · exact (((kw_takes "var").before ident_takes) c).weaken fun _ _ _ _ _ _ _ => .ok _
  · refine (h.lhsExpr c).exact.weaken fun e c' _ _ he _ hno => he.1.bind fun x hx => ?_
    split
    · exact .ok _
    next hx' => exact .error (hno n x (hx ▸ he.2) (by simpa using hx'))

theorem accounts_forEachStmt (h : Accountable whole n) :
    Accounts whole (forEachStmt (n + 1)) := by
  intro c hc
  have hland : Lands whole (forEachStmt (n + 1)) c fun v _ =>
      (∀ t c₁ c₂ c₃ n target, (kw "for" c).result = some (t, c₁) →
        (sym "(" c₁.skip).result = some ((), c₂) →
        (lhsExpr n c₂.skip).result = some (.ok target, c₃) → target.isAssignable = false →
          Refused whole ⟨.eachTarget, ⟨c₂.skip.pos, c₃.pos⟩⟩) → Accounted whole v := by
    rw [forEachStmt]
    have hkind : Takes whole (((kw "of").map fun _ => EachKind.values).or
        ((kw "in").map fun _ => .keys)) fun _ => True :=
      (Takes.map (kw_takes "of")).or (Takes.map (kw_takes "in"))
    have hrest : Takes whole ((expression n).andThen fun source => (sym ")").andThen fun _ =>
        (statement n).map fun body => (source, body)) fun v =>
        Accounted whole v.1 ∧ Accounted whole v.2 :=
      h.expression.andThen fun _ hsource => (sym_takes ")").andThen fun _ _ =>
        Takes.map (h.statement.weaken fun _ hbody => ⟨hsource, hbody⟩)
    refine Lands.rule ((kw_takes "for" c).exact.andThen fun t c₁ _ hfor => ?_)
    refine (sym_takes "(" c₁.skip).exact.andThen fun _ c₂ _ hopen => ?_
    refine (h.forTarget c₂.skip).andThen fun target c₃ _ htarget => ?_
    refine (hkind c₃.skip).andThen fun kind c₄ _ _ => ?_
    refine (h.expression c₄.skip).andThen fun source c₅ _ hsource => ?_
    refine (sym_takes ")" c₅.skip).andThen fun _ c₆ _ _ => Lands.map ?_
    refine (h.statement c₆.skip).weaken fun body _ _ _ hbody _ hno => ?_
    have htarget := htarget fun n target => hno t c₁ c₂ c₃ n target hfor.2 hopen.2
    exact htarget.bind fun _ _ => hsource.bind fun _ _ => hbody.map
  exact hland.exact.weaken (fun v c' _ _ hv => hv.1 fun t c₁ c₂ c₃ n target hfor hopen ht hno =>
    .eachTarget hc hfor hopen ht hno hv.2) hc

theorem accounts_forInit (h : Accountable whole n) : Accounts whole (forInit (n + 1)) := by
  rw [forInit]
  refine Takes.rule (Takes.weaken (S := Accounted whole) ?_ fun _ hv _ => hv)
  refine Takes.or (Takes.rule ?_) (Takes.map (h.expression.weaken fun e he => he.map))
  exact ((kw_takes "var").before (commaList_takes h.varDecl n)).weaken fun _ hvs _ =>
    (Accounted.mapM hvs).map

theorem accounts_part (h : Accountable whole n) : Accounts whole (part (n + 1)) := by
  rw [part]
  exact Takes.rule (h.expression.weaken fun _ he _ => he)

theorem accounts_forStmt (h : Accountable whole n) : Accounts whole (forStmt (n + 1)) := by
  rw [forStmt]
  refine Takes.rule ((kw_takes "for").andThen fun _ _ => (sym_takes "(").andThen fun _ _ => ?_)
  refine (h.forInit.optional.closedBy (sym_takes ";")).andThen fun init hinit => ?_
  refine (h.part.optional.closedBy (sym_takes ";")).andThen fun test htest => ?_
  refine (h.part.optional.closedBy (sym_takes ")")).andThen fun update hupdate => Takes.map ?_
  exact h.statement.weaken fun body hbody span => (Accounted.optional hinit).bind fun _ _ =>
    (Accounted.optional htest).bind fun _ _ => (Accounted.optional hupdate).bind fun _ _ => hbody.map

theorem accounts_returnStmt (h : Accountable whole n) : Accounts whole (returnStmt (n + 1)) := by
  rw [returnStmt]
  exact Takes.rule (((kw_takes "return").andThen fun _ _ =>
    h.expression.optional.closedBy semicolon_takes).weaken fun _ harg _ =>
      (Accounted.optional harg).map)

theorem accounts_throwStmt (h : Accountable whole n) : Accounts whole (throwStmt (n + 1)) := by
  rw [throwStmt]
  exact Takes.rule (((kw_takes "throw").andThen fun _ _ =>
    h.expression.closedBy semicolon_takes).weaken fun _ harg _ => harg.map)

theorem accounts_labeledStmt (h : Accountable whole n) :
    Accounts whole (labeledStmt (n + 1)) := by
  rw [labeledStmt]
  exact Takes.rule ((ident_takes.closedBy (sym_takes ":")).andThen fun label _ =>
    Takes.map (h.statement.weaken fun body hbody span => hbody.map))

theorem accounts_jump (k : String) (node : Span → Option String → Stmt) :
    Accounts whole (jump k node) := by
  have hlabel : Takes whole ((kw k).tight fun _ => optional ((silent .inlineBlanks).tight
      fun _ => ident)) fun _ => True :=
    (kw_takes k).tight fun _ _ => ((Takes.of_finds (Finds.silent Lexeme.inlineBlanks_splits)).tight
      fun _ _ => ident_takes).optional.weaken fun _ _ => trivial
  exact Takes.rule (Takes.closedBy (Takes.rule (hlabel.weaken fun _ _ _ _ => .ok _)) semicolon_takes)

theorem accounts_tryStmt (h : Accountable whole n) : Accounts whole (tryStmt (n + 1)) := by
  rw [tryStmt]
  have hparam : Takes whole (optional ((sym "(").andThen fun _ => ident.closedBy (sym ")")))
      fun _ => True :=
    ((sym_takes "(").andThen fun _ _ => ident_takes.closedBy (sym_takes ")")).optional.weaken
      fun _ _ => trivial
  have hcatch : Takes whole (Matcher.rule ((kw "catch").andThen fun _ =>
      (optional ((sym "(").andThen fun _ => ident.closedBy (sym ")"))).andThen fun param =>
        (block n).map fun handler => (param, handler)) fun _ clause => clause) fun clause =>
      Accounted whole clause.2 :=
    Takes.rule ((kw_takes "catch").andThen fun _ _ => hparam.andThen fun param _ =>
      Takes.map (h.block.weaken fun _ hb _ => hb))
  have hfinally : Accounts whole (Matcher.rule ((kw "finally").before (block n)) fun _ b => b) :=
    Takes.rule (((kw_takes "finally").before h.block).weaken fun _ hb _ => hb)
  refine Takes.rule ((kw_takes "try").andThen fun _ _ => h.block.andThen fun body hbody =>
    hcatch.optional.andThen fun handler hhandler => Takes.map (hfinally.optional.weaken
      fun finalizer hfinalizer span => hbody.bind fun _ _ => ?_))
  refine Accounted.bind ?_ fun _ _ => (Accounted.optional hfinalizer).map
  cases handler with
  | none => exact .ok _
  | some clause => exact ((hhandler clause rfl).map).map

theorem accounts_statement (h : Accountable whole n) : Accounts whole (statement (n + 1)) := by
  rw [statement]
  refine Takes.rule (Takes.weaken (S := Accounted whole) ?_ fun _ hv _ => hv)
  refine Takes.firstOf_cons h.block <| Takes.firstOf_cons h.varStmt <|
    Takes.firstOf_cons h.letStmt <| Takes.firstOf_cons h.functionDecl <|
    Takes.firstOf_cons h.ifStmt <| Takes.firstOf_cons h.doStmt <|
    Takes.firstOf_cons h.whileStmt <| Takes.firstOf_cons h.forEachStmt <|
    Takes.firstOf_cons h.forStmt <| Takes.firstOf_cons h.returnStmt <|
    Takes.firstOf_cons (accounts_jump "break" .leave) <|
    Takes.firstOf_cons (accounts_jump "continue" .next) <|
    Takes.firstOf_cons h.throwStmt <| Takes.firstOf_cons h.tryStmt <|
    Takes.firstOf_cons h.labeledStmt <|
    Takes.firstOf_cons (Takes.rule ((sym_takes ";").weaken fun _ _ _ => .ok _)) <|
    Takes.firstOf_cons (Takes.rule ?_) .fail
  exact (h.expression.closedBy semicolon_takes).weaken fun _ he _ => he.map

/-- **Every rule gives a tree, or is refused for what the text holds**, at every depth. -/
theorem accountable (whole : List Char) (n : Nat) : Accountable whole n := by
  induction n with
  | zero => constructor <;> intro c <;> intros <;> exact Lands.fail
  | succ n h =>
    exact {
      expression := accounts_expression h
      assignment := accounts_assignment h
      conditional := accounts_conditional h
      level := accounts_level h
      exponent := accounts_exponent h
      unary := accounts_unary h
      updated := accounts_updated h
      lhsExpr := accounts_lhsExpr h
      newExpr := accounts_newExpr h
      memberChain := accounts_memberChain h
      arguments := arguments_takes h
      indexMember := indexMember_takes h
      primary := accounts_primary h
      property := accounts_property h
      functionExpr := accounts_functionExpr h
      functionBody := accounts_functionBody h
      statement := accounts_statement h
      block := accounts_block h
      varDecl := accounts_varDecl h
      varStmt := accounts_varStmt h
      letStmt := accounts_letStmt h
      functionDecl := accounts_functionDecl h
      condition := accounts_condition h
      ifStmt := accounts_ifStmt h
      whileStmt := accounts_whileStmt h
      doStmt := accounts_doStmt h
      forTarget := lands_forTarget h
      forEachStmt := accounts_forEachStmt h
      forInit := accounts_forInit h
      part := accounts_part h
      forStmt := accounts_forStmt h
      returnStmt := accounts_returnStmt h
      throwStmt := accounts_throwStmt h
      tryStmt := accounts_tryStmt h
      labeledStmt := accounts_labeledStmt h }

/-! ## Programs -/

theorem accounts_program (n : Nat) : Accounts whole (program n) := by
  have hbody : Takes whole ((succeed ()).andThen fun _ =>
      (many n (statement n)).closedBy atEnd) fun vs => ∀ v ∈ vs, Accounted whole v :=
    Takes.andThen (P := fun _ => True) (fun _ => Lands.succeed trivial) fun _ _ =>
      ((accountable whole n).statement.many n).closedBy (.of_finds finds_atEnd)
  intro c hc v c' h
  have hland := hbody c hc
  unfold program at h
  dsimp only at h
  generalize ((succeed ()).andThen fun _ => (many n (statement n)).closedBy atEnd) c = r at h hland
  obtain ⟨reach, _ | ⟨vs, c₁⟩⟩ := r
  · cases h
  · cases h
    obtain ⟨hc', hle, hvs⟩ := hland vs c' rfl
    exact ⟨hc', hle, (Accounted.mapM hvs).map⟩

/-- The text matches the grammar. -/
def Matched (source : String) : Prop :=
  ∃ v c', (program (fuelFor source.toList) ⟨source.toList, {}, 1⟩).result = some (v, c')

/-- **A text that matches the grammar has a tree, or is refused for what it holds**: for a declaration
with `let` or `const`, for a target that is neither a name nor a member, or for a hexadecimal number that
does not fit 64 bits. -/
theorem parse_total (source : String) :
    match parse source with
    | .ok _ => Matched source
    | .error (.unmatched _) => ¬Matched source
    | .error (.unbuildable e) => Matched source ∧ Refused source.toList e
    | .error (.invalid _ _) => False := by
  have hfront : Cursor.At source.toList ⟨source.toList, {}, 1⟩ := Onward.refl _ _
  have haccounts : Accounts source.toList (program (fuelFor source.toList)) := accounts_program _
  have hland := haccounts _ hfront
  unfold parse Matched
  dsimp only
  generalize program (fuelFor source.toList) ⟨source.toList, {}, 1⟩ = r at hland ⊢
  obtain ⟨reach, _ | ⟨_ | p, c'⟩⟩ := r
  · rintro ⟨_, _, ⟨⟩⟩
  · exact ⟨⟨_, _, rfl⟩, (hland _ _ rfl).2.2 _ rfl⟩
  · exact ⟨_, _, rfl⟩

end Fermata.Grammar
