import Fermata.Proofs.Grammar.Operand

/-!
# An operand as a program

Between an operand and the program that it is alone, there is a rule for each kind of operator, and none
of them adds anything.

* `Grammar.unary_alone`, `Grammar.exponent_alone`, `Grammar.level_alone`: an operand without operators of
  that kind.
* `Grammar.parse_reads`: a text with one expression is a program of one statement.
* `Grammar.parse_single`: so an operand that is a program was read as an operand.
-/

namespace Fermata.Grammar

open Matcher

variable {c : Cursor} {P Q : Built Expr → Prop} {s t x : List Char} {i j n m : Nat} {head : Head}

/-! ## Where nothing begins -/

/-- Neither a keyword nor punctuation nor an operator in front of an operand is here. -/
structure Bland (c : Cursor) : Prop where
  skip : c.skip = c
  words : ∀ k ∈ Lexeme.keywords, Lexeme.keyword k c.rest = none
  brace : Fails (sym "\x7b") c
  semicolon : Fails (sym ";") c
  unaryOps : Fails (pick unaryOps) c
  updateOps : Fails (pick updateOps) c

/-- No operator in front of an operand is here, and no `new`. -/
structure Unprefixed (c : Cursor) : Prop where
  new : Fails (kw "new") c
  unaryOps : Fails (pick unaryOps) c
  updateOps : Fails (pick updateOps) c

theorem Unprefixed.newExpr_fails (h : Unprefixed c) (n : Nat) : Fails (newExpr n) c := by
  cases n with
  | zero => rfl
  | succ n =>
    rw [newExpr]
    exact h.new.andThen.rule

theorem Fresh.bland (h : Fresh c) : Bland c where
  skip := h.skip
  words := h.keyword
  brace := h.text_fails (by decide)
  semicolon := h.text_fails (by decide)
  unaryOps := h.unaryOps_fails
  updateOps := h.updateOps_fails

theorem bland_nil (p : Position) (i : Nat) : Bland ⟨[], p, i⟩ := ⟨rfl, fun _ _ => rfl, rfl, rfl, rfl, rfl⟩

theorem primary_nil (p : Position) (i n : Nat) : Fails (primary n) ⟨[], p, i⟩ := by
  cases n with
  | zero => rfl
  | succ n =>
    rw [primary]
    refine Fails.rule (Fails.firstOf ?_)
    simp only [List.forall_mem_cons, List.not_mem_nil, false_imp_iff, implies_true, and_true]
    refine ⟨?_, rfl, rfl, rfl, rfl, rfl, rfl⟩
    cases n <;> rfl

namespace Bland

theorem kw_fails (h : Bland c) {k : String} (hk : k ∈ Lexeme.keywords) (i : Nat) :
    Fails (kw k) { c with nextFunction := i } := by
  unfold Fails kw token
  dsimp only
  rw [h.words k hk]

theorem unprefixed (h : Bland c) : Unprefixed c where
  new := h.kw_fails (by decide) c.nextFunction
  unaryOps := h.unaryOps
  updateOps := h.updateOps

theorem lhsExpr_fails (h : Bland c) (hp : Fails (primary n) c) : Fails (lhsExpr (n + 1)) c := by
  rw [lhsExpr]
  exact ((h.unprefixed.newExpr_fails n).or hp).andThen.rule

theorem unary_fails (h : Bland c) (hp : Fails (primary n) c) (m : Nat) :
    Fails (unary m (some (lhsExpr (n + 1) c))) c := by
  cases m with
  | zero => rfl
  | succ m =>
    rw [unary]
    refine Fails.rule (Fails.firstOf ?_)
    simp only [List.forall_mem_cons, List.not_mem_nil, false_imp_iff, implies_true, and_true]
    refine ⟨h.unaryOps.rule.andThen, h.updateOps.andThen, Fails.map ?_⟩
    cases m with
    | zero => rfl
    | succ m =>
      rw [updated]
      exact Fails.rule (Fails.andThen (p := given (some (lhsExpr (n + 1) c)) _) (h.lhsExpr_fails hp))

theorem level_fails (h : Bland c) (hp : Fails (primary n) c) (m : Nat)
    (ops : List (List (Lexeme × Operator))) :
    Fails (level m ops (some (lhsExpr (n + 1) c))) c := by
  induction ops generalizing m with
  | nil =>
    match m with
    | 0 => rfl
    | 1 => rfl
    | m + 2 =>
      rw [level, exponent]
      exact (h.unary_fails hp m).andThen.rule
  | cons table tighter ih =>
    cases m with
    | zero => rfl
    | succ m =>
      rw [level]
      exact (ih m).andThen.rule

theorem assignment_fails (h : Bland c) (hp : Fails (primary n) c) :
    Fails (assignment (n + 2)) c := by
  rw [assignment]
  refine Fails.rule (Fails.or (Fails.andThen ?_) (Fails.map ?_))
  · exact h.lhsExpr_fails hp
  · rw [conditional]
    exact (h.level_fails hp n precedence).andThen.rule

theorem expression_fails (h : Bland c) (hp : Fails (primary n) c) :
    Fails (expression (n + 3)) c := by
  rw [expression]
  exact (h.assignment_fails hp).andThen.rule

end Bland

/-! ## An operand without operators -/

/-- What stands behind an operand that is complete. -/
structure Stop (t : List Char) : Prop where
  skip : ∀ p i, (⟨t, p, i⟩ : Cursor).skip = ⟨t, p, i⟩
  head : ∀ e ∈ ['(', '.', '[', ':'], t.head? ≠ some e
  update : ∀ entry ∈ updateOps, entry.1 t = none
  assign : ∀ entry ∈ assignOps, entry.1 t = none

theorem Stop.skips (h : Stop t) : Skips t t := fun p i => ⟨p, h.skip p i⟩

theorem Stop.text_fails (h : Stop t) {e : Char} (he : e ∈ ['(', '.', '[', ':']) (piece : List Char)
    (pos : Position) (i : Nat) : Fails (Matcher.text (e :: piece)) ⟨t, pos, i⟩ := by
  have hne := h.head e he
  unfold Fails Matcher.text
  cases t with
  | nil => rfl
  | cons ch r =>
    dsimp only
    rw [strip?, if_neg fun heq => hne (by rw [heq, List.head?_cons])]

/-- A whole table fails if each entry does, which can be computed. -/
theorem none_of_all {α : Type} {table : List (Lexeme × α)}
    (h : (table.all fun entry => (entry.1 t).isNone) = true) :
    ∀ entry ∈ table, entry.1 t = none := fun entry hentry =>
  Option.isNone_iff_eq_none.mp (List.all_eq_true.mp h entry hentry)

/-- No operator begins where a text ends. -/
theorem precedence_nil : ∀ table ∈ precedence, ∀ entry ∈ table, entry.1 [] = none := by
  simp only [precedence, List.forall_mem_cons, List.not_mem_nil, false_imp_iff, implies_true, and_true]
  repeat' apply And.intro
  all_goals rfl

theorem stop_nil : Stop [] := ⟨fun _ _ => rfl, fun _ _ => nofun, none_of_all rfl, none_of_all rfl⟩

theorem skips_nil : Skips [] [] := stop_nil.skips

theorem Stop.suffix_fails (h : Stop t) (n : Nat) (pos : Position) (i : Nat) :
    Fails (firstOf [arguments n, dotMember, indexMember n]) ⟨t, pos, i⟩ := by
  refine Fails.firstOf ?_
  simp only [List.forall_mem_cons, List.not_mem_nil, false_imp_iff, implies_true, and_true]
  refine ⟨?_, (h.text_fails (by decide) _ pos i).before.rule, ?_⟩
  · cases n with
    | zero => rfl
    | succ n =>
      rw [arguments]
      exact (h.text_fails (by decide) _ pos i).andThen.rule
  · cases n with
    | zero => rfl
    | succ n =>
      rw [indexMember]
      exact (h.text_fails (by decide) _ pos i).andThen.rule

theorem chain_nil (base : Built Expr) : chain base [] = base := by cases base <;> rfl

theorem lhsExpr_alone (hc : Unprefixed c) (h : Reads (primary n) c P s i) (hs : Skips s t) (ht : Stop t) :
    Reads (lhsExpr (n + 1)) c P t i := by
  rw [lhsExpr]
  refine Reads.rule (P := P) ?_ fun _ _ hv => hv
  refine (Reads.or_right (hc.newExpr_fails n) h).andThen hs fun v hv pos => ?_
  refine (reads_many_nil (ht.suffix_fails n pos i) n).map fun ss hss => ?_
  rw [hss, chain_nil]
  exact hv

theorem unary_alone (hc : Unprefixed c) (h : Reads (given head (lhsExpr n)) c P t i) (ht : Stop t) :
    Reads (unary (n + 2) head) c P t i := by
  rw [unary]
  refine Reads.rule (P := fun node => ∀ σ, P (node σ)) ?_ fun σ _ hv => hv σ
  refine .firstOf_cons hc.unaryOps.rule.andThen <| .firstOf_cons hc.updateOps.andThen <|
    .firstOf_head <| Reads.map (P := P) ?_ fun _ hv _ => hv
  rw [updated]
  refine Reads.rule (P := fun r => P r.1 ∧ r.2 = none) ?_ ?_
  · refine h.andThen ht.skips fun v hv pos => ?_
    exact (Reads.optional_none (pick_fails ht.update)).map fun op hop => ⟨hv, hop⟩
  · rintro σ ⟨v, op⟩ ⟨hv, rfl⟩
    exact hv

theorem exponent_alone (h : Reads (unary n head) c P t i) (ht : Skips t t)
    (hpower : ∀ pos, Fails power ⟨t, pos, i⟩) : Reads (exponent (n + 1) head) c P t i := by
  rw [exponent]
  refine Reads.rule (P := fun r => P r.1 ∧ r.2 = none) ?_ ?_
  · refine h.andThen ht fun v hv pos => ?_
    exact (Reads.optional_none (hpower pos).before).map fun e he => ⟨hv, he⟩
  · rintro σ ⟨v, e⟩ ⟨hv, rfl⟩
    exact hv

theorem groupLeft_nil (first : Built Expr) : groupLeft first [] = first := by cases first <;> rfl

theorem level_alone {ops : List (Lexeme × Operator)} {tighter : List (List (Lexeme × Operator))}
    (h : Reads (level n tighter head) c P t i) (ht : Skips t t)
    (hops : ∀ pos, Fails (pick ops) ⟨t, pos, i⟩) :
    Reads (level (n + 1) (ops :: tighter) head) c P t i := by
  rw [level]
  refine Reads.rule (P := P) ?_ fun _ _ hv => hv
  refine h.andThen ht fun v hv pos => ?_
  refine (reads_many_nil (hops pos).andThen n).map fun rest hrest => ?_
  rw [hrest, groupLeft_nil]
  exact hv

/-- Without operators, all levels read the same. -/
theorem levels_alone (h : ∀ m, Reads (unary (m + n) head) c P t j) (ht : Skips t t)
    (hpower : ∀ pos, Fails power ⟨t, pos, j⟩) (ops : List (List (Lexeme × Operator)))
    (hops : ∀ table ∈ ops, ∀ e ∈ table, e.1 t = none) (m : Nat) :
    Reads (level (m + n + 2 + ops.length) ops head) c P t j := by
  induction ops with
  | nil => exact exponent_alone (h m) ht hpower
  | cons table tighter ih =>
    refine level_alone (ih fun u hu => hops u (List.mem_cons_of_mem _ hu)) ht fun _ => ?_
    exact pick_fails (hops table List.mem_cons_self)

theorem conditional_alone (h : Reads (level n precedence head) c P t j) (ht : Skips t t)
    (hquestion : ∀ pos, Fails (sym "?") ⟨t, pos, j⟩) : Reads (conditional (n + 1) head) c P t j := by
  rw [conditional]
  refine Reads.rule (P := fun r => P r.1 ∧ r.2 = none) ?_ ?_
  · refine h.andThen ht fun v hv pos => ?_
    exact (Reads.optional_none (hquestion pos).andThen).map fun arms harms => ⟨hv, harms⟩
  · rintro σ ⟨v, arms⟩ ⟨hv, rfl⟩
    exact hv

/-- No assignment is read where only an operand is assigned to. -/
theorem assignment_alone (hhead : Reads (lhsExpr n) c Q t i) (ht : Stop t)
    (h : Reads (conditional n (some (lhsExpr n c))) c P x j) : Reads (assignment (n + 1)) c P x j := by
  rw [assignment]
  refine Reads.rule (P := fun node => ∀ σ, P (node σ)) ?_ fun σ _ hv => hv σ
  refine Reads.or_right ?_ (h.map fun _ hv _ => hv)
  exact Reads.andThen_fails (p := fun _ => lhsExpr n c) hhead ht.skips
    fun _ _ pos => (pick_fails ht.assign).andThen

/-- An expression without commas. -/
theorem sequence_single (σ : Span) (v : Built Expr) :
    (do
      match ← [v].mapM id with
      | [e] => return e
      | es => return .sequence σ es : Built Expr) = v := by
  cases v <;> rfl

theorem expression_alone (h : Reads (assignment n) c P t j) (ht : Skips t t)
    (hcomma : ∀ pos, Fails (sym ",") ⟨t, pos, j⟩) : Reads (expression (n + 1)) c P t j := by
  rw [expression]
  refine Reads.rule (P := fun vs => ∃ v, P v ∧ vs = [v]) ?_ ?_
  · refine h.andThen ht fun v hv pos => ?_
    exact (reads_many_nil (hcomma pos).before n).map fun vs hvs => ⟨v, hv, congrArg _ hvs⟩
  · rintro σ _ ⟨v, hv, rfl⟩
    exact (sequence_single σ v).symm ▸ hv

/-! ## An expression as a program -/

/-- Where no keyword and no label stands, a statement is an expression. -/
theorem Bland.result_statement (h : Bland c) (hlabel : Fails (ident.closedBy (sym ":")) c) (n : Nat) :
    (statement (n + 2) c).result =
      (rule ((expression (n + 1)).closedBy (optional (sym ";"))) (fun σ e =>
        (return .expression σ (← e) : Built Stmt)) c).result := by
  have hword (k : String) (hk : k ∈ Lexeme.keywords) {α : Type} (f : Token → Matcher α)
      (g : Span → α → Built Stmt) : Fails (rule ((kw k).andThen f) g) c :=
    (h.kw_fails hk c.nextFunction).andThen.rule
  have hfunction : Fails (functionDecl (n + 1)) c := by
    rw [functionDecl]
    exact (h.kw_fails (by decide) (c.nextFunction + 1)).andThen.rule
  have hlet : Fails (letStmt (n + 1)) c := by
    rw [letStmt]
    exact ((h.kw_fails (by decide) c.nextFunction).or
      (h.kw_fails (by decide) c.nextFunction)).andThen.rule
  have hjump (k : String) (hk : k ∈ Lexeme.keywords) (node : Span → Option String → Stmt) :
      Fails (jump k node) c :=
    (h.kw_fails hk c.nextFunction).tight.rule.closedBy.rule
  rw [statement, result_rule, block, varStmt, ifStmt, doStmt, whileStmt, forEachStmt, forStmt,
    returnStmt, throwStmt, tryStmt, labeledStmt,
    result_firstOf_cons h.brace.andThen.rule, result_firstOf_cons (hword "var" (by decide) _ _),
    result_firstOf_cons hlet, result_firstOf_cons hfunction,
    result_firstOf_cons (hword "if" (by decide) _ _),
    result_firstOf_cons (hword "do" (by decide) _ _),
    result_firstOf_cons (hword "while" (by decide) _ _),
    result_firstOf_cons (hword "for" (by decide) _ _),
    result_firstOf_cons (hword "for" (by decide) _ _),
    result_firstOf_cons (hword "return" (by decide) _ _),
    result_firstOf_cons (hjump "break" (by decide) _),
    result_firstOf_cons (hjump "continue" (by decide) _),
    result_firstOf_cons (hword "throw" (by decide) _ _),
    result_firstOf_cons (hword "try" (by decide) _ _),
    result_firstOf_cons hlabel.andThen.rule, result_firstOf_cons h.semicolon.rule,
    result_firstOf_last]
  exact Option.map_id' ..

theorem Bland.statement_fails (h : Bland c) (hlabel : Fails (ident.closedBy (sym ":")) c)
    (hexpression : Fails (expression (n + 1)) c) : Fails (statement (n + 2)) c :=
  (h.result_statement hlabel n).trans hexpression.closedBy.rule

theorem statement_alone (hc : Bland c) (hlabel : Fails (ident.closedBy (sym ":")) c)
    (h : Reads (expression (n + 1)) c P [] j) :
    Reads (statement (n + 2)) c (fun v => ∃ σ e, P e ∧ v = e.map (Stmt.expression σ)) [] j := by
  have hread : Reads (rule ((expression (n + 1)).closedBy (optional (sym ";"))) fun σ e =>
      (return .expression σ (← e) : Built Stmt)) c
      (fun v => ∃ σ e, P e ∧ v = e.map (Stmt.expression σ)) [] j := by
    refine Reads.rule (P := P) ?_ fun σ e he => ⟨σ, e, he, rfl⟩
    refine h.andThen skips_nil fun e he pos => ?_
    have hsemicolon : Fails (sym ";") ⟨[], pos, j⟩ := rfl
    exact (Reads.optional_none hsemicolon).map fun _ _ => he
  obtain ⟨v, pos, hv, hread⟩ := hread
  exact ⟨v, pos, hv, (hc.result_statement hlabel n).trans hread⟩

/-- Nothing begins where a text ends. -/
theorem statement_nil (p : Position) (i n : Nat) : Fails (statement (n + 4)) ⟨[], p, i⟩ := by
  have hident : Fails ident ⟨[], p, i⟩ := rfl
  exact (bland_nil p i).statement_fails hident.closedBy
    ((bland_nil p i).expression_fails (primary_nil p i n))

theorem result_program (fuel : Nat) (c : Cursor) :
    (program fuel c).result =
      ((many fuel (statement fuel)).closedBy atEnd c.skip).result.map fun r =>
        ((do return ⟨← r.1.mapM id, ⟨c.pos, r.2.pos⟩, r.2.nextFunction⟩ : Built Program), r.2) := by
  have hstart : ((succeed ()).andThen (fun _ => (many fuel (statement fuel)).closedBy atEnd) c).result =
      ((many fuel (statement fuel)).closedBy atEnd c.skip).result := result_andThen ..
  rw [← hstart]
  unfold program
  dsimp only
  rcases (succeed ()).andThen (fun _ => (many fuel (statement fuel)).closedBy atEnd) c with
    ⟨reach, _ | ⟨v, c'⟩⟩ <;> rfl

theorem program_alone (hskip : c.skip = c) {P : Built Stmt → Prop}
    (h : Reads (statement (n + 4)) c P [] j) :
    Reads (program (n + 4)) c
      (fun v => ∃ s τ, P s ∧ v = s.map fun s => (⟨[s], τ, j⟩ : Program)) [] j := by
  have hmany : Reads (many (n + 4) (statement (n + 4))) c (fun ss => ∃ s, P s ∧ ss = [s]) [] j := by
    refine reads_many_of_more hskip (reads_more_cons hskip h fun s hs pos => ?_)
    exact (reads_more_nil rfl (statement_nil pos j n) _).mono fun ss hss => ⟨s, hs, congrArg _ hss⟩
  have hbody : Reads ((many (n + 4) (statement (n + 4))).closedBy atEnd) c
      (fun ss => ∃ s, P s ∧ ss = [s]) [] j :=
    hmany.andThen skips_nil fun ss hss pos => ⟨ss, pos, hss, rfl⟩
  obtain ⟨_, pos, ⟨s, hs, rfl⟩, hbody⟩ := hbody
  refine ⟨s.map fun s => ⟨[s], ⟨c.pos, pos⟩, j⟩, pos, ⟨s, _, hs, rfl⟩, ?_⟩
  rw [result_program, hskip, hbody]
  cases s <;> rfl

theorem program_fails (hrest : c.rest ≠ []) (hskip : c.skip = c) (h : Fails (statement n) c) :
    Fails (program n) c := by
  have hend : Fails atEnd c := by
    unfold Fails atEnd
    rw [if_neg fun hempty => hrest (List.isEmpty_iff.mp hempty)]
  rw [Fails, result_program, hskip, Matcher.closedBy, result_andThen, result_many_nil h,
    Option.bind_some, hskip, hend.map, Option.map_none]

theorem parse_of_reads {P : Built Program → Prop} {y : List Char}
    (h : Reads (program (fuelFor x)) ⟨x, {}, 1⟩ P y j) :
    ∃ v, P v ∧ parse (String.ofList x) = v.mapError .unbuildable := by
  obtain ⟨v, pos, hv, h⟩ := h
  refine ⟨v, hv, ?_⟩
  unfold parse
  rw [String.toList_ofList]
  dsimp only
  rcases hreply : program (fuelFor x) ⟨x, {}, 1⟩ with ⟨reach, _ | r⟩
  · rw [hreply] at h
    cases h
  · rw [hreply] at h
    cases h
    rfl

theorem parse_of_fails (h : Fails (program (fuelFor x)) ⟨x, {}, 1⟩) :
    ∃ pos, parse (String.ofList x) = .error (.unmatched pos) := by
  unfold Fails at h
  unfold parse
  rw [String.toList_ofList]
  dsimp only
  rcases hreply : program (fuelFor x) ⟨x, {}, 1⟩ with ⟨reach, _ | r⟩
  · exact ⟨reach, rfl⟩
  · rw [hreply] at h
    cases h

/-- A text that is one expression without assignments. -/
theorem parse_expression (hc : Bland ⟨x, {}, 1⟩) (hlabel : Fails (ident.closedBy (sym ":")) ⟨x, {}, 1⟩)
    (hst : Skips s t) (ht : Stop t) (hfuel : fuelFor x = n + 4)
    (hprimary : Reads (primary n) ⟨x, {}, 1⟩ Q s i)
    (hlevel : Reads (level n precedence (some (lhsExpr (n + 1) ⟨x, {}, 1⟩))) ⟨x, {}, 1⟩ P [] j) :
    ∃ e, P e ∧ ∃ σ τ, parse (String.ofList x) =
      (e.map fun e => (⟨[.expression σ e], τ, j⟩ : Program)).mapError .unbuildable := by
  have hconditional := conditional_alone hlevel skips_nil fun _ => rfl
  have hstatement := statement_alone hc hlabel <| expression_alone
    (assignment_alone (lhsExpr_alone hc.unprefixed hprimary hst ht) ht hconditional) skips_nil
    fun _ => rfl
  have hprogram := program_alone hc.skip hstatement
  rw [← hfuel] at hprogram
  obtain ⟨_, ⟨_, τ, ⟨σ, e, he, rfl⟩, rfl⟩, hparse⟩ := parse_of_reads hprogram
  refine ⟨e, he, σ, τ, hparse.trans ?_⟩
  cases e <;> rfl

/-- A text that is one operand. -/
theorem parse_operand (hc : Bland ⟨x, {}, 1⟩) (hlabel : Fails (ident.closedBy (sym ":")) ⟨x, {}, 1⟩)
    {v : Built Expr} (hread : Reads (primary (32 * x.length + 60)) ⟨x, {}, 1⟩ (· = v) [] j) :
    ∃ σ τ, parse (String.ofList x) =
      (v.map fun e => (⟨[.expression σ e], τ, j⟩ : Program)).mapError .unbuildable := by
  have hfuel : fuelFor x = 32 * x.length + 60 + 4 := by
    rw [fuelFor]
    omega
  have hlhs := lhsExpr_alone hc.unprefixed hread skips_nil stop_nil
  have hunary : ∀ m, Reads (unary (m + 2) (some (lhsExpr (32 * x.length + 60 + 1) ⟨x, {}, 1⟩)))
      ⟨x, {}, 1⟩ (· = v) [] j := fun m => unary_alone hc.unprefixed hlhs stop_nil
  have hlevel := levels_alone hunary skips_nil (fun _ => rfl) precedence precedence_nil
    (32 * x.length + 45)
  obtain ⟨_, rfl, hparse⟩ := parse_expression hc hlabel skips_nil stop_nil hfuel hread hlevel
  exact hparse

/-! ## Operands in front -/

/-- An operand is no label. -/
theorem label_fails (hx : Written x) (hs : Apart s) (hst : Skips s t) (ht : Stop t)
    (p : Position) (i : Nat) : Fails (ident.closedBy (sym ":")) ⟨x ++ s, p, i⟩ := by
  have hother (hword : Lexeme.word (x ++ s) = none) :
      Fails (ident.closedBy (sym ":")) ⟨x ++ s, p, i⟩ := by
    refine Fails.closedBy ?_
    unfold Fails ident token
    dsimp only
    rw [Lexeme.identifier_none hword]
  cases hx with
  | name h =>
    have hname : Lexeme.identifier (x ++ s) = some (x, s) := by
      rw [Lexeme.identifier_steady s hs, h]
      rfl
    exact (reads_token hname).andThen_fails hst fun _ _ pos => (ht.text_fails (by decide) _ pos i).map
  | number h => exact hother (by rw [Lexeme.word_steady s hs, word_number h, Option.map_none])
  | parentheses h => exact hother (Lexeme.word_none (by decide) _)

/-- What an operand is read as makes the program that it is. -/
theorem parse_primary (hx : Written x) {v : Built Expr}
    (hread : Reads (primary (32 * x.length + 60)) ⟨x, {}, 1⟩ (· = v) [] j) :
    ∃ σ τ, parse (String.ofList x) =
      (v.map fun e => (⟨[.expression σ e], τ, j⟩ : Program)).mapError .unbuildable := by
  have happend : x ++ [] = x := List.append_nil x
  exact parse_operand (happend ▸ (hx.fresh (.inl rfl) {} 1).bland)
    (happend ▸ label_fails hx (.inl rfl) skips_nil stop_nil {} 1) hread

/-- **An operand that is a program is read as an operand**, and the program has nothing else. -/
theorem parse_single (hx : Written x) {program : Program}
    (h : parse (String.ofList x) = .ok program) :
    ∃ e σ τ j, program = ⟨[.expression σ e], τ, j⟩ ∧
      Reads (primary (32 * x.length + 60)) ⟨x, {}, 1⟩ (· = .ok e) [] j := by
  have hfuel : fuelFor x = 32 * x.length + 60 + 4 := by
    rw [fuelFor]
    omega
  have happend : x ++ [] = x := List.append_nil x
  have hbland : Bland ⟨x, {}, 1⟩ := happend ▸ (hx.fresh (.inl rfl) {} 1).bland
  rcases primary_written hx (.inl rfl) (p := {}) (q := {}) (i := 1) (δ := 0)
    (n := 32 * x.length + 60) (m := 32 * x.length + 60) (by omega) (by omega) with
    hfails | ⟨v, -, j, hread, -⟩
  · have hlabel : Fails (ident.closedBy (sym ":")) ⟨x, {}, 1⟩ :=
      happend ▸ label_fails hx (.inl rfl) skips_nil stop_nil {} 1
    have hstatement := hbland.statement_fails hlabel (hbland.expression_fails hfails)
    have hne : x ≠ [] := by
      rintro rfl
      cases hx <;> contradiction
    obtain ⟨pos, hparse⟩ := parse_of_fails
      (hfuel ▸ program_fails (n := 32 * x.length + 60 + 4) hne hbland.skip hstatement)
    rw [hparse] at h
    cases h
  · obtain ⟨σ, τ, hparse⟩ := parse_primary hx hread
    rw [hparse] at h
    cases v with
    | error e => cases h
    | ok e =>
      cases h
      exact ⟨e, σ, τ, j, rfl, hread⟩

end Fermata.Grammar
