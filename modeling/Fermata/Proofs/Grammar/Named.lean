import Fermata.Proofs.Grammar.Refusal
import Fermata.Proofs.Grammar.Single

/-!
# The names of a tree

A tree takes its names from identifiers alone: words that are no keywords. This holds of the names that
expressions mention, of those that functions, parameters, variables and handlers declare, and of labels.

* `Grammar.NamedStmt`: all names of a statement are identifiers.
* `Grammar.parse_named`: all names of a program are.
-/

namespace Fermata.Grammar

open Matcher

/-- A name that is no keyword. -/
def IsIdentifier (name : String) : Prop := isValidName name = true ∧ name ∉ Lexeme.keywords

mutual

/-- All names of the expression are identifiers. A property in shorthand is named by an identifier that is
also its value. -/
inductive NamedExpr : Expr → Prop
  | number {s x} : NamedExpr (.number s x)
  | string {s x} : NamedExpr (.string s x)
  | bool {s b} : NamedExpr (.bool s b)
  | null {s} : NamedExpr (.null s)
  | this {s} : NamedExpr (.this s)
  | ident {s x} (hx : IsIdentifier x) : NamedExpr (.ident s x)
  | array {s es} (hes : ∀ e ∈ es, NamedExpr e) : NamedExpr (.array s es)
  | object {s ps} (hps : ∀ p ∈ ps, NamedExpr (PropertyDef.value p)) : NamedExpr (.object s ps)
  | function {s fn} (hfn : NamedFunction fn) : NamedExpr (.function s fn)
  | member {s o k i} (ho : NamedExpr o) (hk : ∀ e, k = .computed e → NamedExpr e) :
    NamedExpr (.member s o k i)
  | call {s f es} (hf : NamedExpr f) (hes : ∀ e ∈ es, NamedExpr e) : NamedExpr (.call s f es)
  | construct {s f es} (hf : NamedExpr f) (hes : ∀ e ∈ es, NamedExpr e) :
    NamedExpr (.construct s f es)
  | unary {s op a} (ha : NamedExpr a) : NamedExpr (.unary s op a)
  | update {s op b a} (ha : NamedExpr a) : NamedExpr (.update s op b a)
  | binary {s op l r} (hl : NamedExpr l) (hr : NamedExpr r) : NamedExpr (.binary s op l r)
  | logical {s op l r} (hl : NamedExpr l) (hr : NamedExpr r) : NamedExpr (.logical s op l r)
  | assign {s op l r} (hl : NamedExpr l) (hr : NamedExpr r) : NamedExpr (.assign s op l r)
  | conditional {s t y n} (ht : NamedExpr t) (hy : NamedExpr y) (hn : NamedExpr n) :
    NamedExpr (.conditional s t y n)
  | sequence {s es} (hes : ∀ e ∈ es, NamedExpr e) : NamedExpr (.sequence s es)

/-- The name of a function, its parameters and all names of its body are identifiers. -/
inductive NamedFunction : FunctionNode → Prop
  | mk {id name params body decl s} (hname : ∀ x, name = some x → IsIdentifier x)
    (hparams : ∀ x ∈ params, IsIdentifier x) (hbody : ∀ t ∈ body, NamedStmt t) :
    NamedFunction ⟨id, name, params, body, decl, s⟩

/-- The declared name and all names of the value are identifiers. -/
inductive NamedDecl : VarDecl → Prop
  | mk {name init s} (hname : IsIdentifier name) (hinit : ∀ e, init = some e → NamedExpr e) :
    NamedDecl ⟨name, init, s⟩

/-- All names of the first part of a loop are identifiers. -/
inductive NamedInit : ForInit → Prop
  | declare {ds} (hds : ∀ d ∈ ds, NamedDecl d) : NamedInit (.declare ds)
  | expression {e} (he : NamedExpr e) : NamedInit (.expression e)

/-- All names of the target of a loop are identifiers. -/
inductive NamedTarget : ForTarget → Prop
  | declare {s x} (hx : IsIdentifier x) : NamedTarget (.declare s x)
  | expression {e} (he : NamedExpr e) : NamedTarget (.expression e)

/-- The parameter of a handler and all names of its body are identifiers. -/
inductive NamedClause : CatchClause → Prop
  | mk {param body} (hparam : ∀ x, param = some x → IsIdentifier x) (hbody : NamedStmt body) :
    NamedClause ⟨param, body⟩

/-- All names of the statement are identifiers, labels included. -/
inductive NamedStmt : Stmt → Prop
  | expression {s e} (he : NamedExpr e) : NamedStmt (.expression s e)
  | declare {s ds} (hds : ∀ d ∈ ds, NamedDecl d) : NamedStmt (.declare s ds)
  | function {s fn} (hfn : NamedFunction fn) : NamedStmt (.function s fn)
  | ret {s a} (ha : ∀ e, a = some e → NamedExpr e) : NamedStmt (.ret s a)
  | cond {s e y n} (he : NamedExpr e) (hy : NamedStmt y) (hn : ∀ t, n = some t → NamedStmt t) :
    NamedStmt (.cond s e y n)
  | whileLoop {s e b} (he : NamedExpr e) (hb : NamedStmt b) : NamedStmt (.whileLoop s e b)
  | doLoop {s b e} (hb : NamedStmt b) (he : NamedExpr e) : NamedStmt (.doLoop s b e)
  | forLoop {s i t u b} (hi : ∀ x, i = some x → NamedInit x) (ht : ∀ e, t = some e → NamedExpr e)
    (hu : ∀ e, u = some e → NamedExpr e) (hb : NamedStmt b) : NamedStmt (.forLoop s i t u b)
  | forEach {s k t e b} (ht : NamedTarget t) (he : NamedExpr e) (hb : NamedStmt b) :
    NamedStmt (.forEach s k t e b)
  | leave {s l} (hl : ∀ x, l = some x → IsIdentifier x) : NamedStmt (.leave s l)
  | next {s l} (hl : ∀ x, l = some x → IsIdentifier x) : NamedStmt (.next s l)
  | raise {s e} (he : NamedExpr e) : NamedStmt (.raise s e)
  | guarded {s b h f} (hb : NamedStmt b) (hh : ∀ c, h = some c → NamedClause c)
    (hf : ∀ t, f = some t → NamedStmt t) : NamedStmt (.guarded s b h f)
  | labeled {s l b} (hl : IsIdentifier l) (hb : NamedStmt b) : NamedStmt (.labeled s l b)
  | block {s ts} (hts : ∀ t ∈ ts, NamedStmt t) : NamedStmt (.block s ts)
  | empty {s} : NamedStmt (.empty s)

end

/-! ## What is built -/

/-- What is built, if anything, is like this. -/
def Makes {α : Type} (P : α → Prop) (v : Built α) : Prop := ∀ x, v = .ok x → P x

namespace Makes

variable {α β : Type} {P : α → Prop} {Q : β → Prop}

theorem ok {x : α} (hx : P x) : Makes P (.ok x) := by
  rintro _ ⟨⟩
  exact hx

theorem refuse {cause : BuildCause} {span : Span} : Makes P (refuse cause span) :=
  fun _ h => nomatch h

theorem bind {v : Built α} {k : α → Built β} (hv : Makes P v) (hk : ∀ x, P x → Makes Q (k x)) :
    Makes Q (v >>= k) := by
  cases v with
  | error e => exact fun _ h => nomatch h
  | ok x => exact hk x (hv x rfl)

/-- A node with one part. -/
theorem map {v : Built α} {k : α → β} (hv : Makes P v) (hk : ∀ x, P x → Q (k x)) :
    Makes Q (v >>= fun x => pure (k x)) := hv.bind fun x hx => .ok (hk x hx)

theorem mapM {vs : List (Built α)} (h : ∀ v ∈ vs, Makes P v) :
    Makes (fun xs => ∀ x ∈ xs, P x) (vs.mapM id) := by
  induction vs with
  | nil => exact .ok nofun
  | cons v vs ih =>
    obtain ⟨hv, hvs⟩ := List.forall_mem_cons.mp h
    rw [List.mapM_cons]
    exact hv.bind fun x hx => (ih hvs).map fun xs hxs => List.forall_mem_cons.mpr ⟨hx, hxs⟩

theorem optional {v : Option α} {f : α → Built β} (h : ∀ x, v = some x → Makes Q (f x)) :
    Makes (fun y => ∀ z, y = some z → Q z) (v.mapM f) := by
  cases v with
  | none => exact .ok nofun
  | some x => exact (h x rfl).map fun y hy z hz => Option.some.inj hz ▸ hy

end Makes

/-- What the parts of a suffix make. -/
def Suffix.Named : Suffix → Prop
  | .arguments _ args => ∀ v ∈ args, Makes NamedExpr v
  | .named _ _ => True
  | .computed _ key => Makes NamedExpr key

theorem Suffix.named_apply {s : Suffix} (hs : s.Named) {e : Expr} (he : NamedExpr e) :
    Makes NamedExpr (s.apply e) := by
  cases s with
  | arguments span args => exact (Makes.mapM hs).map fun es hes => .call he hes
  | named span name => exact .ok (.member he nofun)
  | computed span key =>
    exact Makes.map hs fun k hk => .member he fun x hx => MemberKey.computed.inj hx ▸ hk

theorem named_chain {base : Built Expr} {ss : List Suffix} (hbase : Makes NamedExpr base)
    (hss : ∀ s ∈ ss, s.Named) : Makes NamedExpr (chain base ss) := by
  refine hbase.bind fun e he => ?_
  clear hbase
  induction ss generalizing e with
  | nil => exact .ok he
  | cons s ss ih =>
    obtain ⟨hs, hss⟩ := List.forall_mem_cons.mp hss
    rw [List.foldlM_cons]
    exact (Suffix.named_apply hs he).bind fun e' he' => ih hss e' he'

theorem named_groupLeft {first : Built Expr} {rest : List (Operator × Built Expr)}
    (hfirst : Makes NamedExpr first) (hrest : ∀ r ∈ rest, Makes NamedExpr r.2) :
    Makes NamedExpr (groupLeft first rest) := by
  refine hfirst.bind fun e he => ?_
  clear hfirst
  induction rest generalizing e with
  | nil => exact .ok he
  | cons r rest ih =>
    obtain ⟨op, right⟩ := r
    obtain ⟨hright, hrest⟩ := List.forall_mem_cons.mp hrest
    rw [List.foldlM_cons]
    refine (Makes.map hright fun x hx => ?_).bind fun e' he' => ih hrest e' he'
    cases op with
    | binary op => exact .binary he hx
    | logical op => exact .logical he hx

theorem named_assignNode {op : AssignOp} {target value : Built Expr} {span : Span}
    (ht : Makes NamedExpr target) (hv : Makes NamedExpr value) :
    Makes NamedExpr (assignNode op target value span) := by
  refine ht.bind fun t ht => ?_
  split
  · exact hv.map fun v hv => .assign ht hv
  · exact .refuse

theorem named_updateNode {op : UpdateOp} {before : Bool} {target : Built Expr} {span : Span}
    (ht : Makes NamedExpr target) : Makes NamedExpr (updateNode op before target span) := by
  refine ht.bind fun t ht => ?_
  split
  · exact .ok (.update ht)
  · exact .refuse

/-! ## Rules -/

variable {whole : List Char}

/-- Whatever the rule takes makes a tree like this, if it makes one. -/
abbrev Names {α : Type} (whole : List Char) (P : α → Prop) (p : Matcher (Built α)) : Prop :=
  Takes whole p (Makes P)

/-- The same at one cursor. -/
abbrev NamesAt (whole : List Char) (p : Matcher (Built Expr)) (c : Cursor) : Prop :=
  Lands whole p c fun v _ => Makes NamedExpr v

/-- What was already matched here makes such an expression. -/
def Head.Named (whole : List Char) (head : Head) (c : Cursor) : Prop :=
  ∀ reply, head = some reply → NamesAt whole (fun _ => reply) c

theorem Head.named_none (c : Cursor) : Head.Named whole none c := fun _ h => nomatch h

/-- An identifier is a name and no keyword. -/
theorem ident_named : Takes whole ident fun t => IsIdentifier t.text := by
  intro c
  refine (Lands.token Lexeme.identifier_splits c).weaken fun t c' _ _ ht => ?_
  obtain ⟨hword, hkey⟩ := Lexeme.identifier_word ht.2.1
  refine ⟨?_, fun hmem => ?_⟩
  · unfold isValidName Token.text
    rw [String.toList_ofList]
    exact isName_word hword
  · rw [Lexeme.isKeyword, List.any_eq_false] at hkey
    exact hkey _ hmem (by simp [Token.text])

/-- Every rule of the grammar, at one depth. -/
structure Naming (whole : List Char) (n : Nat) : Prop where
  expression : Names whole NamedExpr (expression n)
  assignment : Names whole NamedExpr (assignment n)
  conditional : ∀ head c, Head.Named whole head c → NamesAt whole (conditional n head) c
  level : ∀ ops, SplitTables ops → ∀ head c, Head.Named whole head c →
    NamesAt whole (level n ops head) c
  exponent : ∀ head c, Head.Named whole head c → NamesAt whole (exponent n head) c
  unary : ∀ head c, Head.Named whole head c → NamesAt whole (unary n head) c
  updated : ∀ head c, Head.Named whole head c → NamesAt whole (updated n head) c
  lhsExpr : Names whole NamedExpr (lhsExpr n)
  newExpr : Names whole NamedExpr (newExpr n)
  memberChain : Names whole NamedExpr (memberChain n)
  arguments : Takes whole (arguments n) Suffix.Named
  indexMember : Takes whole (indexMember n) Suffix.Named
  primary : Names whole NamedExpr (primary n)
  property : Names whole (fun p => NamedExpr p.value) (property n)
  functionExpr : Names whole NamedExpr (functionExpr n)
  functionBody : Names whole (fun ts => ∀ t ∈ ts, NamedStmt t) (functionBody n)
  statement : Names whole NamedStmt (statement n)
  block : Names whole NamedStmt (block n)
  varDecl : Names whole NamedDecl (varDecl n)
  varStmt : Names whole NamedStmt (varStmt n)
  letStmt : Names whole NamedStmt (letStmt n)
  functionDecl : Names whole NamedStmt (functionDecl n)
  condition : Names whole NamedExpr (condition n)
  ifStmt : Names whole NamedStmt (ifStmt n)
  whileStmt : Names whole NamedStmt (whileStmt n)
  doStmt : Names whole NamedStmt (doStmt n)
  forTarget : Names whole NamedTarget (forTarget n)
  forEachStmt : Names whole NamedStmt (forEachStmt n)
  forInit : Names whole NamedInit (forInit n)
  part : Names whole NamedExpr (part n)
  forStmt : Names whole NamedStmt (forStmt n)
  returnStmt : Names whole NamedStmt (returnStmt n)
  throwStmt : Names whole NamedStmt (throwStmt n)
  tryStmt : Names whole NamedStmt (tryStmt n)
  labeledStmt : Names whole NamedStmt (labeledStmt n)

variable {n : Nat}

/-! ## Expressions -/

theorem names_expression (h : Naming whole n) : Names whole NamedExpr (expression (n + 1)) := by
  rw [expression]
  refine Takes.rule ((commaList_takes h.assignment n).weaken fun es hes span => ?_)
  refine (Makes.mapM hes).bind fun es hes => ?_
  split
  next e => exact .ok (hes e List.mem_cons_self)
  next => exact .ok (.sequence hes)

theorem names_assignment (h : Naming whole n) : Names whole NamedExpr (assignment (n + 1)) := by
  intro c
  rw [assignment]
  have hhead : Head.Named whole (some (lhsExpr n c)) c := fun reply heq =>
    Option.some.inj heq ▸ h.lhsExpr c
  have hassign (target : Built Expr) (ht : Makes NamedExpr target) : Takes whole
      ((pick assignOps).andThen fun op => (assignment n).map fun value => assignNode op target value)
      fun node => ∀ span, Makes NamedExpr (node span) :=
    (pick_takes assignOps_splits).andThen fun op _ =>
      Takes.map (h.assignment.weaken fun value hv span => named_assignNode ht hv)
  have hboth : Lands whole ((Matcher.andThen (fun _ => lhsExpr n c) fun target =>
      (pick assignOps).andThen fun op => (assignment n).map fun value => assignNode op target value).or
        ((conditional n (some (lhsExpr n c))).map fun e _ => e)) c
      fun node _ => ∀ span, Makes NamedExpr (node span) := by
    have htarget : Lands whole (fun _ => lhsExpr n c) c fun v _ => Makes NamedExpr v := h.lhsExpr c
    refine Lands.or (htarget.andThen fun target c₁ _ ht => hassign target ht c₁.skip) (Lands.map ?_)
    exact (h.conditional _ c hhead).weaken fun _ _ _ _ he _ => he
  exact Lands.rule (hboth.weaken fun _ _ _ _ hv _ => hv _)

theorem names_conditional (h : Naming whole n) (head : Head) (c : Cursor)
    (hhead : Head.Named whole head c) : NamesAt whole (conditional (n + 1) head) c := by
  rw [conditional]
  have harms : Takes whole ((sym "?").andThen fun _ => (assignment n).andThen fun yes =>
      (sym ":").before ((assignment n).map fun no => (yes, no))) fun arms =>
      Makes NamedExpr arms.1 ∧ Makes NamedExpr arms.2 :=
    (sym_takes "?").andThen fun _ _ => h.assignment.andThen fun yes hyes =>
      (sym_takes ":").before (Takes.map (h.assignment.weaken fun no hno => ⟨hyes, hno⟩))
  refine Lands.rule ((h.level precedence precedence_splits head c hhead).andThen
    fun test c₁ _ ht => Lands.map (Lands.optional ?_ fun _ => ht))
  exact (harms c₁.skip).weaken fun arms _ _ _ h _ =>
    ht.bind fun _ ht => h.1.bind fun _ hy => h.2.map fun _ hn => .conditional ht hy hn

theorem names_level (h : Naming whole n) (ops : List (List (Lexeme × Operator)))
    (hops : SplitTables ops) (head : Head) (c : Cursor) (hhead : Head.Named whole head c) :
    NamesAt whole (level (n + 1) ops head) c := by
  cases ops with
  | nil =>
    rw [level]
    exact h.exponent head c hhead
  | cons ops tighter =>
    have htighter : SplitTables tighter := fun table ht => hops table (List.mem_cons_of_mem _ ht)
    have hright : Takes whole ((pick ops).andThen fun op =>
        (level n tighter none).map fun e => (op, e)) fun r => Makes NamedExpr r.2 :=
      (pick_takes (hops ops List.mem_cons_self)).andThen fun op _ => Takes.map fun c =>
        h.level tighter htighter none c (Head.named_none c)
    rw [level]
    refine Lands.rule ((h.level tighter htighter head c hhead).andThen
      fun first c₁ _ hfirst => Lands.map ?_)
    exact (hright.many n c₁.skip).weaken fun rest _ _ _ hrest _ => named_groupLeft hfirst hrest

theorem names_exponent (h : Naming whole n) (head : Head) (c : Cursor)
    (hhead : Head.Named whole head c) : NamesAt whole (exponent (n + 1) head) c := by
  rw [exponent]
  have hpower : Names whole NamedExpr (power.before (exponent n none)) :=
    (Takes.of_finds (Finds.token (Lexeme.operator_splits _ _))).before fun c =>
      h.exponent none c (Head.named_none c)
  refine Lands.rule ((h.unary head c hhead).andThen fun base c₁ _ hbase =>
    Lands.map (Lands.optional ?_ fun _ => hbase))
  exact (hpower c₁.skip).weaken fun e _ _ _ he _ =>
    hbase.bind fun _ hb => he.map fun _ he => .binary hb he

theorem names_unary (h : Naming whole n) (head : Head) (c : Cursor)
    (hhead : Head.Named whole head c) : NamesAt whole (unary (n + 1) head) c := by
  rw [unary]
  have hunary : Names whole NamedExpr (unary n none) := fun c => h.unary none c (Head.named_none c)
  refine Lands.rule (Lands.or ?operator (Lands.or ?update (Lands.or ?plain Lands.fail)))
  case operator =>
    refine Lands.andThen (T := fun _ _ => True)
      (Lands.rule ((pick_takes unaryOps_splits c).weaken fun _ _ _ _ _ _ => trivial)) fun op c₁ _ _ => ?_
    exact Lands.map ((hunary c₁.skip).weaken fun arg _ _ _ ha _ => ha.map fun _ ha => .unary ha)
  case update =>
    refine (pick_takes updateOps_splits c).andThen fun op c₁ _ _ => Lands.map ?_
    exact (hunary c₁.skip).weaken fun target _ _ _ ht _ => named_updateNode ht
  case plain =>
    exact Lands.map ((h.updated head c hhead).weaken fun _ _ _ _ he _ => he)

theorem names_updated (h : Naming whole n) (head : Head) (c : Cursor)
    (hhead : Head.Named whole head c) : NamesAt whole (updated (n + 1) head) c := by
  rw [updated]
  have hgiven : NamesAt whole (given head (lhsExpr n)) c := by
    cases head with
    | none => exact h.lhsExpr c
    | some reply => exact hhead reply rfl
  refine Lands.rule (hgiven.andThen fun target c₁ _ ht => Lands.map (Lands.optional ?_ fun _ => ht))
  exact (pick_takes updateOps_splits c₁.skip).weaken fun op _ _ _ _ _ => named_updateNode ht

/-! ## Operands -/

theorem dotMember_named : Takes whole dotMember Suffix.Named :=
  Takes.rule (((sym_takes ".").before (Takes.of_finds (Finds.token Lexeme.word_splits))).weaken
    fun _ _ _ => trivial)

theorem names_lhsExpr (h : Naming whole n) : Names whole NamedExpr (lhsExpr (n + 1)) := by
  rw [lhsExpr]
  have hsuffix : Takes whole (Matcher.firstOf [arguments n, dotMember, indexMember n]) Suffix.Named :=
    .firstOf_cons h.arguments (.firstOf_cons dotMember_named (.firstOf_cons h.indexMember .fail))
  exact Takes.rule ((h.newExpr.or h.primary).andThen fun base hbase =>
    Takes.map ((hsuffix.many n).weaken fun ss hss _ => named_chain hbase hss))

theorem names_newExpr (h : Naming whole n) : Names whole NamedExpr (newExpr (n + 1)) := by
  rw [newExpr]
  refine Takes.rule ((kw_takes "new").andThen fun _ _ => h.memberChain.andThen fun callee hcallee =>
    Takes.map (h.arguments.optional.weaken fun args hargs span => hcallee.bind fun e he => ?_))
  split
  next args => exact (Makes.mapM (hargs _ rfl)).map fun _ hes => .construct he hes
  next => exact .ok (.construct he fun _ h => absurd h List.not_mem_nil)

theorem names_memberChain (h : Naming whole n) : Names whole NamedExpr (memberChain (n + 1)) := by
  rw [memberChain]
  exact Takes.rule (h.primary.andThen fun base hbase =>
    Takes.map (((dotMember_named.or h.indexMember).many n).weaken fun ss hss _ =>
      named_chain hbase hss))

theorem arguments_named (h : Naming whole n) : Takes whole (arguments (n + 1)) Suffix.Named := by
  rw [arguments]
  exact Takes.rule ((bracketed_takes h.assignment n "(" ")").weaken fun _ hargs _ => hargs)

theorem indexMember_named (h : Naming whole n) : Takes whole (indexMember (n + 1)) Suffix.Named := by
  rw [indexMember]
  exact Takes.rule (((sym_takes "[").andThen fun _ _ =>
    h.expression.closedBy (sym_takes "]")).weaken fun _ hkey _ => hkey)

/-- A token that stands for an expression without names. -/
theorem names_leaf {l : Lexeme} (hl : l.Splits) (f : Token → Built Expr)
    (hf : ∀ t, Makes NamedExpr (f t)) : Names whole NamedExpr ((token l).map f) :=
  Takes.map ((Takes.of_finds (Finds.token hl)).weaken fun t _ => hf t)

theorem names_literal : Names whole NamedExpr literal := by
  refine Takes.rule (Takes.weaken (S := Makes NamedExpr) ?_ fun _ hv _ => hv)
  refine .firstOf_cons (names_leaf Lexeme.number_splits _ fun t => ?_) <|
    .firstOf_cons (names_leaf Lexeme.string_splits _ fun t => .ok .string) <|
    .firstOf_cons (names_leaf (Lexeme.keyword_splits _) _ fun t => .ok .bool) <|
    .firstOf_cons (names_leaf (Lexeme.keyword_splits _) _ fun t => .ok .bool) <|
    .firstOf_cons (names_leaf (Lexeme.keyword_splits _) _ fun t => .ok .null) .fail
  have hvalue : Makes (fun _ => True) (numberValue t t.span) := fun _ _ => trivial
  exact hvalue.map fun _ _ => .number

theorem names_primary (h : Naming whole n) : Names whole NamedExpr (primary (n + 1)) := by
  rw [primary]
  refine Takes.rule (Takes.weaken (S := Makes NamedExpr) ?_ fun _ hv _ => hv)
  refine Takes.firstOf_cons h.functionExpr <|
    Takes.firstOf_cons (names_leaf (Lexeme.keyword_splits _) _ fun t => .ok .this) <|
    Takes.firstOf_cons names_literal <|
    Takes.firstOf_cons (Takes.map (ident_named.weaken fun t ht => .ok (.ident ht))) <|
    Takes.firstOf_cons (Takes.rule ?array) <| Takes.firstOf_cons (Takes.rule ?object) <|
    Takes.firstOf_cons (Takes.rule ?parens) .fail
  case array =>
    exact (bracketed_takes h.assignment n "[" "]").weaken fun vs hvs _ =>
      (Makes.mapM hvs).map fun _ => .array
  case object =>
    exact (bracketed_takes h.property n "\x7b" "\x7d").weaken fun vs hvs _ =>
      (Makes.mapM hvs).map fun _ => .object
  case parens =>
    exact ((sym_takes "(").andThen fun _ _ => h.expression.closedBy (sym_takes ")")).weaken
      fun _ he _ => he

theorem propertyKey_takes : Takes whole propertyKey fun _ => True := by
  have hleaf {l : Lexeme} (hl : l.Splits) (f : Token → Span → Built String) :
      Takes whole ((token l).map f) fun _ => True :=
    Takes.map ((Takes.of_finds (Finds.token hl)).weaken fun _ _ => trivial)
  exact Takes.rule (Takes.weaken (.firstOf_cons (hleaf Lexeme.string_splits _)
    (.firstOf_cons (hleaf Lexeme.number_splits _) (.firstOf_cons (hleaf Lexeme.word_splits _) .fail)))
    fun _ _ _ => trivial)

theorem names_property (h : Naming whole n) :
    Names whole (fun p => NamedExpr p.value) (property (n + 1)) := by
  rw [property]
  refine Takes.rule (Takes.or ?_ (Takes.map (ident_named.weaken fun t ht span => .ok (.ident ht))))
  refine (propertyKey_takes.closedBy (sym_takes ":")).andThen fun key _ => Takes.map ?_
  refine h.assignment.weaken fun value hv span => ?_
  have hkey : Makes (fun _ => True) (key span) := fun _ _ => trivial
  exact hkey.bind fun _ _ => hv.map fun _ he => he

/-! ## Functions -/

theorem params_named (fuel : Nat) :
    Takes whole (params fuel) fun ps => ∀ x ∈ ps, IsIdentifier x := by
  refine Takes.rule (((sym_takes "(").andThen fun _ _ =>
    (commaList_takes ident_named fuel).optional.closedBy (sym_takes ")")).weaken fun ts hts _ => ?_)
  cases ts with
  | none => exact nofun
  | some ts =>
    intro x hx
    obtain ⟨t, ht, rfl⟩ := List.mem_map.mp hx
    exact hts ts rfl t ht

theorem names_functionBody (h : Naming whole n) :
    Names whole (fun ts => ∀ t ∈ ts, NamedStmt t) (functionBody (n + 1)) := by
  rw [functionBody]
  exact Takes.rule (((sym_takes "\x7b").andThen fun _ _ =>
    (h.statement.many n).closedBy (sym_takes "\x7d")).weaken fun _ hvs _ => .mapM hvs)

/-- The parts of a function literal. -/
theorem function_named {α : Type} {N : α → Prop} (h : Naming whole n) {name : Matcher α}
    (hname : Takes whole name N) :
    Takes whole ((kw "function").andThen fun _ => name.andThen fun name =>
      (params n).andThen fun ps => (functionBody n).map fun body => (name, ps, body)) fun v =>
        N v.1 ∧ (∀ x ∈ v.2.1, IsIdentifier x) ∧ Makes (fun ts => ∀ t ∈ ts, NamedStmt t) v.2.2 :=
  (kw_takes "function").andThen fun _ _ => hname.andThen fun _ hx =>
    (params_named n).andThen fun _ hps =>
      Takes.map (h.functionBody.weaken fun _ hbody => ⟨hx, hps, hbody⟩)

theorem names_functionExpr (h : Naming whole n) :
    Names whole NamedExpr (functionExpr (n + 1)) := by
  intro c
  rw [functionExpr]
  refine Lands.rule ((function_named h ident_named.optional
    { c with nextFunction := c.nextFunction + 1 }).weaken fun v _ _ _ hv _ => ?_)
  obtain ⟨hname, hparams, hbody⟩ := hv
  refine hbody.map fun ts hts => .function (.mk (fun x hx => ?_) hparams hts)
  obtain ⟨t, ht, rfl⟩ := Option.map_eq_some_iff.mp hx
  exact hname t ht

/-! ## Statements -/

theorem names_block (h : Naming whole n) : Names whole NamedStmt (block (n + 1)) := by
  rw [block]
  exact Takes.rule (((sym_takes "\x7b").andThen fun _ _ =>
    (h.statement.many n).closedBy (sym_takes "\x7d")).weaken fun _ hvs _ =>
      (Makes.mapM hvs).map fun _ => .block)

theorem names_varDecl (h : Naming whole n) : Names whole NamedDecl (varDecl (n + 1)) := by
  rw [varDecl]
  have hinit : Names whole NamedExpr ((sym "=").andThen fun _ =>
      (notNext '=').before (assignment n)) :=
    (sym_takes "=").andThen fun _ _ => (Takes.of_finds (Finds.notNext '=')).before h.assignment
  refine Takes.rule (ident_named.andThen fun name hname =>
    Takes.map (hinit.optional.weaken fun init hinit span => ?_))
  cases init with
  | none => exact .ok (.mk hname fun _ h => absurd h.symm (Option.some_ne_none _))
  | some e => exact (hinit e rfl).map fun e he => .mk hname fun x hx => Option.some.inj hx ▸ he

theorem names_varStmt (h : Naming whole n) : Names whole NamedStmt (varStmt (n + 1)) := by
  rw [varStmt]
  exact Takes.rule (((kw_takes "var").andThen fun _ _ =>
    (commaList_takes h.varDecl n).closedBy semicolon_takes).weaken fun _ hvs _ =>
      (Makes.mapM hvs).map fun _ => .declare)

theorem names_letStmt (h : Naming whole n) : Names whole NamedStmt (letStmt (n + 1)) := by
  rw [letStmt]
  exact Takes.rule ((((kw_takes "let").or (kw_takes "const")).andThen fun _ _ =>
    (commaList_takes h.varDecl n).closedBy semicolon_takes).weaken fun _ _ _ => .refuse)

theorem names_functionDecl (h : Naming whole n) :
    Names whole NamedStmt (functionDecl (n + 1)) := by
  intro c
  rw [functionDecl]
  refine Lands.rule ((function_named h ident_named
    { c with nextFunction := c.nextFunction + 1 }).weaken fun v _ _ _ hv _ => ?_)
  obtain ⟨hname, hparams, hbody⟩ := hv
  exact hbody.map fun ts hts =>
    .function (.mk (fun x hx => Option.some.inj hx ▸ hname) hparams hts)

theorem names_condition (h : Naming whole n) : Names whole NamedExpr (condition (n + 1)) := by
  rw [condition]
  exact (sym_takes "(").andThen fun _ _ => h.expression.closedBy (sym_takes ")")

theorem names_ifStmt (h : Naming whole n) : Names whole NamedStmt (ifStmt (n + 1)) := by
  rw [ifStmt]
  have helse : Names whole NamedStmt (Matcher.rule ((kw "else").before (statement n)) fun _ s => s) :=
    Takes.rule (((kw_takes "else").before h.statement).weaken fun _ hs _ => hs)
  refine Takes.rule ((kw_takes "if").andThen fun _ _ => h.condition.andThen fun test htest =>
    h.statement.andThen fun yes hyes => Takes.map (helse.optional.weaken fun no hno span =>
      htest.bind fun _ ht => hyes.bind fun _ hy => ?_))
  cases no with
  | none => exact .ok (.cond ht hy fun _ h => absurd h.symm (Option.some_ne_none _))
  | some no => exact (hno no rfl).map fun t hn => .cond ht hy fun x hx => Option.some.inj hx ▸ hn

theorem names_whileStmt (h : Naming whole n) : Names whole NamedStmt (whileStmt (n + 1)) := by
  rw [whileStmt]
  exact Takes.rule ((kw_takes "while").andThen fun _ _ => h.condition.andThen fun test htest =>
    Takes.map (h.statement.weaken fun body hbody span =>
      htest.bind fun _ ht => hbody.map fun _ hb => .whileLoop ht hb))

theorem names_doStmt (h : Naming whole n) : Names whole NamedStmt (doStmt (n + 1)) := by
  rw [doStmt]
  exact Takes.rule ((kw_takes "do").andThen fun _ _ => h.statement.andThen fun body hbody =>
    (kw_takes "while").andThen fun _ _ => Takes.closedBy (Takes.map
      (h.condition.weaken fun test htest span =>
        hbody.bind fun _ hb => htest.map fun _ ht => .doLoop hb ht)) semicolon_takes)

theorem names_forTarget (h : Naming whole n) : Names whole NamedTarget (forTarget (n + 1)) := by
  rw [forTarget]
  refine Takes.rule (Takes.or (Takes.map ?_) (Takes.map ?_))
  · exact ((kw_takes "var").before ident_named).weaken fun t ht span => .ok (.declare ht)
  · refine h.lhsExpr.weaken fun e he span => he.bind fun x hx => ?_
    split
    · exact .ok (.expression hx)
    · exact .refuse

theorem names_forEachStmt (h : Naming whole n) : Names whole NamedStmt (forEachStmt (n + 1)) := by
  rw [forEachStmt]
  have hkind : Takes whole (((kw "of").map fun _ => EachKind.values).or
      ((kw "in").map fun _ => .keys)) fun _ => True :=
    (Takes.map (kw_takes "of")).or (Takes.map (kw_takes "in"))
  refine Takes.rule ((kw_takes "for").andThen fun _ _ => (sym_takes "(").andThen fun _ _ => ?_)
  refine h.forTarget.andThen fun target htarget => hkind.andThen fun kind _ => ?_
  refine h.expression.andThen fun source hsource => (sym_takes ")").andThen fun _ _ => Takes.map ?_
  exact h.statement.weaken fun body hbody span => htarget.bind fun _ ht =>
    hsource.bind fun _ hs => hbody.map fun _ hb => .forEach ht hs hb

theorem names_forInit (h : Naming whole n) : Names whole NamedInit (forInit (n + 1)) := by
  rw [forInit]
  refine Takes.rule (Takes.weaken (S := Makes NamedInit) ?_ fun _ hv _ => hv)
  refine Takes.or (Takes.rule ?_)
    (Takes.map (h.expression.weaken fun e he => he.map fun _ => .expression))
  exact ((kw_takes "var").before (commaList_takes h.varDecl n)).weaken fun _ hvs _ =>
    (Makes.mapM hvs).map fun _ => .declare

theorem names_part (h : Naming whole n) : Names whole NamedExpr (part (n + 1)) := by
  rw [part]
  exact Takes.rule (h.expression.weaken fun _ he _ => he)

theorem names_forStmt (h : Naming whole n) : Names whole NamedStmt (forStmt (n + 1)) := by
  rw [forStmt]
  refine Takes.rule ((kw_takes "for").andThen fun _ _ => (sym_takes "(").andThen fun _ _ => ?_)
  refine (h.forInit.optional.closedBy (sym_takes ";")).andThen fun init hinit => ?_
  refine (h.part.optional.closedBy (sym_takes ";")).andThen fun test htest => ?_
  refine (h.part.optional.closedBy (sym_takes ")")).andThen fun update hupdate => Takes.map ?_
  exact h.statement.weaken fun body hbody span => (Makes.optional hinit).bind fun _ hi =>
    (Makes.optional htest).bind fun _ ht => (Makes.optional hupdate).bind fun _ hu =>
      hbody.map fun _ hb => .forLoop hi ht hu hb

theorem names_returnStmt (h : Naming whole n) : Names whole NamedStmt (returnStmt (n + 1)) := by
  rw [returnStmt]
  exact Takes.rule (((kw_takes "return").andThen fun _ _ =>
    h.expression.optional.closedBy semicolon_takes).weaken fun _ harg _ =>
      (Makes.optional harg).map fun _ => .ret)

theorem names_throwStmt (h : Naming whole n) : Names whole NamedStmt (throwStmt (n + 1)) := by
  rw [throwStmt]
  exact Takes.rule (((kw_takes "throw").andThen fun _ _ =>
    h.expression.closedBy semicolon_takes).weaken fun _ harg _ => harg.map fun _ => .raise)

theorem names_labeledStmt (h : Naming whole n) : Names whole NamedStmt (labeledStmt (n + 1)) := by
  rw [labeledStmt]
  exact Takes.rule ((ident_named.closedBy (sym_takes ":")).andThen fun label hlabel =>
    Takes.map (h.statement.weaken fun body hbody span => hbody.map fun _ => .labeled hlabel))

theorem names_jump (k : String) {node : Span → Option String → Stmt}
    (hnode : ∀ span label, (∀ x, label = some x → IsIdentifier x) → NamedStmt (node span label)) :
    Names whole NamedStmt (jump k node) := by
  have hlabel : Takes whole ((kw k).tight fun _ => optional ((silent .inlineBlanks).tight
      fun _ => ident)) fun label => ∀ t, label = some t → IsIdentifier t.text :=
    (kw_takes k).tight fun _ _ => ((Takes.of_finds (Finds.silent Lexeme.inlineBlanks_splits)).tight
      fun _ _ => ident_named).optional
  refine Takes.rule (Takes.closedBy (Takes.rule (hlabel.weaken fun label hlabel _ span => ?_))
    semicolon_takes)
  refine .ok (hnode span _ fun x hx => ?_)
  obtain ⟨t, ht, rfl⟩ := Option.map_eq_some_iff.mp hx
  exact hlabel t ht

theorem names_tryStmt (h : Naming whole n) : Names whole NamedStmt (tryStmt (n + 1)) := by
  rw [tryStmt]
  have hcatch : Takes whole (Matcher.rule ((kw "catch").andThen fun _ =>
      (optional ((sym "(").andThen fun _ => ident.closedBy (sym ")"))).andThen fun param =>
        (block n).map fun handler => (param, handler)) fun _ clause => clause) fun clause =>
      (∀ t, clause.1 = some t → IsIdentifier t.text) ∧ Makes NamedStmt clause.2 :=
    Takes.rule ((kw_takes "catch").andThen fun _ _ =>
      ((sym_takes "(").andThen fun _ _ => ident_named.closedBy (sym_takes ")")).optional.andThen
        fun param hparam => Takes.map (h.block.weaken fun _ hb _ => ⟨hparam, hb⟩))
  have hfinally : Names whole NamedStmt
      (Matcher.rule ((kw "finally").before (block n)) fun _ b => b) :=
    Takes.rule (((kw_takes "finally").before h.block).weaken fun _ hb _ => hb)
  refine Takes.rule ((kw_takes "try").andThen fun _ _ => h.block.andThen fun body hbody =>
    hcatch.optional.andThen fun handler hhandler => Takes.map (hfinally.optional.weaken
      fun finalizer hfinalizer span => hbody.bind fun _ hb => ?_))
  refine (Makes.optional (Q := NamedClause) fun clause hclause => ?_).bind fun _ hh =>
    (Makes.optional hfinalizer).map fun _ hf => .guarded hb hh hf
  obtain ⟨hparam, hbody⟩ := hhandler clause hclause
  refine hbody.map fun t ht => .mk (fun x hx => ?_) ht
  obtain ⟨t, ht, rfl⟩ := Option.map_eq_some_iff.mp hx
  exact hparam t ht

theorem names_statement (h : Naming whole n) : Names whole NamedStmt (statement (n + 1)) := by
  rw [statement]
  refine Takes.rule (Takes.weaken (S := Makes NamedStmt) ?_ fun _ hv _ => hv)
  refine Takes.firstOf_cons h.block <| Takes.firstOf_cons h.varStmt <|
    Takes.firstOf_cons h.letStmt <| Takes.firstOf_cons h.functionDecl <|
    Takes.firstOf_cons h.ifStmt <| Takes.firstOf_cons h.doStmt <|
    Takes.firstOf_cons h.whileStmt <| Takes.firstOf_cons h.forEachStmt <|
    Takes.firstOf_cons h.forStmt <| Takes.firstOf_cons h.returnStmt <|
    Takes.firstOf_cons (names_jump "break" fun _ _ => .leave) <|
    Takes.firstOf_cons (names_jump "continue" fun _ _ => .next) <|
    Takes.firstOf_cons h.throwStmt <| Takes.firstOf_cons h.tryStmt <|
    Takes.firstOf_cons h.labeledStmt <|
    Takes.firstOf_cons (Takes.rule ((sym_takes ";").weaken fun _ _ _ => .ok .empty)) <|
    Takes.firstOf_cons (Takes.rule ?_) .fail
  exact (h.expression.closedBy semicolon_takes).weaken fun _ he _ => he.map fun _ => .expression

/-- **Every rule takes its names from identifiers**, at every depth. -/
theorem naming (whole : List Char) (n : Nat) : Naming whole n := by
  induction n with
  | zero => constructor <;> intro c <;> intros <;> exact Lands.fail
  | succ n h =>
    exact {
      expression := names_expression h
      assignment := names_assignment h
      conditional := names_conditional h
      level := names_level h
      exponent := names_exponent h
      unary := names_unary h
      updated := names_updated h
      lhsExpr := names_lhsExpr h
      newExpr := names_newExpr h
      memberChain := names_memberChain h
      arguments := arguments_named h
      indexMember := indexMember_named h
      primary := names_primary h
      property := names_property h
      functionExpr := names_functionExpr h
      functionBody := names_functionBody h
      statement := names_statement h
      block := names_block h
      varDecl := names_varDecl h
      varStmt := names_varStmt h
      letStmt := names_letStmt h
      functionDecl := names_functionDecl h
      condition := names_condition h
      ifStmt := names_ifStmt h
      whileStmt := names_whileStmt h
      doStmt := names_doStmt h
      forTarget := names_forTarget h
      forEachStmt := names_forEachStmt h
      forInit := names_forInit h
      part := names_part h
      forStmt := names_forStmt h
      returnStmt := names_returnStmt h
      throwStmt := names_throwStmt h
      tryStmt := names_tryStmt h
      labeledStmt := names_labeledStmt h }

/-! ## Programs -/

theorem program_named (n : Nat) (c : Cursor) (hc : Cursor.At whole c) :
    ∀ v c', (program n c).result = some (v, c') → Makes (fun p => ∀ t ∈ p.body, NamedStmt t) v := by
  have hbody : Takes whole ((succeed ()).andThen fun _ =>
      (many n (statement n)).closedBy atEnd) fun vs => ∀ v ∈ vs, Makes NamedStmt v :=
    Takes.andThen (P := fun _ => True) (fun _ => Lands.succeed trivial) fun _ _ =>
      ((naming whole n).statement.many n).closedBy (.of_finds finds_atEnd)
  intro v c' h
  have hland := hbody c hc
  unfold program at h
  dsimp only at h
  generalize ((succeed ()).andThen fun _ => (many n (statement n)).closedBy atEnd) c = r at h hland
  obtain ⟨reach, _ | ⟨vs, c₁⟩⟩ := r
  · cases h
  · cases h
    exact (Makes.mapM (hland vs c' rfl).2.2).map fun _ hts => hts

/-- **All names of a program are identifiers.** -/
theorem parse_named {source : String} {p : Program} (h : parse source = .ok p) :
    ∀ t ∈ p.body, NamedStmt t := by
  have hfront : Cursor.At source.toList ⟨source.toList, {}, 1⟩ := Onward.refl _ _
  have hnamed := program_named (fuelFor source.toList) _ hfront
  unfold parse at h
  dsimp only at h
  generalize program (fuelFor source.toList) ⟨source.toList, {}, 1⟩ = r at h hnamed
  obtain ⟨reach, _ | ⟨_ | q, c'⟩⟩ := r
  · cases h
  · cases h
  · cases h
    exact hnamed _ _ rfl p rfl

end Fermata.Grammar
