import Fermata.Proofs.Name.Tree
import Fermata.Syntax.Grammar
import Mathlib.Data.List.TakeDrop

/-!
# Literals are numbered as they are read

A literal takes its number when its first word is read, so literals are numbered in the order in which
they start, whatever was tried and given up before.

`Matcher.Yields` says of a matcher at a cursor what its value is like and how many literals were
numbered when it matched. There is one rule for each way to combine matchers, so that a rule of the
grammar is reasoned about along its own text.

* `Grammar.Spells`: the tree, if there is one, has the literals between two numbers.
* `Grammar.Rules`: every rule of the grammar gives such trees.
* `Grammar.parse_numbered`: so does a whole text.
-/

namespace Fermata

namespace Matcher

variable {α β : Type} {c : Cursor} {p q : Matcher α} {T : α → Nat → Prop} {R : β → Nat → Prop}

/-- If the matcher matches at the cursor, `T` holds of its value and of the next number. -/
def Yields (p : Matcher α) (c : Cursor) (T : α → Nat → Prop) : Prop :=
  ∀ v c', (p c).result = some (v, c') → T v c'.nextFunction

namespace Yields

theorem weaken {S : α → Nat → Prop} (hp : Yields p c S) (hS : ∀ v n, S v n → T v n) :
    Yields p c T :=
  fun v c' h => hS v _ (hp v c' h)

theorem fail : Yields fail c T := fun _ _ h => nomatch h

theorem succeed {v : α} (hv : T v c.nextFunction) : Yields (succeed v) c T := by
  intro w c' h
  cases h
  exact hv

theorem map {f : α → β} (hp : Yields p c fun v n => R (f v) n) : Yields (p.map f) c R := by
  intro w c' h
  obtain ⟨⟨v, c₁⟩, hv, heq⟩ := Option.map_eq_some_iff.mp h
  cases heq
  exact hp v c' hv

theorem tight {f : α → Matcher β} (hp : Yields p c T)
    (hf : ∀ v c₁, T v c₁.nextFunction → Yields (f v) c₁ R) : Yields (p.tight f) c R := by
  intro w c' h
  unfold Matcher.tight at h
  cases hpc : p c with
  | mk reach result =>
    rw [hpc] at h
    cases result with
    | none => cases h
    | some r =>
      obtain ⟨v, c₁⟩ := r
      exact hf v c₁ (hp v c₁ (by rw [hpc])) w c' h

theorem andThen {f : α → Matcher β} (hp : Yields p c T)
    (hf : ∀ v c₁, T v c₁.nextFunction → Yields (f v) c₁ R) : Yields (p.andThen f) c R :=
  tight hp fun v c₁ hv => hf v c₁.skip hv

theorem before {q : Matcher β} (hp : Yields p c T)
    (hq : ∀ c₁ v, T v c₁.nextFunction → Yields q c₁ R) : Yields (p.before q) c R :=
  andThen hp fun v c₁ hv => hq c₁ v hv

theorem closedBy {q : Matcher β} (hp : Yields p c T)
    (hq : ∀ c₁, Yields q c₁ fun _ n => n = c₁.nextFunction) : Yields (p.closedBy q) c T := by
  refine andThen hp fun v c₁ hv => map ((hq c₁).weaken fun _ n hn => ?_)
  rw [hn]
  exact hv

theorem or (hp : Yields p c T) (hq : Yields q c T) : Yields (p.or q) c T := by
  intro v c' h
  unfold Matcher.or at h
  cases hpc : p c with
  | mk reach result =>
    rw [hpc] at h
    cases result with
    | none => exact hq v c' h
    | some r =>
      refine hp v c' ?_
      rw [hpc]
      exact h

theorem optional {T : Option α → Nat → Prop} (hp : Yields p c fun v n => T (some v) n)
    (hnone : T none c.nextFunction) : Yields (optional p) c T := by
  intro v c' h
  unfold Matcher.optional at h
  cases hpc : p c with
  | mk reach result =>
    rw [hpc] at h
    cases result with
    | none =>
      cases h
      exact hnone
    | some r =>
      cases h
      exact hp _ _ (by rw [hpc])

theorem rule {f : Span → α → β} (hp : Yields p c fun v n => ∀ span, R (f span v) n) :
    Yields (rule p f) c R := by
  intro w c' h
  unfold Matcher.rule at h
  cases hpc : p c with
  | mk reach result =>
    rw [hpc] at h
    cases result with
    | none => cases h
    | some r =>
      cases h
      exact hp _ _ (by rw [hpc]) _

/-! ## Repetition -/

/-- Values read one after the other. -/
inductive Chain (Q : Nat → α → Nat → Prop) : Nat → List α → Nat → Prop
  | nil {a} : Chain Q a [] a
  | cons {a b d v vs} : Q a v b → Chain Q b vs d → Chain Q a (v :: vs) d

variable {Q : Nat → α → Nat → Prop}

theorem more (hp : ∀ c, Yields p c (Q c.nextFunction)) (fuel : Nat) (c : Cursor) :
    Yields (more p fuel) c (Chain Q c.nextFunction) := by
  induction fuel generalizing c with
  | zero => exact succeed (v := []) .nil
  | succ fuel ih =>
    intro vs c' h
    unfold Matcher.more at h
    cases hpc : p c.skip with
    | mk reach result =>
      rw [hpc] at h
      cases result with
      | none =>
        cases h
        exact .nil
      | some r =>
        obtain ⟨v, c₁⟩ := r
        obtain ⟨⟨ws, c₂⟩, hws, heq⟩ := Option.map_eq_some_iff.mp h
        cases heq
        exact .cons (hp c.skip v c₁ (by rw [hpc])) (ih c₁ ws c' hws)

theorem many (hp : ∀ c, Yields p c (Q c.nextFunction)) (fuel : Nat) (c : Cursor) :
    Yields (many fuel p) c (Chain Q c.nextFunction) := by
  intro vs c' h
  unfold Matcher.many at h
  cases hpc : p c with
  | mk reach result =>
    rw [hpc] at h
    cases result with
    | none =>
      cases h
      exact .nil
    | some r =>
      obtain ⟨v, c₁⟩ := r
      obtain ⟨⟨ws, c₂⟩, hws, heq⟩ := Option.map_eq_some_iff.mp h
      cases heq
      exact .cons (hp c v c₁ (by rw [hpc])) (more hp fuel c₁ ws c' hws)

/-! ## Tokens -/

theorem text (piece : List Char) (c : Cursor) :
    Yields (text piece) c fun _ n => n = c.nextFunction := by
  intro v c' h
  unfold Matcher.text at h
  split at h
  · cases h
    rfl
  · cases h

theorem notNext (ch : Char) (c : Cursor) :
    Yields (notNext ch) c fun _ n => n = c.nextFunction := by
  intro v c' h
  unfold Matcher.notNext at h
  split at h
  · cases h
  · cases h
    rfl

theorem token (l : Lexeme) (c : Cursor) :
    Yields (token l) c fun t n => n = c.nextFunction ∧ ∃ rest, l c.rest = some (t.chars, rest) := by
  intro v c' h
  unfold Matcher.token at h
  split at h
  next text rest hl =>
    cases h
    exact ⟨rfl, rest, hl⟩
  next => cases h

theorem silent (l : Lexeme) (c : Cursor) : Yields (silent l) c fun _ n => n = c.nextFunction := by
  intro v c' h
  unfold Matcher.silent at h
  split at h
  · cases h
    rfl
  · cases h

end Yields

end Matcher

namespace Grammar

open Matcher

theorem yields_sym (s : String) (c : Cursor) : Yields (sym s) c fun _ n => n = c.nextFunction :=
  .text _ c

theorem yields_kw (k : String) (c : Cursor) : Yields (kw k) c fun _ n => n = c.nextFunction :=
  (Yields.token _ c).weaken fun _ _ h => h.1

theorem yields_pick {α : Type} (table : List (Lexeme × α)) (c : Cursor) :
    Yields (pick table) c fun _ n => n = c.nextFunction := by
  intro v c' h
  unfold pick at h
  induction table with
  | nil => cases h
  | cons entry rest ih =>
    obtain ⟨l, a⟩ := entry
    unfold pick.go at h
    split at h
    · cases h
      rfl
    · exact ih h

/-- A word is a name. -/
theorem isName_word {text w rest : List Char} (h : Lexeme.word text = some (w, rest)) :
    Text.isName w = true := by
  cases text with
  | nil => cases h
  | cons ch cs =>
    change (if Text.isNameStart ch = true then some ((ch :: cs).span Text.isNamePart) else none) = _
      at h
    split at h
    next hstart =>
      have hpart : Text.isNamePart ch = true := by simp [Text.isNamePart, hstart]
      have hw := congrArg Prod.fst (Option.some.inj h)
      rw [List.span_eq_takeWhile_dropWhile, List.takeWhile_cons, if_pos hpart] at hw
      obtain rfl : ch :: cs.takeWhile Text.isNamePart = w := hw
      simp only [Text.isName, hstart, Bool.true_and]
      exact List.all_takeWhile
    next => cases h

/-- Identifiers are names. -/
theorem yields_ident (c : Cursor) :
    Yields ident c fun t n => n = c.nextFunction ∧ isValidName t.text = true := by
  refine (Yields.token _ c).weaken fun t n h => ⟨h.1, ?_⟩
  obtain ⟨-, rest, hl⟩ := h
  unfold Lexeme.identifier at hl
  split at hl
  next w rest' hword =>
    split at hl
    · cases hl
    · cases hl
      unfold isValidName Token.text
      rw [String.toList_ofList]
      exact isName_word hword
  next => cases hl

theorem yields_commaList {α : Type} {p : Matcher α} {Q : Nat → α → Nat → Prop}
    (hp : ∀ c, Yields p c (Q c.nextFunction)) (fuel : Nat) (c : Cursor) :
    Yields (commaList fuel p) c (Yields.Chain Q c.nextFunction) := by
  refine (hp c).andThen fun v c₁ hv => Yields.map ?_
  refine (Yields.many (fun c => ?_) fuel c₁).weaken fun vs n hvs => .cons hv hvs
  refine (yields_sym "," c).before fun c₂ _ hn => ?_
  rw [← hn]
  exact hp c₂

theorem yields_bracketed {α : Type} {p : Matcher α} {Q : Nat → α → Nat → Prop}
    (hp : ∀ c, Yields p c (Q c.nextFunction)) (fuel : Nat) (opening closing : String) (c : Cursor) :
    Yields (bracketed fuel opening closing p) c (Yields.Chain Q c.nextFunction) := by
  refine (yields_sym opening c).andThen fun _ c₁ hn => ?_
  rw [← hn]
  refine Yields.closedBy (Yields.map (Yields.optional ?_ .nil)) (yields_sym closing)
  refine (yields_commaList hp fuel c₁).closedBy fun c₂ => Yields.optional (yields_sym "," c₂) rfl

end Grammar

namespace Grammar

open Matcher Mention Yields

/-- If there is a tree, its mentions are names, and literals numbered from `a` up to `b`. -/
def Spells {α : Type} (f : α → List Mention) (a : Nat) (v : Built α) (b : Nat) : Prop :=
  ∀ x, v = .ok x → Numbered a (f x) b

namespace Spells

variable {α β : Type} {f : α → List Mention} {g : β → List Mention} {a b : Nat}

theorem pure {x : α} (hx : Numbered a (f x) b) : Spells f a (Pure.pure x) b := by
  intro y hy
  cases hy
  exact hx

theorem refuse {cause : BuildCause} {span : Span} : Spells f a (refuse cause span) b :=
  fun _ h => nomatch h

theorem bind {v : Built α} {k : α → Built β} (hk : ∀ x, v = .ok x → Spells g a (k x) b) :
    Spells g a (v >>= k) b := by
  intro y hy
  cases v with
  | error e => cases hy
  | ok x => exact hk x rfl y hy

end Spells

theorem mapM_id_cons {α : Type} {v : Built α} {vs : List (Built α)} {xs : List α}
    (h : (v :: vs).mapM id = .ok xs) : ∃ x ys, v = .ok x ∧ vs.mapM id = .ok ys ∧ xs = x :: ys := by
  rw [List.mapM_cons] at h
  cases v with
  | error e => cases h
  | ok x =>
    cases hvs : vs.mapM id with
    | error e =>
      rw [hvs] at h
      cases h
    | ok ys =>
      rw [hvs] at h
      cases h
      exact ⟨x, ys, rfl, rfl, rfl⟩

/-- Trees read one after the other. -/
theorem numbered_chain {α : Type} {f : α → List Mention} {a b : Nat} {vs : List (Built α)}
    (h : Chain (Spells f) a vs b) {xs : List α} (hxs : vs.mapM id = .ok xs) :
    Numbered a (xs.flatMap f) b := by
  induction h generalizing xs with
  | nil =>
    cases hxs
    exact .nil
  | cons hv _ ih =>
    obtain ⟨x, ys, hx, hys, rfl⟩ := mapM_id_cons hxs
    rw [List.flatMap_cons]
    exact (hv x hx).append (ih hys)

theorem ofExprs_eq (es : List Expr) : ofExprs es = es.flatMap ofExpr := by
  induction es with
  | nil => rw [ofExprs, List.flatMap_nil]
  | cons e es ih => rw [ofExprs, List.flatMap_cons, ih]

theorem ofProperties_eq (ps : List PropertyDef) :
    ofProperties ps = ps.flatMap fun p => ofExpr p.value := by
  induction ps with
  | nil => rw [ofProperties, List.flatMap_nil]
  | cons p ps ih =>
    obtain ⟨key, value, span⟩ := p
    rw [ofProperties, List.flatMap_cons, ih]

theorem ofStmts_eq (bare : Bool) (ts : List Stmt) : ofStmts bare ts = ts.flatMap (ofStmt bare) := by
  induction ts with
  | nil => rw [ofStmts, List.flatMap_nil]
  | cons t ts ih => rw [ofStmts, List.flatMap_cons, ih]

/-- The mentions of one declaration. -/
def ofDecl (bare : Bool) (d : VarDecl) : List Mention := ofDecls bare [d]

theorem ofDecls_eq (bare : Bool) (ds : List VarDecl) :
    ofDecls bare ds = ds.flatMap (ofDecl bare) := by
  induction ds with
  | nil => rw [ofDecls, List.flatMap_nil]
  | cons d ds ih =>
    obtain ⟨x, init, span⟩ := d
    rw [List.flatMap_cons, ← ih]
    cases init <;> simp [ofDecl, ofDecls]

/-- A statement spells the same literals at the top level and in a function. -/
def SpellsBoth {α : Type} (f : Bool → α → List Mention) (a : Nat) (v : Built α) (b : Nat) : Prop :=
  ∀ bare, Spells (f bare) a v b

theorem numbered_chain_both {α : Type} {f : Bool → α → List Mention} {a b : Nat}
    {vs : List (Built α)} (h : Chain (SpellsBoth f) a vs b) (bare : Bool) {xs : List α}
    (hxs : vs.mapM id = .ok xs) : Numbered a (xs.flatMap (f bare)) b := by
  have hone : Chain (Spells (f bare)) a vs b := by
    clear hxs
    induction h with
    | nil => exact .nil
    | cons hv _ ih => exact .cons (hv bare) ih
  exact numbered_chain hone hxs

/-- The literals of a suffix. -/
def SpellsSuffix (a : Nat) : Suffix → Nat → Prop
  | .arguments _ args, b => Chain (Spells ofExpr) a args b
  | .named .., b => b = a
  | .computed _ key, b => Spells ofExpr a key b

theorem spells_suffix {e : Expr} {s : Suffix} {a b d : Nat} (he : Numbered a (ofExpr e) b)
    (hs : SpellsSuffix b s d) : Spells ofExpr a (s.apply e) d := by
  cases s with
  | arguments span args =>
    refine Spells.bind fun es hes => Spells.pure ?_
    rw [ofExpr, ofExprs_eq]
    exact he.append (numbered_chain hs hes)
  | named span name =>
    obtain rfl : d = b := hs
    refine Spells.pure ?_
    rw [ofExpr, ofKey, List.append_nil]
    exact he
  | computed span key =>
    refine Spells.bind fun k hk => Spells.pure ?_
    rw [ofExpr, ofKey]
    exact he.append (hs k hk)

theorem spells_chain {base : Built Expr} {ss : List Suffix} {a b d : Nat}
    (hbase : Spells ofExpr a base b) (h : Chain SpellsSuffix b ss d) :
    Spells ofExpr a (chain base ss) d := by
  refine Spells.bind fun e he => ?_
  have hnum := hbase e he
  clear hbase he
  induction h generalizing e with
  | nil => exact Spells.pure hnum
  | cons hs _ ih =>
    rw [List.foldlM_cons]
    exact Spells.bind fun e' he' => ih e' (spells_suffix hnum hs e' he')

/-- Operators do not matter to what their operands spell. -/
theorem spells_groupLeft {first : Built Expr} {rest : List (Operator × Built Expr)} {a b d : Nat}
    (hfirst : Spells ofExpr a first b)
    (h : Chain (fun n (v : Operator × Built Expr) m => Spells ofExpr n v.2 m) b rest d) :
    Spells ofExpr a (groupLeft first rest) d := by
  refine Spells.bind fun e he => ?_
  have hnum := hfirst e he
  clear hfirst he
  induction h generalizing e with
  | nil => exact Spells.pure hnum
  | @cons _ _ _ v _ hv _ ih =>
    obtain ⟨op, right⟩ := v
    rw [List.foldlM_cons]
    refine Spells.bind fun e' he' => ih e' ?_
    cases right with
    | error => cases he'
    | ok r =>
      cases he'
      have hboth := hnum.append (hv r rfl)
      cases op <;> simpa only [Operator.node, ofExpr] using hboth

theorem spells_assignNode {op : AssignOp} {target value : Built Expr} {span : Span} {a b d : Nat}
    (ht : Spells ofExpr a target b) (hv : Spells ofExpr b value d) :
    Spells ofExpr a (assignNode op target value span) d := by
  refine Spells.bind fun t htarget => ?_
  split
  · refine Spells.bind fun v hvalue => Spells.pure ?_
    rw [ofExpr]
    exact (ht t htarget).append (hv v hvalue)
  · exact Spells.refuse

theorem spells_updateNode {op : UpdateOp} {before : Bool} {target : Built Expr} {span : Span}
    {a b : Nat} (ht : Spells ofExpr a target b) :
    Spells ofExpr a (updateNode op before target span) b := by
  refine Spells.bind fun t htarget => ?_
  split
  · refine Spells.pure ?_
    rw [ofExpr]
    exact ht t htarget
  · exact Spells.refuse

/-! ## Rules -/

/-- Expressions at a cursor. -/
abbrev ReadsExpr (p : Matcher (Built Expr)) : Prop :=
  ∀ c, Yields p c (Spells ofExpr c.nextFunction)

/-- Statements at a cursor. -/
abbrev ReadsStmt (p : Matcher (Built Stmt)) : Prop :=
  ∀ c, Yields p c (SpellsBoth ofStmt c.nextFunction)

/-- What was already matched here is an expression. -/
def Head.Fits (head : Head) (c : Cursor) : Prop :=
  ∀ reply, head = some reply → ∀ v c', reply.result = some (v, c') →
    Spells ofExpr c.nextFunction v c'.nextFunction

theorem Head.fits_none (c : Cursor) : Head.Fits none c := fun _ h => nomatch h

/-- Every rule of the grammar, at one depth. -/
structure Rules (n : Nat) : Prop where
  expression : ReadsExpr (expression n)
  assignment : ReadsExpr (assignment n)
  conditional : ∀ head c, Head.Fits head c →
    Yields (conditional n head) c (Spells ofExpr c.nextFunction)
  level : ∀ ops head c, Head.Fits head c →
    Yields (level n ops head) c (Spells ofExpr c.nextFunction)
  exponent : ∀ head c, Head.Fits head c → Yields (exponent n head) c (Spells ofExpr c.nextFunction)
  unary : ∀ head c, Head.Fits head c → Yields (unary n head) c (Spells ofExpr c.nextFunction)
  updated : ∀ head c, Head.Fits head c → Yields (updated n head) c (Spells ofExpr c.nextFunction)
  lhsExpr : ReadsExpr (lhsExpr n)
  newExpr : ReadsExpr (newExpr n)
  memberChain : ReadsExpr (memberChain n)
  arguments : ∀ c, Yields (arguments n) c (SpellsSuffix c.nextFunction)
  arguments_only : ∀ c, Yields (Grammar.arguments n) c fun s _ => ∃ span args, s = .arguments span args
  indexMember : ∀ c, Yields (indexMember n) c (SpellsSuffix c.nextFunction)
  primary : ReadsExpr (primary n)
  property : ∀ c, Yields (property n) c
    (Spells (fun p : PropertyDef => ofExpr p.value) c.nextFunction)
  functionExpr : ReadsExpr (functionExpr n)
  functionBody : ∀ c, Yields (functionBody n) c (SpellsBoth ofStmts c.nextFunction)
  statement : ReadsStmt (statement n)
  block : ReadsStmt (block n)
  varDecl : ∀ c, Yields (varDecl n) c (SpellsBoth ofDecl c.nextFunction)
  varStmt : ReadsStmt (varStmt n)
  letStmt : ReadsStmt (letStmt n)
  functionDecl : ReadsStmt (functionDecl n)
  condition : ReadsExpr (condition n)
  ifStmt : ReadsStmt (ifStmt n)
  whileStmt : ReadsStmt (whileStmt n)
  doStmt : ReadsStmt (doStmt n)
  forTarget : ∀ c, Yields (forTarget n) c (Spells ofTarget c.nextFunction)
  forEachStmt : ReadsStmt (forEachStmt n)
  forInit : ∀ c, Yields (forInit n) c
    (SpellsBoth (fun bare i => ofInit bare (some i)) c.nextFunction)
  part : ReadsExpr (part n)
  forStmt : ReadsStmt (forStmt n)
  returnStmt : ReadsStmt (returnStmt n)
  throwStmt : ReadsStmt (throwStmt n)
  tryStmt : ReadsStmt (tryStmt n)
  labeledStmt : ReadsStmt (labeledStmt n)

end Grammar

end Fermata
