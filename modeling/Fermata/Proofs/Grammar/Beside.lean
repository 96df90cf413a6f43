import Fermata.Proofs.Grammar.Closing
import Fermata.Proofs.Tree.Bare

/-!
# The same text in two places

A text that goes up to a closing parenthesis is read on its own and as a part of a longer one, where other
literals were numbered before. Two cursors in the two texts are beside each other (`Cursor.Beside`) when
the same is left up to that parenthesis, and two replies agree (`Matcher.Agree`) when both failed, or both
matched with like values and left cursors that are beside each other again. There is one rule for each way
to combine matchers.
-/

namespace Fermata

/-- The second cursor reads what the first one reads, up to the closing parenthesis, behind which the
second text goes on with `s`; `δ` more literals were numbered, and `d` more parentheses are open. -/
structure Cursor.Beside (s : List Char) (δ d : Nat) (c k : Cursor) : Prop where
  rest : k.rest = c.rest ++ s
  next : k.nextFunction = c.nextFunction + δ
  closes : Closes d c.rest

variable {s : List Char} {δ d e n m : Nat} {c k : Cursor}

namespace Cursor.Beside

theorem skip (h : c.Beside s δ d k) : c.skip.Beside s δ d k.skip := by
  have hleft := @skipFrom_closes d s .between .between c.rest rfl h.closes c.pos k.pos
  refine ⟨?_, h.next, hleft.closes⟩
  rw [Cursor.skip, h.rest]
  exact hleft.append

theorem length_skip (h : c.Beside s δ d k) : c.skip.rest.length ≤ c.rest.length :=
  Nat.le_of_lt_succ (@skipFrom_closes d s .between .between c.rest rfl h.closes c.pos
    c.pos).length_lt

/-- A literal that is read at both cursors takes the next number at each. -/
theorem numbered (h : c.Beside s δ d k) :
    Cursor.Beside s δ d { c with nextFunction := c.nextFunction + 1 }
      { k with nextFunction := k.nextFunction + 1 } :=
  ⟨h.rest, by simp only [h.next, Nat.add_right_comm], h.closes⟩

/-- The first cursor has something left. -/
theorem rest_ne (h : c.Beside s δ d k) : c.rest ≠ [] := by
  intro hnil
  exact not_closes_nil (hnil ▸ h.closes)

end Cursor.Beside

namespace Matcher

variable {α β γ γ' : Type} {R : α → β → Prop}

/-- Both replies are failures, or both are successes that are like each other, with less than `n`
characters left up to the closing parenthesis. -/
inductive Agree (s : List Char) (δ d n : Nat) (R : α → β → Prop) : Reply α → Reply β → Prop
  | fail {reach reach'} : Agree s δ d n R ⟨reach, none⟩ ⟨reach', none⟩
  | found {reach reach' v w c k} : R v w → c.Beside s δ d k → c.rest.length < n →
      Agree s δ d n R ⟨reach, some (v, c)⟩ ⟨reach', some (w, k)⟩

namespace Agree

variable {T : γ → γ' → Prop} {x : Reply α} {y : Reply β} {p : Matcher α} {q : Matcher β}

theorem weaken {S : α → β → Prop} (h : Agree s δ d n R x y) (hRS : ∀ v w, R v w → S v w) :
    Agree s δ d n S x y := by
  cases h with
  | fail => exact .fail
  | found hv hck hlt => exact .found (hRS _ _ hv) hck hlt

theorem widen (h : Agree s δ d n R x y) (reach reach' : Position) :
    Agree s δ d n R (x.widen reach) (y.widen reach') := by
  cases h with
  | fail => exact .fail
  | found hv hck hlt => exact .found hv hck hlt

theorem map {f : α → γ} {g : β → γ'} (h : Agree s δ d n R (p c) (q k))
    (hfg : ∀ v w, R v w → T (f v) (g w)) : Agree s δ d n T (p.map f c) (q.map g k) := by
  unfold Matcher.map
  generalize p c = x, q k = y at h
  cases h with
  | fail => exact .fail
  | found hv hck hlt => exact .found (hfg _ _ hv) hck hlt

theorem tight {f : α → Matcher γ} {g : β → Matcher γ'} (h : Agree s δ d n R (p c) (q k))
    (hfg : ∀ v w c k, R v w → c.Beside s δ d k → c.rest.length < n →
      Agree s δ e m T (f v c) (g w k)) : Agree s δ e m T (p.tight f c) (q.tight g k) := by
  unfold Matcher.tight
  generalize p c = x, q k = y at h
  cases h with
  | fail => exact .fail
  | found hv hck hlt => exact (hfg _ _ _ _ hv hck hlt).widen _ _

theorem andThen {f : α → Matcher γ} {g : β → Matcher γ'} (h : Agree s δ d n R (p c) (q k))
    (hfg : ∀ v w c k, R v w → c.Beside s δ d k → c.rest.length < n →
      Agree s δ e m T (f v c) (g w k)) : Agree s δ e m T (p.andThen f c) (q.andThen g k) :=
  tight h fun v w _ _ hv hck hlt =>
    hfg v w _ _ hv hck.skip (Nat.lt_of_le_of_lt hck.length_skip hlt)

theorem before {p' : Matcher γ} {q' : Matcher γ'} (h : Agree s δ d n R (p c) (q k))
    (h' : ∀ c k, c.Beside s δ d k → c.rest.length < n → Agree s δ e m T (p' c) (q' k)) :
    Agree s δ e m T (p.before p' c) (q.before q' k) :=
  andThen h fun _ _ c k _ => h' c k

theorem closedBy {p' : Matcher γ} {q' : Matcher γ'} (h : Agree s δ d n R (p c) (q k))
    (h' : ∀ c k, c.Beside s δ d k → c.rest.length < n → Agree s δ e m T (p' c) (q' k)) :
    Agree s δ e m R (p.closedBy p' c) (q.closedBy q' k) :=
  andThen h fun _ _ c k hv hck hlt => map (h' c k hck hlt) fun _ _ _ => hv

theorem or {p' : Matcher α} {q' : Matcher β} (h : Agree s δ d n R (p c) (q k))
    (h' : Agree s δ d n R (p' c) (q' k)) : Agree s δ d n R (p.or p' c) (q.or q' k) := by
  unfold Matcher.or
  generalize p c = x, q k = y at h
  cases h with
  | fail => exact h'.widen _ _
  | found hv hck hlt => exact .found hv hck hlt

theorem firstOf_cons {ps : List (Matcher α)} {qs : List (Matcher β)}
    (h : Agree s δ d n R (p c) (q k)) (h' : Agree s δ d n R (firstOf ps c) (firstOf qs k)) :
    Agree s δ d n R (firstOf (p :: ps) c) (firstOf (q :: qs) k) :=
  h.or h'

theorem optional {T : Option α → Option β → Prop}
    (h : Agree s δ d n (fun v w => T (some v) (some w)) (p c) (q k)) (hnone : T none none)
    (hck : c.Beside s δ d k) (hn : c.rest.length < n) :
    Agree s δ d n T (optional p c) (optional q k) := by
  unfold Matcher.optional
  generalize p c = x, q k = y at h
  cases h with
  | fail => exact .found hnone hck hn
  | found hv hck hlt => exact .found hv hck hlt

theorem rule {f : Span → α → γ} {g : Span → β → γ'} (h : Agree s δ d n R (p c) (q k))
    (hfg : ∀ v w, R v w → ∀ σ τ, T (f σ v) (g τ w)) :
    Agree s δ d n T (rule p f c) (rule q g k) := by
  unfold Matcher.rule
  generalize p c = x, q k = y at h
  cases h with
  | fail => exact .fail
  | found hv hck hlt => exact .found (hfg _ _ hv _ _) hck hlt

/-! ## Repetition -/

/-- Enough rounds are allowed for one character each. -/
theorem more {L : Nat} (h : ∀ c k, c.Beside s δ d k → c.rest.length ≤ L →
      Agree s δ d c.rest.length R (p c) (q k)) (fuel fuel' : Nat) (hL : c.rest.length ≤ L)
    (hfuel : c.rest.length < fuel) (hfuel' : c.rest.length < fuel') (hck : c.Beside s δ d k)
    (hn : c.rest.length < n) :
    Agree s δ d n (List.Forall₂ R) (more p fuel c) (more q fuel' k) := by
  induction fuel generalizing fuel' c k with
  | zero => exact absurd hfuel (Nat.not_lt_zero _)
  | succ fuel ih =>
    cases fuel' with
    | zero => exact absurd hfuel' (Nat.not_lt_zero _)
    | succ fuel' =>
      have hskip := hck.length_skip
      have hone := h c.skip k.skip hck.skip (Nat.le_trans hskip hL)
      unfold Matcher.more
      generalize p c.skip = x, q k.skip = y at hone
      cases hone with
      | fail => exact .found .nil hck hn
      | @found reach reach' v w c₁ k₁ hv hck₁ hlt =>
        have hrest := ih (c := c₁) (k := k₁) fuel' (by omega) (by omega) (by omega) hck₁ (by omega)
        dsimp only
        generalize Matcher.more p fuel c₁ = x, Matcher.more q fuel' k₁ = y at hrest
        cases hrest with
        | fail => exact .fail
        | found hvs hck₂ hlt₂ => exact .found (.cons hv hvs) hck₂ hlt₂

theorem many (h : ∀ c' k', c'.Beside s δ d k' → c'.rest.length ≤ c.rest.length →
      Agree s δ d c'.rest.length R (p c') (q k')) {fuel fuel' : Nat}
    (hfuel : c.rest.length ≤ fuel) (hfuel' : c.rest.length ≤ fuel') (hck : c.Beside s δ d k)
    (hn : c.rest.length < n) :
    Agree s δ d n (List.Forall₂ R) (many fuel p c) (many fuel' q k) := by
  have hone := h c k hck (Nat.le_refl _)
  unfold Matcher.many
  generalize p c = x, q k = y at hone
  cases hone with
  | fail => exact .found .nil hck hn
  | @found reach reach' v w c₁ k₁ hv hck₁ hlt =>
    have hrest := more (n := n) h fuel fuel' (by omega) (by omega) (by omega) hck₁ (by omega)
    dsimp only
    generalize Matcher.more p fuel c₁ = x, Matcher.more q fuel' k₁ = y at hrest
    cases hrest with
    | fail => exact .fail
    | found hvs hck₂ hlt₂ => exact .found (.cons hv hvs) hck₂ hlt₂

/-! ## Tokens -/

/-- The same characters. -/
def SameToken (t u : Token) : Prop := t.chars = u.chars

theorem token {l : Lexeme} (hl : l.Stays) (hck : c.Beside s δ d k) (hn : c.rest.length ≤ n) :
    Agree s δ d n SameToken (token l c) (token l k) := by
  have hboth := hl s d c.rest hck.closes
  unfold Matcher.token
  rw [hck.rest]
  generalize l c.rest = a, l (c.rest ++ s) = b at hboth
  cases hboth with
  | none => exact .fail
  | some hleft =>
    exact .found rfl ⟨hleft.append, hck.next, hleft.closes⟩ (Nat.lt_of_lt_of_le hleft.length_lt hn)

theorem silent {l : Lexeme} (hl : l.Stays) (hck : c.Beside s δ d k) (hn : c.rest.length ≤ n) :
    Agree s δ d n (fun _ _ => True) (silent l c) (silent l k) := by
  have hboth := hl s d c.rest hck.closes
  unfold Matcher.silent
  rw [hck.rest]
  generalize l c.rest = a, l (c.rest ++ s) = b at hboth
  cases hboth with
  | none => exact .fail
  | some hleft =>
    exact .found trivial ⟨hleft.append, hck.next, hleft.closes⟩
      (Nat.lt_of_lt_of_le hleft.length_lt hn)

theorem notNext (ch : Char) (hck : c.Beside s δ d k) (hn : c.rest.length < n) :
    Agree s δ d n (fun _ _ => True) (notNext ch c) (notNext ch k) := by
  have hhead : k.rest.head? = c.rest.head? := by
    obtain ⟨x, xs, hrest⟩ := List.exists_cons_of_ne_nil hck.rest_ne
    rw [hck.rest, hrest]
    rfl
  unfold Matcher.notNext
  rw [hhead]
  split
  · exact .fail
  · exact .found trivial hck hn

end Agree

end Matcher

namespace Grammar

open Matcher

/-- A piece of text that opens or closes no parenthesis. -/
theorem agree_sym {piece : String} (hpiece : piece.toList.all isPlain = true)
    (hne : piece.toList ≠ []) (hck : c.Beside s δ d k) (hn : c.rest.length ≤ n) :
    Agree s δ d n (fun _ _ => True) (sym piece c) (sym piece k) := by
  obtain ⟨happend, hleft⟩ := Lexeme.strip?_closes hpiece hck.closes s
  have hpos := List.length_pos_iff.mpr hne
  unfold sym Matcher.text
  rw [hck.rest, happend]
  cases hstrip : strip? piece.toList c.rest with
  | none => exact .fail
  | some r =>
    obtain ⟨hcloses, hlength⟩ := hleft r hstrip
    have hlt : r.length < n := by omega
    exact .found trivial ⟨rfl, hck.next, hcloses⟩ hlt

/-- One character, and what it does to the open parentheses. -/
theorem agree_char {piece : String} {ch : Char} (hpiece : piece.toList = [ch])
    (hcloses : ∀ cs, Closes d (ch :: cs) → Closes e cs) (hck : c.Beside s δ d k)
    (hn : c.rest.length ≤ n) :
    Agree s δ e n (fun _ _ => True) (sym piece c) (sym piece k) := by
  have hall := hck.closes
  unfold sym Matcher.text
  rw [hck.rest, hpiece]
  generalize c.rest = rest at hall hn
  cases rest with
  | nil => exact absurd hall not_closes_nil
  | cons x xs =>
    rw [List.cons_append, strip?, strip?, strip?, strip?]
    by_cases heq : ch = x
    · subst heq
      rw [if_pos rfl, if_pos rfl]
      exact .found trivial ⟨rfl, hck.next, hcloses xs hall⟩ hn
    · rw [if_neg heq, if_neg heq]
      exact .fail

theorem agree_open (hck : c.Beside s δ d k) (hn : c.rest.length ≤ n) :
    Agree s δ (d + 1) n (fun _ _ => True) (sym "(" c) (sym "(" k) :=
  agree_char rfl (fun _ => closes_cons_open.mp) hck hn

theorem agree_close (hck : c.Beside s δ (d + 1) k) (hn : c.rest.length ≤ n) :
    Agree s δ d n (fun _ _ => True) (sym ")" c) (sym ")" k) :=
  agree_char rfl (fun _ => closes_cons_close.mp) hck hn

theorem agree_kw (word : String) (hck : c.Beside s δ d k) (hn : c.rest.length ≤ n) :
    Agree s δ d n Agree.SameToken (kw word c) (kw word k) :=
  .token (Lexeme.keyword_stays word) hck hn

theorem agree_ident (hck : c.Beside s δ d k) (hn : c.rest.length ≤ n) :
    Agree s δ d n Agree.SameToken (ident c) (ident k) :=
  .token Lexeme.identifier_stays hck hn

theorem agree_pick {α : Type} {table : List (Lexeme × α)} (htable : StayAll table)
    (hck : c.Beside s δ d k) (hn : c.rest.length ≤ n) :
    Agree s δ d n (· = ·) (pick table c) (pick table k) := by
  unfold pick
  induction table with
  | nil => exact .fail
  | cons entry rest ih =>
    obtain ⟨l, a⟩ := entry
    have hboth := htable _ List.mem_cons_self s d c.rest hck.closes
    have hrest := ih fun e he => htable e (List.mem_cons_of_mem _ he)
    unfold pick.go
    rw [hck.rest]
    dsimp only at hboth
    generalize l c.rest = a, l (c.rest ++ s) = b at hboth
    cases hboth with
    | none => exact hrest
    | some hleft =>
      exact .found rfl ⟨hleft.append, hck.next, hleft.closes⟩
        (Nat.lt_of_lt_of_le hleft.length_lt hn)

end Grammar

end Fermata

/-!
## The same trees

Two readings of one text give the same tree up to places, and with literals numbered later, or both are
refused (`Grammar.Same`). What the grammar makes of such trees is the same again.
-/

namespace Fermata.Grammar

/-- Both have no tree, or their trees are the same without places. -/
inductive Same {α γ : Type} (f : Nat → α → γ) (δ : Nat) : Built α → Built α → Prop
  | refused {x y} : Same f δ (.error x) (.error y)
  | built {x y} : f δ x = f 0 y → Same f δ (.ok x) (.ok y)

variable {δ : Nat}

namespace Same

variable {α β γ γ' : Type} {f : Nat → α → γ} {g : Nat → β → γ'} {v w : Built α}

theorem pure {x y : α} (h : f δ x = f 0 y) : Same f δ (Pure.pure x) (Pure.pure y) := .built h

theorem bind {F G : α → Built β} (h : Same f δ v w)
    (hFG : ∀ x y, f δ x = f 0 y → Same g δ (F x) (G y)) : Same g δ (v >>= F) (w >>= G) := by
  cases h with
  | refused => exact .refused
  | built h => exact hFG _ _ h

theorem weaken {f' : Nat → α → γ'} (h : Same f δ v w)
    (hf : ∀ x y, f δ x = f 0 y → f' δ x = f' 0 y) : Same f' δ v w := by
  cases h with
  | refused => exact .refused
  | built h => exact .built (hf _ _ h)

theorem mapM {vs ws : List (Built α)} (h : List.Forall₂ (Same f δ) vs ws) :
    Same (fun δ => List.map (f δ)) δ (vs.mapM id) (ws.mapM id) := by
  induction h with
  | nil => exact .built rfl
  | cons hv _ ih =>
    rw [List.mapM_cons, List.mapM_cons]
    refine bind hv fun x y hxy => bind ih fun xs ys hs => pure ?_
    rw [List.map_cons, List.map_cons, hxy, hs]

theorem option {v w : Option (Built α)} (h : Option.Rel (Same f δ) v w) :
    Same (fun δ => Option.map (f δ)) δ (v.mapM id) (w.mapM id) := by
  cases h with
  | none => exact .built rfl
  | some hv => exact bind hv fun x y hxy => pure (congrArg some hxy)

end Same

/-- Two suffixes with the same trees. -/
inductive SameSuffix (δ : Nat) : Suffix → Suffix → Prop
  | arguments {σ τ vs ws} : List.Forall₂ (Same Expr.bare δ) vs ws →
      SameSuffix δ (.arguments σ vs) (.arguments τ ws)
  | named {σ τ name} : SameSuffix δ (.named σ name) (.named τ name)
  | computed {σ τ v w} : Same Expr.bare δ v w → SameSuffix δ (.computed σ v) (.computed τ w)

theorem same_apply {x y : Expr} {a b : Suffix} (h : x.bare δ = y.bare 0) (hab : SameSuffix δ a b) :
    Same Expr.bare δ (a.apply x) (b.apply y) := by
  cases hab with
  | arguments hvs =>
    refine Same.bind (Same.mapM hvs) fun xs ys hs => Same.pure ?_
    rw [Expr.bare, Expr.bare, Expr.bares_eq_map, Expr.bares_eq_map, h, hs]
  | named =>
    refine .built ?_
    rw [Expr.bare, Expr.bare, MemberKey.bare, MemberKey.bare, h]
  | computed hv =>
    refine Same.bind hv fun x' y' hkey => Same.pure ?_
    rw [Expr.bare, Expr.bare, MemberKey.bare, MemberKey.bare, h, hkey]

theorem same_chain {v w : Built Expr} {as bs : List Suffix} (h : Same Expr.bare δ v w)
    (hsuffixes : List.Forall₂ (SameSuffix δ) as bs) : Same Expr.bare δ (chain v as) (chain w bs) := by
  refine Same.bind h fun x y hxy => ?_
  clear h
  induction hsuffixes generalizing x y with
  | nil => exact Same.pure hxy
  | cons hab _ ih =>
    rw [List.foldlM_cons, List.foldlM_cons]
    exact Same.bind (same_apply hxy hab) fun x' y' hxy' => ih x' y' hxy'

theorem same_node {l l' r r' : Expr} (op : Operator) (hl : l.bare δ = l'.bare 0)
    (hr : r.bare δ = r'.bare 0) : (op.node l r).bare δ = (op.node l' r').bare 0 := by
  cases op <;> rw [Operator.node, Operator.node, Expr.bare, Expr.bare, hl, hr]

/-- An operator and its right operand. -/
def SamePair (δ : Nat) (a b : Operator × Built Expr) : Prop := a.1 = b.1 ∧ Same Expr.bare δ a.2 b.2

theorem same_groupLeft {v w : Built Expr} {as bs : List (Operator × Built Expr)}
    (h : Same Expr.bare δ v w) (hrest : List.Forall₂ (SamePair δ) as bs) :
    Same Expr.bare δ (groupLeft v as) (groupLeft w bs) := by
  refine Same.bind h fun x y hxy => ?_
  clear h
  induction hrest generalizing x y with
  | nil => exact Same.pure hxy
  | @cons a b _ _ hab _ ih =>
    obtain ⟨op, right⟩ := a
    obtain ⟨op', right'⟩ := b
    obtain ⟨rfl, hright⟩ : op = op' ∧ Same Expr.bare δ right right' := hab
    rw [List.foldlM_cons, List.foldlM_cons]
    refine Same.bind (Same.bind hright fun r r' hr => Same.pure ?_) fun x' y' hxy' => ih x' y' hxy'
    exact same_node op hxy hr

theorem same_assignNode {target target' value value' : Built Expr} (op : AssignOp) (σ τ : Span)
    (htarget : Same Expr.bare δ target target') (hvalue : Same Expr.bare δ value value') :
    Same Expr.bare δ (assignNode op target value σ) (assignNode op target' value' τ) := by
  refine Same.bind htarget fun x y hxy => ?_
  have hassignable : x.isAssignable = y.isAssignable := by
    rw [← Expr.bare_isAssignable x, hxy, Expr.bare_isAssignable]
  rw [hassignable]
  split
  · refine Same.bind hvalue fun x' y' hxy' => Same.pure ?_
    rw [Expr.bare, Expr.bare, hxy, hxy']
  · exact Same.refused

theorem same_updateNode {target target' : Built Expr} (op : UpdateOp) (before : Bool) (σ τ : Span)
    (htarget : Same Expr.bare δ target target') :
    Same Expr.bare δ (updateNode op before target σ) (updateNode op before target' τ) := by
  refine Same.bind htarget fun x y hxy => ?_
  have hassignable : x.isAssignable = y.isAssignable := by
    rw [← Expr.bare_isAssignable x, hxy, Expr.bare_isAssignable]
  rw [hassignable]
  split
  · refine Same.pure ?_
    rw [Expr.bare, Expr.bare, hxy]
  · exact Same.refused

/-- The value of a number does not depend on where it stands. -/
theorem same_numberValue {t u : Token} (h : t.chars = u.chars) (σ τ : Span) :
    Same (fun _ => id) δ (numberValue t σ) (numberValue u τ) := by
  unfold numberValue
  rw [h]
  split
  · exact .built rfl
  · exact .refused

end Fermata.Grammar
