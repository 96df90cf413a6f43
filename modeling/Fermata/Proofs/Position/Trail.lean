import Fermata.Proofs.Position.Level
import Mathlib.Data.List.Forall2

/-!
# Trails

The trail of an activation are the nodes of its body whose evaluation has begun and has not ended, innermost
first. A node begins when the machine comes to it, and ends when what follows it gets its value or a
transfer of control. At most one continuation waits for each node (`Trail.Fits`), so the number of
continuations tells which nodes have ended.

The frame only knows the node that began last. Wherever a value can be waited for, this one lies within the
innermost node of the trail (`Activation.Traced`), and within a call in each of the callers
(`Activation.Calling`).

* `Machine.trails`: what a step makes of the trails.
* `Machine.Traced`: trails and continuations fit.
* `Machine.Traced.step`: a step keeps it so.
-/

namespace Fermata

open Act

/-! ## Sites -/

namespace Code

variable {c n : Code} {k : Cont}

/-- Where the evaluation of a node stands under its continuation: in the member while a call reads the
member that it calls, and in the node itself otherwise. -/
def site (c : Code) (ks : List Cont) : Code :=
  match c, ks with
  | .expr (.call span f args), k :: _ =>
    if k.level = .member then .expr f else .expr (.call span f args)
  | c, _ => c

@[simp]
theorem site_nil (c : Code) : c.site [] = c := by
  unfold site
  split
  · contradiction
  · rfl

theorem site_of_ne (hk : k.level ≠ .member) : c.site [k] = c := by
  unfold site
  split
  · rename_i heq
    cases heq
    rw [if_neg hk]
  · rfl

theorem site_of_member {span : Span} {f : Expr} {args : List Expr} (hk : k.level = .member) :
    (Code.expr (.call span f args)).site [k] = .expr f :=
  if_pos hk

theorem site_within (c : Code) (ks : List Cont) : (c.site ks).Within c := by
  unfold site
  split
  · split
    · exact .of_mem (List.mem_map_of_mem List.mem_cons_self)
    · exact .refl _
  · exact .refl _

theorem node_of_site {ks : List Cont} (h : Level.node.At (c.site ks)) : Level.node.At c := by
  cases c with
  | expr | stmt => trivial
  | body => exact h

/-- An expression is made of expressions. -/
theorem Within.exists_expr {e : Expr} (h : n.Within (.expr e)) : ∃ e', n = .expr e' := by
  induction h using Relation.ReflTransGen.head_induction_on with
  | refl => exact ⟨e, rfl⟩
  | head hn _ ih =>
    obtain ⟨e', rfl⟩ := ih
    obtain ⟨e'', -, rfl⟩ := List.mem_map.mp hn
    exact ⟨e'', rfl⟩

theorem expr_of_site {ks : List Cont} {e : Expr} (h : c.site ks = .expr e) : Level.expr.At c := by
  cases c with
  | expr => trivial
  | _ => cases h

theorem expr_at (h : Level.expr.At c) : ∃ e, c = .expr e := by
  cases c with
  | expr e => exact ⟨e, rfl⟩
  | _ => exact h.elim

theorem call_at (h : Level.call.At c) : ∃ e, c = .expr e ∧ e.Invokes := by
  cases c with
  | expr e => exact ⟨e, rfl, h⟩
  | _ => exact h.elim

/-- Owners do not matter for what is within. -/
theorem in_parts {os : List Owner} (h : k.In c.parts os) : k.In c.parts [] := by
  cases k with
  | memberTarget key use =>
    cases use with
    | refer _ use => cases use <;> exact h
    | _ => exact h
  | memberKey target use =>
    cases use with
    | refer _ use => cases use <;> exact h
    | _ => exact h
  | declare name rest after => cases after <;> exact h
  | _ => exact h

end Code

/-- The frame stands at a node of this code. -/
def Frame.Marks (f : Frame) (c : Code) : Prop := ∃ n : Code, n.Within c ∧ n.span? = some f.location

theorem Frame.Marks.mono {f : Frame} {c d : Code} (h : f.Marks c) (hc : c.Within d) : f.Marks d := by
  obtain ⟨n, hn, hspan⟩ := h
  exact ⟨n, hn.trans hc, hspan⟩

/-! ## Continuations and moves that suit a node -/

/-- The continuation can wait for this node. -/
structure Cont.Suits (k : Cont) (c : Code) : Prop where
  inside : k.In c.parts []
  level : k.level.At c
  /-- What waits for the object of a member that is called has the key of that member. -/
  member : ∀ key use, k = .memberTarget key use → k.level = .member →
    ∃ σ τ o i args, c = .expr (.call σ (.member τ o key i) args)

/-- This can come next while evaluation stands there. -/
def Control.Suits : Control → Code → Prop
  | .eval e, c => (Code.expr e).Within c ∧ Level.node.At c
  | .exec t _, c => (Code.stmt t).Within c
  | .checkpoint _, c | .waiting _, c => Level.expr.At c
  | .value _, _ | .abrupt _, _ => True

/-- Nothing begins, and no transfer of control is under way. -/
def Control.Rests : Control → Prop
  | .value _ | .checkpoint _ | .waiting _ => True
  | .eval _ | .exec .. | .abrupt _ => False

/-- The move suits the node that an activation with this frame evaluates. -/
def Move.Suits (f : Frame) (c : Code) : Move → Prop
  | .go push control => (push = [] ∨ ∃ k, push = [k] ∧ k.Suits c) ∧ control.Suits (c.site push) ∧
      (control.Rests → Level.expr.At c → f.Marks (c.site push))
  | .linked g _ => f.Same g ∧ g.location = f.location ∧ Level.expr.At c ∧ f.Marks c
  | .enter push a control => (push = [] ∨ ∃ k, push = [k] ∧ k.Suits c ∧ k.level ≠ .member) ∧
      Level.call.At c ∧ f.Marks c ∧ a.AtStart control ∧ Atlas.bodies.Opens a control

section Suits

variable {c : Code} {f : Frame} {m : Move} {k : Cont} {s : Site} {core : Core} {v : Value}

theorem Cont.Suits.of_open {os : List Owner} (hin : k.In c.parts os) (h : Level.Open c k.level) :
    k.Suits c :=
  ⟨Code.in_parts hin, h.1, fun _ _ _ hlevel => absurd hlevel h.2⟩

/-- Away from members that are called, levels and places are enough. -/
theorem Move.Suits.of_needs (hneeds : m.Needs (Level.Open c) f)
    (hallows : Atlas.bodies.Allows c.parts [] f m) (hmarks : Level.expr.At c → f.Marks c) :
    m.Suits f c := by
  have hpushed : ∀ {push : List Cont}, (push = [] ∨ ∃ k, push = [k] ∧ Level.Open c k.level) →
      Cont.AllIn c.parts [] push →
      c.site push = c ∧ (push = [] ∨ ∃ k, push = [k] ∧ k.Suits c ∧ k.level ≠ .member) := by
    rintro push (rfl | ⟨k, rfl, hk⟩) hin
    · exact ⟨Code.site_nil c, .inl rfl⟩
    · exact ⟨Code.site_of_ne hk.2, .inr ⟨k, rfl, .of_open hin.1 hk, hk.2⟩⟩
  cases m with
  | go push control =>
    obtain ⟨hsite, hpush⟩ := hpushed hneeds.1 hallows.1
    refine ⟨hpush.imp_right fun ⟨k, hk, hsuits, _⟩ => ⟨k, hk, hsuits⟩, ?_, fun _ hexpr => ?_⟩
    · rw [hsite]
      cases control with
      | eval e => exact ⟨hallows.2, hneeds.2.1⟩
      | exec => exact hallows.2
      | checkpoint | waiting => exact hneeds.2.1
      | value | abrupt => trivial
    · rw [hsite]
      exact hmarks hexpr
  | linked g v => exact ⟨hallows, hneeds.2, hneeds.1.1, hmarks hneeds.1.1⟩
  | enter push a control =>
    obtain ⟨-, hpush⟩ := hpushed hneeds.1 hallows.1
    have hcall := hneeds.2.1.1
    exact ⟨hpush, hcall, hmarks ((Level.grants_at c).call hcall), hneeds.2.2, hallows.2⟩

/-- What an act gives, on the one hand and on the other. -/
theorem Act.suits_of_needs {p : Act Move} {K : Core → Prop} {S : Abrupt → Prop} (hK : K core)
    (hneeds : Needs (Level.Open c) f p) (hallows : Ends K p (Atlas.bodies.Allows c.parts [] f) S)
    (hmarks : Level.expr.At c → f.Marks c) {d : Core} (hok : p core = .ok m d) : m.Suits f c := by
  have hmeets := hallows core hK
  rw [hok] at hmeets
  cases hmeets with
  | ok hm => exact .of_needs (hneeds core m d hok) hm hmarks

/-- Only the use as a callee belongs to a member that is called. -/
theorem MemberUse.eq_callee {use : MemberUse} (h : use.level = .member) :
    ∃ implicit args, use = .callee implicit args := by
  cases use with
  | callee implicit args => exact ⟨implicit, args, rfl⟩
  | refer _ use => cases use <;> cases h
  | _ => cases h

/-- An expression begins with what suits it. -/
theorem Act.startExpr_suits (hcore : Atlas.bodies.Covers core) {e : Expr} {d : Core}
    (hmarks : s.frame.Marks (.expr e)) (hok : startExpr s e core = .ok m d) :
    m.Suits s.frame (.expr e) := by
  have hallows : Ends Atlas.bodies.Covers (startExpr s e)
      (Atlas.bodies.Allows (Code.expr e).parts [] s.frame) Abrupt.IsFailure :=
    Atlas.startExpr (fun _ h => h) (.refl _)
  by_cases hlevel : e.level = .member
  · obtain ⟨σ, τ, o, key, i, args, rfl⟩ :
        ∃ σ τ o key i args, e = .call σ (.member τ o key i) args := by
      cases e with
      | call σ callee args =>
        cases callee with
        | member τ o key i => exact ⟨σ, τ, o, key, i, args, rfl⟩
        | _ => cases hlevel
      | _ => cases hlevel
    have hmeets := hallows core hcore
    rw [hok] at hmeets
    cases hok
    cases hmeets with
    | ok hm =>
      refine ⟨.inr ⟨_, rfl, hm.1.1, trivial, ?_⟩, ⟨?_, trivial⟩, False.elim⟩
      · rintro _ _ ⟨⟩ -
        exact ⟨σ, τ, o, i, args, rfl⟩
      · rw [Code.site_of_member rfl]
        exact .of_mem (List.mem_map_of_mem List.mem_cons_self)
  · have hat : e.level.At (.expr e) := by
      cases e with
      | call σ callee args => cases callee <;> trivial
      | _ => trivial
    have hneeds : Needs (Level.Open (.expr e)) s.frame (startExpr s e) :=
      startExpr_needs (Level.grants_open _) ⟨hat, hlevel⟩
    exact suits_of_needs hcore hneeds hallows (fun _ => hmarks) hok

/-- So does a statement. -/
theorem Act.startStmt_suits {t : Stmt} {labels : List String} {d : Core}
    (hok : startStmt s t labels core = .ok m d) : m.Suits s.frame (.stmt t) := by
  have hallows : Ends (fun _ => True) (startStmt s t labels)
      (Atlas.bodies.Allows (Code.stmt t).parts [] s.frame) ((Code.stmt t).parts.jump []) :=
    Atlas.startStmt (Code.Within.refl _)
  exact suits_of_needs trivial (startStmt_needs (Level.grants_open (.stmt t)) ⟨trivial, nofun⟩ t labels) hallows
    False.elim hok

/-- A call goes on in the member that it calls until the member is read. -/
theorem Act.receive_member (hk : k.Suits c) (hnext : k.demand = .member)
    (hmarks : f.Marks (c.site [k])) : Moves (Move.Suits f c) (receive s k v) := by
  have hlevel : k.level = .member := by
    cases k <;> first | exact hnext | cases hnext
  have hcall : Level.member.At c := hlevel ▸ hk.level
  obtain ⟨σ, callee, args', rfl⟩ : ∃ σ callee args, c = .expr (.call σ callee args) := by
    cases c with
    | expr e =>
      cases e with
      | call σ callee args => exact ⟨σ, callee, args, rfl⟩
      | _ => exact hcall.elim
    | _ => exact hcall.elim
  rw [Code.site_of_member hlevel] at hmarks
  have hread : ∀ {i args}, (∀ e ∈ args, (Code.expr e).Within (.expr (.call σ callee args'))) →
      ∀ target key, Moves (Move.Suits f (.expr (.call σ callee args')))
        (useMember s (.callee i args) target key) := by
    intro i args hargs target key
    refine .bind fun w => .pure ⟨.inr ⟨_, rfl, hargs, trivial, fun _ _ h => nomatch h⟩, ?_, fun _ _ => ?_⟩
    · rw [Code.site_of_member rfl]
      trivial
    · rw [Code.site_of_member rfl]
      exact hmarks
  cases k with
  | memberTarget key use =>
    obtain ⟨i, args, rfl⟩ := MemberUse.eq_callee hlevel
    obtain ⟨_, τ, o, j, _, heq⟩ := hk.member key _ rfl hlevel
    cases heq
    cases key with
    | named name => exact hread hk.inside.2 _ _
    | computed e =>
      refine .pure ⟨.inr ⟨_, rfl, hk.inside.2, trivial, fun _ _ h => nomatch h⟩, ⟨?_, ?_⟩, False.elim⟩
      · rw [Code.site_of_member rfl]
        exact .of_mem (List.mem_map_of_mem (List.mem_cons_of_mem _ List.mem_cons_self))
      · rw [Code.site_of_member rfl]
        trivial
  | memberKey target use =>
    obtain ⟨i, args, rfl⟩ := MemberUse.eq_callee hlevel
    exact .bind fun key => hread hk.inside _ _
  | element use => cases use <;> cases hnext
  | _ => cases hnext

/-- **A continuation goes on with what suits the node that it waited for.** -/
theorem Act.receive_suits (hcore : Atlas.bodies.Covers core) (hk : k.Suits c) {d : Core}
    (hmarks : Level.expr.At c → s.frame.Marks (c.site [k])) (hok : receive s k v core = .ok m d) :
    m.Suits s.frame c := by
  by_cases hnext : k.demand = .member
  · have hexpr : Level.expr.At c := by
      have hlevel : Level.member.At c := by
        rw [show Level.member = k.level by cases k <;> first | exact hnext.symm | cases hnext]
        exact hk.level
      exact (Level.grants_at c).call ((Level.grants_at c).member hlevel)
    exact receive_member hk hnext (hmarks hexpr) core m d hok
  · have hallows : Ends Atlas.bodies.Covers (receive s k v) (Atlas.bodies.Allows c.parts [] s.frame)
        (c.parts.jump []) :=
      Atlas.receive (fun _ h => h) hk.inside v
    have hat : k.demand.At c := by
      cases k with
      | method => exact (Level.grants_at c).member hk.level
      | _ => exact hk.level
    have hneeds : Needs (Level.Open c) s.frame (receive s k v) :=
      receive_needs (Level.grants_open c) ⟨hat, hnext⟩ v
    exact suits_of_needs hcore hneeds hallows
      (fun hexpr => (hmarks hexpr).mono (c.site_within [k])) hok

/-- **So does a continuation that stops a transfer of control.** -/
theorem Act.intercept_suits (hk : k.Suits c) {x : Abrupt} {d : Core}
    (hok : intercept s k x core = .ok m d) : m.Suits s.frame c := by
  by_cases hlevel : k.level = .stmt
  · have hstmt : Level.stmt.At c := hlevel ▸ hk.level
    have hallows : Ends (fun _ => True) (intercept s k x) (Atlas.bodies.Allows c.parts [] s.frame)
        (c.parts.jump []) :=
      Atlas.intercept hk.inside trivial
    refine suits_of_needs trivial (intercept_needs (Level.grants_open c) (fun _ => ⟨hstmt, nofun⟩) x)
      hallows (fun hexpr => ?_) hok
    obtain ⟨e, rfl⟩ := Code.expr_at hexpr
    exact hstmt.elim
  · cases k with
    | loopBody | labeled => exact absurd rfl hlevel
    | _ => cases hok

end Suits

/-! ## Trails -/

/-- A node whose evaluation has begun, and how many continuations there were. -/
structure Begun where
  code : Code
  base : Nat

/-- The nodes of an activation whose evaluation has begun, innermost first. -/
abbrev Trail := List Begun

namespace Trail

/-- The innermost node, or else the body. -/
def inner (body : List Stmt) : Trail → Code
  | [] => .body body
  | b :: _ => b.code

/-- How many continuations there were when it began. -/
def base : Trail → Nat
  | [] => 0
  | b :: _ => b.base

/-- The innermost statement. -/
def stmt? : Trail → Option Stmt
  | [] => none
  | ⟨.stmt t, _⟩ :: _ => some t
  | _ :: T => stmt? T

/-- Where the evaluation stands. -/
def site (body : List Stmt) (T : Trail) (ks : List Cont) : Code :=
  (T.inner body).site (ks.take (ks.length - T.base))

/-- The nodes that have not ended when something is handed to the continuations. -/
def left (T : Trail) (ks : List Cont) : Trail := T.dropWhile fun b => ks.length ≤ b.base

/-- The trail belongs to the continuations of an activation: each node lies where the evaluation stood when
it began, and for each of them, and for the body, waits at most one continuation. -/
inductive Fits (body : List Stmt) : Trail → List Cont → Prop
  | empty : Fits body [] []
  | begin {T ks n} : Fits body T ks → n.Within (T.site body ks) → Level.node.At n →
      ((∃ e, n = .expr e) → Level.node.At (T.inner body)) → Fits body (⟨n, ks.length⟩ :: T) ks
  | wait {T ks k} : Fits body T ks → T.base = ks.length → k.Suits (T.inner body) →
      Fits body T (k :: ks)

variable {body : List Stmt} {T : Trail} {ks : List Cont} {k : Cont}

theorem site_append (body : List Stmt) (h : T.base = ks.length) (push : List Cont) :
    T.site body (push ++ ks) = (T.inner body).site push := by
  unfold site
  rw [h, List.length_append, Nat.add_sub_cancel, List.take_left]

theorem site_of_base (h : T.base = ks.length) : T.site body ks = T.inner body := by
  have hsite := site_append body h []
  rwa [Code.site_nil] at hsite

theorem Fits.push (h : Fits body T ks) (hbase : T.base = ks.length) {push : List Cont}
    (hpush : push = [] ∨ ∃ k, push = [k] ∧ k.Suits (T.inner body)) : Fits body T (push ++ ks) := by
  obtain rfl | ⟨k, rfl, hk⟩ := hpush
  · exact h
  · exact .wait h hbase hk

/-- **What the top continuation gets something for** is the innermost node that has not ended. -/
theorem Fits.ended (h : Fits body T (k :: ks)) :
    Fits body (T.left (k :: ks)) ks ∧ (T.left (k :: ks)).base = ks.length ∧
      k.Suits ((T.left (k :: ks)).inner body) ∧
      (T.site body (k :: ks)).Within (((T.left (k :: ks)).inner body).site [k]) := by
  generalize hks : k :: ks = ls at h
  induction h with
  | empty => cases hks
  | @begin T ls n hfits hn _ _ ih =>
    subst hks
    obtain ⟨hfits', hbase, hk, hsite⟩ := ih rfl
    have hleft : left (⟨n, (k :: ks).length⟩ :: T) (k :: ks) = T.left (k :: ks) :=
      List.dropWhile_cons_of_pos (decide_eq_true (Nat.le_refl _))
    rw [hleft]
    refine ⟨hfits', hbase, hk, ?_⟩
    rw [site_of_base rfl]
    exact hn.trans hsite
  | @wait T ls k' hfits hbase hk _ =>
    cases hks
    have hleft : T.left (k :: ks) = T := by
      cases T with
      | nil => rfl
      | cons b T =>
        refine List.dropWhile_cons_of_neg ?_
        rw [decide_eq_true_eq, show b.base = ks.length from hbase]
        exact Nat.not_succ_le_self _
    rw [hleft]
    refine ⟨hfits, hbase, hk, ?_⟩
    rw [show k :: ks = [k] ++ ks from rfl, site_append body hbase]
    exact .refl _

/-- The nodes of a trail lie in each other: an expression in a statement, and both in the body. -/
theorem Fits.nested (h : Fits body T ks) : (T.inner body).Within (.body body) ∧
    ∀ e, T.inner body = .expr e → ∃ t, T.stmt? = some t ∧ (Code.expr e).Within (.stmt t) ∧
      (Code.stmt t).Within (.body body) := by
  induction h with
  | empty => exact ⟨.refl _, nofun⟩
  | @begin T ks n hfits hn _ hnode ih =>
    obtain ⟨hinner, hstmt⟩ := ih
    have hin : n.Within (T.inner body) := hn.trans (Code.site_within _ _)
    refine ⟨hin.trans hinner, ?_⟩
    rintro e rfl
    have hT := hnode ⟨e, rfl⟩
    rcases T with _ | ⟨⟨c, b⟩, T⟩
    · exact hT.elim
    · cases c with
      | expr e' =>
        obtain ⟨t, ht, he', hbody⟩ := hstmt e' rfl
        exact ⟨t, ht, hin.trans he', hbody⟩
      | stmt t => exact ⟨t, rfl, hin, hinner⟩
      | body => exact hT.elim
  | wait _ _ _ ih => exact ih

end Trail

/-! ## Trails of a machine -/

/-- The trail after the machine came to this, with these continuations. -/
def Trail.after (T : Trail) (ks : List Cont) : Control → Trail
  | .eval e => ⟨.expr e, ks.length⟩ :: T
  | .exec t _ => ⟨.stmt t, ks.length⟩ :: T
  | .value _ | .abrupt _ => T.left ks
  | .checkpoint _ | .waiting _ => T

/-- The trails of so many activations: what is entered begins with an empty trail, and the trail of what is
left is dropped. -/
def Trail.onto (n : Nat) (Ts : List Trail) : List Trail :=
  List.replicate (n - Ts.length) [] ++ Ts.drop (Ts.length - n)

/-- The trails after a step to another machine. -/
def Machine.trails (m m' : Machine) (Ts : List Trail) : List Trail :=
  Trail.onto m'.stack.length <|
    match m.stack, Ts with
    | a :: _, T :: Us => T.after a.conts m.control :: Us
    | _, _ => Ts

namespace Trail

variable {T : Trail} {Ts : List Trail}

theorem onto_length (Ts : List Trail) : onto Ts.length Ts = Ts := by
  unfold onto
  rw [Nat.sub_self]
  rfl

theorem onto_succ (Ts : List Trail) : onto (Ts.length + 1) Ts = [] :: Ts := by
  unfold onto
  rw [Nat.add_sub_cancel_left, Nat.sub_eq_zero_of_le (Nat.le_succ _)]
  rfl

theorem onto_tail (T : Trail) (Ts : List Trail) : onto Ts.length (T :: Ts) = Ts := by
  unfold onto
  rw [List.length_cons, Nat.sub_eq_zero_of_le (Nat.le_succ _), Nat.add_sub_cancel_left]
  rfl

end Trail

/-- A node of the trail stands where the innermost activation is. -/
structure Activation.Traced (a : Activation) (T : Trail) (control : Control) : Prop where
  fits : T.Fits a.body a.conts
  named : a.frame.Named
  next : control.Suits (T.site a.body a.conts)
  marked : control.Rests → Level.expr.At (T.inner a.body) → a.frame.Marks (T.site a.body a.conts)

/-- The activation evaluates a call and waits for it. -/
structure Activation.Calling (a : Activation) (T : Trail) : Prop where
  fits : T.Fits a.body a.conts
  named : a.frame.Named
  call : Level.call.At (T.inner a.body)
  site : T.site a.body a.conts = T.inner a.body
  marked : a.frame.Marks (T.inner a.body)

/-- These are trails of the activations of the machine. -/
inductive Machine.Traced : Machine → List Trail → Prop
  | ended (control) : Traced ⟨control, []⟩ []
  | live {control a callers T Us} : a.Traced T control → List.Forall₂ Activation.Calling callers Us →
      Traced ⟨control, a :: callers⟩ (T :: Us)

section Traced

variable {a : Activation} {callers : List Activation} {T : Trail} {Us Ts : List Trail} {m m' : Machine}
  {c c' : Core} {control : Control} {p : PendingId}

/-- An activation that has been called back goes on with the value of the call, or leaves it. -/
theorem Activation.Calling.back (h : a.Calling T) (hcontrol : control.level = .any)
    (hexec : ∀ t labels, control ≠ .exec t labels) : a.Traced T control where
  fits := h.fits
  named := h.named
  next := by
    cases control with
    | value | abrupt => trivial
    | exec t labels => exact absurd rfl (hexec t labels)
    | _ => cases hcontrol
  marked _ _ := h.site ▸ h.marked

theorem Activation.body_linked {g : Frame} (h : a.frame.Same g) :
    ({ a with frame := g } : Activation).body = a.body := by
  obtain ⟨f, boundary, conts⟩ := a
  cases boundary <;> simp only [body, h.unit, h.record]

/-- What is entered begins its body. -/
theorem Activation.traced_start (hstart : a.AtStart control) (hopens : Atlas.bodies.Opens a control) :
    a.Traced [] control := by
  unfold Atlas.Opens at hopens
  rw [Atlas.parts_bodies] at hopens
  obtain ⟨hconts, hcontrol⟩ := hopens
  obtain ⟨body, hks, rfl⟩ := hstart.body
  have hnode : Trail.inner a.body [] = .body a.body := rfl
  have hfits : Trail.Fits a.body [] a.conts := by
    rw [hks] at hconts ⊢
    cases body with
    | nil => exact .empty
    | cons t rest => exact .wait .empty rfl ⟨hconts.1, trivial, fun _ _ h => nomatch h⟩
  refine ⟨hfits, hstart.named, ?_, fun _ h => h.elim⟩
  cases body with
  | nil => trivial
  | cons t rest =>
    have hsite : Trail.site a.body [] a.conts = .body a.body := by
      rw [hks]
      rfl
    rw [hsite]
    exact hcontrol

/-- **A move that suits the innermost node** leads to activations with trails. -/
theorem Machine.Traced.apply {move : Move} (hfits : T.Fits a.body a.conts)
    (hbase : T.base = a.conts.length) (hnamed : a.frame.Named)
    (hcallers : List.Forall₂ Activation.Calling callers Us)
    (hmove : move.Suits a.frame (T.inner a.body)) :
    (Machine.apply a callers move).Traced
      (Trail.onto (Machine.apply a callers move).stack.length (T :: Us)) := by
  have hlength := hcallers.length_eq
  cases move with
  | go push control =>
    rw [show (Machine.apply a callers (.go push control)).stack.length = (T :: Us).length by
      simp [Machine.apply, hlength], Trail.onto_length]
    refine .live ⟨hfits.push hbase hmove.1, hnamed, ?_, fun hrests hexpr => ?_⟩ hcallers
    · exact (Trail.site_append a.body hbase push).symm ▸ hmove.2.1
    · exact (Trail.site_append a.body hbase push).symm ▸ hmove.2.2 hrests hexpr
  | linked g v =>
    obtain ⟨hsame, hlocation, hexpr, hmarked⟩ := hmove
    rw [show (Machine.apply a callers (.linked g v)).stack.length = (T :: Us).length by
      simp [Machine.apply, hlength], Trail.onto_length]
    have hbody := Activation.body_linked hsame
    have hsite : T.site a.body a.conts = T.inner a.body := Trail.site_of_base hbase
    refine .live ⟨?_, ?_, ?_, fun _ _ => ?_⟩ hcallers
    · rw [hbody]
      exact hfits
    · obtain ⟨r, hr, hname⟩ := hnamed
      exact ⟨r, by rw [hsame.unit, hsame.record]; exact hr, hsame.name.trans hname⟩
    · rw [hbody]
      exact hsite.symm ▸ hexpr
    · rw [hbody, show T.site a.body a.conts = T.inner a.body from hsite]
      unfold Frame.Marks at hmarked ⊢
      rw [hlocation]
      exact hmarked
  | enter push inner control =>
    obtain ⟨hpush, hcall, hmarked, hstart, hopens⟩ := hmove
    rw [show (Machine.apply a callers (.enter push inner control)).stack.length = (T :: Us).length + 1 by
      simp [Machine.apply, hlength], Trail.onto_succ]
    have hsite : (T.inner a.body).site push = T.inner a.body := by
      obtain rfl | ⟨k, rfl, -, hk⟩ := hpush
      · exact Code.site_nil _
      · exact Code.site_of_ne hk
    have hsuits : push = [] ∨ ∃ k, push = [k] ∧ k.Suits (T.inner a.body) :=
      hpush.imp_right fun ⟨k, hk, hk', _⟩ => ⟨k, hk, hk'⟩
    refine .live (Activation.traced_start hstart hopens) (.cons ⟨?_, hnamed, hcall, ?_, hmarked⟩ hcallers)
    · exact hfits.push hbase hsuits
    · exact (Trail.site_append a.body hbase push).trans hsite

/-- Whatever comes of an act that gives only such moves. -/
theorem Machine.Traced.perform {act : Act Move} (hfits : T.Fits a.body a.conts)
    (hbase : T.base = a.conts.length) (hnamed : a.frame.Named)
    (hcallers : List.Forall₂ Activation.Calling callers Us)
    (hact : ∀ move d, act c = .ok move d → move.Suits a.frame (T.inner a.body))
    (hstep : Machine.perform a callers act c = (.running m', c')) :
    m'.Traced (Trail.onto m'.stack.length (T :: Us)) := by
  unfold Machine.perform at hstep
  cases hr : act c with
  | ok move d =>
    rw [hr] at hstep
    cases hstep
    exact .apply hfits hbase hnamed hcallers (hact move _ hr)
  | error x d =>
    rw [hr] at hstep
    cases hstep
    rw [show (a :: callers).length = (T :: Us).length by simp [hcallers.length_eq], Trail.onto_length]
    exact .live ⟨hfits, hnamed, trivial, False.elim⟩ hcallers

/-- When the body of an activation has ended, its caller goes on. -/
theorem Machine.Traced.close (hcallers : List.Forall₂ Activation.Calling callers Us) (b : Boundary)
    (end_ : Outcome) :
    Machine.Traced ⟨Machine.close b end_, callers⟩ (Trail.onto callers.length (T :: Us)) := by
  rw [hcallers.length_eq, Trail.onto_tail]
  cases hcallers with
  | nil => exact .ended _
  | cons hb hrest =>
    refine .live (hb.back ?_ ?_) hrest
    · unfold Machine.close
      split <;> rfl
    · intro t labels
      unfold Machine.close
      split <;> exact nofun

/-- **A step keeps trails and continuations together.** -/
theorem Machine.Traced.step (hcore : Atlas.bodies.Covers c) (h : m.Traced Ts)
    (hstep : m.step c = (.running m', c')) : m'.Traced (m.trails m' Ts) := by
  cases h with
  | ended control => cases control <;> cases hstep
  | @live control a callers T Us ha hcallers =>
    unfold Machine.step at hstep
    change m'.Traced (Trail.onto m'.stack.length (T.after a.conts control :: Us))
    cases control with
    | eval e =>
      have hnode : Level.node.At (T.inner a.body) := Code.node_of_site ha.next.2
      refine .perform (a := a.mark e.span) ?_ rfl ha.named hcallers (fun move d hok => ?_) hstep
      · exact .begin ha.fits ha.next.1 trivial fun _ => hnode
      · exact Act.startExpr_suits hcore ⟨_, .refl _, rfl⟩ hok
    | exec t labels =>
      refine .perform (a := a.mark t.span) ?_ rfl ha.named hcallers (fun move d hok => ?_) hstep
      · exact .begin ha.fits ha.next trivial fun ⟨_, he⟩ => nomatch he
      · exact Act.startStmt_suits hok
    | waiting p => cases hstep
    | checkpoint v =>
      have hsame : ∀ control, a.Traced T control →
          Machine.Traced ⟨control, a :: callers⟩ (Trail.onto (a :: callers).length (T :: Us)) := by
        intro control hcontrol
        rw [show (a :: callers).length = (T :: Us).length by simp [hcallers.length_eq],
          Trail.onto_length]
        exact .live hcontrol hcallers
      have hpass := Atlas.pass_ends v c trivial
      dsimp only at hstep
      generalize Act.pass v c = r at hpass hstep
      cases hpass with
      | ok hgo =>
        rcases hgo with ⟨p, -, rfl⟩ | ⟨w, rfl⟩ | ⟨w, rfl⟩ <;> cases hstep
        · exact hsame _ ⟨ha.fits, ha.named, ha.next, ha.marked⟩
        · exact hsame _ ⟨ha.fits, ha.named, trivial, ha.marked⟩
      | error _ =>
        cases hstep
        exact hsame _ ⟨ha.fits, ha.named, trivial, False.elim⟩
    | value v =>
      obtain ⟨frame, boundary, conts⟩ := a
      cases conts with
      | nil =>
        cases hstep
        exact .close hcallers _ _
      | cons k conts =>
        obtain ⟨hfits, hbase, hk, hsite⟩ := ha.fits.ended
        refine .perform (a := ⟨frame, boundary, conts⟩) hfits hbase ha.named hcallers
          (fun move d hok => Act.receive_suits hcore hk (fun hexpr => ?_) hok) hstep
        have hwithin := hsite.trans (Code.site_within _ _)
        obtain ⟨e, he⟩ := Code.expr_at hexpr
        rw [he] at hwithin
        obtain ⟨e', he'⟩ := hwithin.exists_expr
        exact (ha.marked trivial (Code.expr_of_site he')).mono hsite
    | abrupt x =>
      obtain ⟨frame, boundary, conts⟩ := a
      cases conts with
      | nil =>
        cases hstep
        exact .close hcallers _ _
      | cons k conts =>
        obtain ⟨hfits, hbase, hk, -⟩ := ha.fits.ended
        exact .perform (a := ⟨frame, boundary, conts⟩) hfits hbase ha.named hcallers
          (fun move d hok => Act.intercept_suits hk hok) hstep

/-- A machine that stands has the trails that it had, and its innermost activation evaluates an
expression. -/
theorem Machine.Traced.parked (h : m.Traced Ts) (hstep : m.step c = (.parked m' p, c')) :
    m'.Traced Ts ∧ m'.control = .waiting p ∧ m'.stack ≠ [] := by
  cases h with
  | ended control => cases control <;> cases hstep
  | @live control a callers T Us ha hcallers =>
    unfold Machine.step at hstep
    cases control with
    | eval | exec =>
      dsimp only [Machine.perform] at hstep
      split at hstep <;> cases hstep
    | value | abrupt =>
      obtain ⟨frame, boundary, conts⟩ := a
      cases conts with
      | nil => cases hstep
      | cons k conts =>
        dsimp only [Machine.perform] at hstep
        split at hstep <;> cases hstep
    | waiting q =>
      cases hstep
      exact ⟨.live ha hcallers, rfl, nofun⟩
    | checkpoint v =>
      have hpass := Atlas.pass_ends v c trivial
      dsimp only at hstep
      generalize Act.pass v c = r at hpass hstep
      cases hpass with
      | ok hgo =>
        rcases hgo with ⟨q, -, rfl⟩ | ⟨w, rfl⟩ | ⟨w, rfl⟩ <;> cases hstep
        exact ⟨.live ⟨ha.fits, ha.named, ha.next, ha.marked⟩ hcallers, rfl, nofun⟩
      | error _ => cases hstep

/-- A machine that goes on with a settlement has the same trails. -/
theorem Machine.Traced.resume (h : m.Traced Ts) (hcontrol : m.control = .waiting p) (s : Settlement) :
    Machine.Traced { m with control := s.control } Ts := by
  cases h with
  | ended control => exact .ended _
  | @live control a callers T Us ha hcallers =>
    obtain rfl : control = .waiting p := hcontrol
    cases s with
    | fulfilled v => exact .live ⟨ha.fits, ha.named, ha.next, ha.marked⟩ hcallers
    | rejected reason => exact .live ⟨ha.fits, ha.named, trivial, False.elim⟩ hcallers

end Traced

end Fermata
