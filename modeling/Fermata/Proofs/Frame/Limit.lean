import Fermata.Proofs.Frame.Depth
import Fermata.Proofs.Frame.Invocation

/-!
# Calls at the greatest depth

A machine is about to make an invocation when a continuation has the last value that it needs for a
call. In every other step its stack stays as high as it is, or an activation is closed.

* `Machine.invocation?`: the invocation that a machine is about to make.
* `Machine.step_invocation`, `Machine.step_stays`: invocations are what makes a stack grow.
* `Session.depth_limited`: the limit, for every state of every evaluation of every session.
-/

namespace Fermata

open Act

/-- The invocation that a machine is about to make. -/
def Machine.invocation? (m : Machine) (c : Core) : Option Invocation :=
  match m.control, m.stack with
  | .value v, ⟨f, _, k :: _⟩ :: _ =>
    match k with
    | .constructed args =>
      match v with
      | .function id => some (.construct id args)
      | _ => none
    | .element (.call callee this) before [] =>
      Invocation.ofCall? c f.scope callee this (v :: before).reverse
    | .callee [] => Invocation.ofCall? c f.scope v .undefined []
    | .method receiver [] => Invocation.ofCall? c f.scope v receiver []
    | _ => none
  | _, _ => none

/-! ## Steps -/

namespace Act

variable {s : Site}

theorem give_stays (v : Value) : Act.Stays (give v) := .go _ _

theorem evalFor_stays (k : Cont) (e : Expr) : Act.Stays (evalFor k e) := .go _ _

theorem yields_stays (v : Value) : Act.Stays (yields v) := .go _ _

theorem useReference_stays (use : ReferenceUse) (ref : Reference) :
    Act.Stays (useReference s use ref) := by
  unfold useReference
  split
  · exact .bind fun _ => .go _ _
  · exact evalFor_stays _ _
  · exact .bind fun _ => .go _ _
  · exact .bind fun _ => .go _ _
  · split
    · exact .bind fun _ => give_stays _
    · exact give_stays _
  · exact .bind fun _ => .go _ _

theorem useMember_stays (use : MemberUse) (target : Value) (key : String) :
    Act.Stays (useMember s use target key) := by
  unfold useMember
  split
  · exact .bind fun _ => give_stays _
  · exact .bind fun _ => .go _ _
  · refine .bind fun _ => ?_
    split
    · exact give_stays _
    · exact evalFor_stays _ _
  · exact useReference_stays _ _

theorem startKey_stays (use : MemberUse) (target : Value) (key : MemberKey) :
    Act.Stays (startKey s use target key) := by
  cases key with
  | named name => exact useMember_stays _ _ _
  | computed e => exact evalFor_stays _ _

theorem startReference_stays (use : ReferenceUse) (target : Expr) :
    Act.Stays (startReference s use target) := by
  unfold startReference
  split
  · exact useReference_stays _ _
  · exact evalFor_stays _ _
  · exact .raise _ _

/-- A list that is not the arguments of a call. -/
theorem startList_stays (use : ListUse) (huse : ∀ callee this, use ≠ .call callee this)
    (before : List Value) (es : List Expr) : Act.Stays (startList s use before es) := by
  cases es with
  | cons e rest => exact evalFor_stays _ _
  | nil =>
    unfold startList useList
    cases use with
    | array => exact .bind fun _ => give_stays _
    | call callee this => exact absurd rfl (huse callee this)
    | construct callee => exact evalFor_stays _ _

theorem startProperties_stays (object : ObjectId) (ps : List PropertyDef) :
    Act.Stays (startProperties object ps) := by
  cases ps with
  | nil => exact give_stays _
  | cons p rest => exact evalFor_stays _ _

theorem startSequence_stays (last : Value) (es : List Expr) : Act.Stays (startSequence last es) := by
  cases es with
  | nil => exact give_stays _
  | cons e rest => exact evalFor_stays _ _

theorem startDelete_stays (arg : Expr) : Act.Stays (startDelete s arg) := by
  unfold startDelete
  split
  · exact startReference_stays _ _
  · exact give_stays _
  · exact evalFor_stays _ _

theorem startTypeOf_stays (arg : Expr) : Act.Stays (startTypeOf arg) := by
  unfold startTypeOf
  split <;> exact evalFor_stays _ _

theorem startExpr_stays (e : Expr) : Act.Stays (startExpr s e) := by
  unfold startExpr
  split
  case h_5 => exact startList_stays .array nofun _ _
  case h_6 => exact .bind fun _ => startProperties_stays _ _
  case h_7 | h_8 => exact .bind fun _ => give_stays _
  case h_9 => exact .bind fun _ => .linked _ _
  case h_13 => exact startList_stays (.construct _) nofun _ _
  case h_14 => exact startTypeOf_stays _
  case h_15 => exact startDelete_stays _
  case h_18 | h_21 => exact startReference_stays _ _
  case h_23 => exact startSequence_stays _ _
  all_goals first
    | exact give_stays _
    | exact evalFor_stays _ _

theorem assign_stays (ref : Reference) (v : Value) : Act.Stays (assign s ref v) :=
  .bind fun _ => give_stays _

theorem round_stays (l : Loop) : Act.Stays (l.round s) := by
  unfold Loop.round
  split
  case h_6 =>
    dsimp only
    split
    · exact .bind fun _ => .go _ _
    · exact startReference_stays _ _
  case h_1 | h_3 => exact evalFor_stays _ _
  all_goals exact .go _ _

theorem afterBody_stays (l : Loop) : Act.Stays (l.afterBody s) := by
  unfold Loop.afterBody
  split
  · exact evalFor_stays _ _
  · exact evalFor_stays _ _
  · exact round_stays _

theorem afterTest_stays (l : Loop) (v : Value) : Act.Stays (l.afterTest s v) := by
  unfold Loop.afterTest
  split
  · exact yields_stays _
  · split
    · exact round_stays _
    · exact .go _ _

theorem startDeclarations_stays (after : DeclareEnd) (ds : List VarDecl) :
    Act.Stays (startDeclarations s after ds) := by
  induction ds with
  | nil =>
    unfold startDeclarations afterDeclarations
    cases after with
    | done => exact yields_stays _
    | loop l => exact round_stays _
  | cons d rest ih =>
    unfold startDeclarations
    split
    · exact evalFor_stays _ _
    · exact ih

theorem startStatements_stays (last : Value) (ts : List Stmt) :
    Act.Stays (startStatements last ts) := by
  cases ts with
  | nil => exact yields_stays _
  | cons t rest => exact .go _ _

theorem startFor_stays (init : Option ForInit) (l : Loop) : Act.Stays (startFor s init l) := by
  unfold startFor
  split
  · exact startDeclarations_stays _ _
  · exact evalFor_stays _ _
  · exact round_stays _

theorem startStmt_stays (t : Stmt) (labels : List String) : Act.Stays (startStmt s t labels) := by
  cases t with
  | declare => exact startDeclarations_stays _ _
  | function | empty => exact yields_stays _
  | ret span e =>
    cases e with
    | none => exact .throw _
    | some e => exact evalFor_stays _ _
  | cond | forEach | raise => exact evalFor_stays _ _
  | whileLoop span test body => exact round_stays (s := s) ⟨.whileLoop test, body, labels, .undefined⟩
  | doLoop span body test => exact round_stays (s := s) ⟨.doLoop test, body, labels, .undefined⟩
  | forLoop => exact startFor_stays _ _
  | leave | next | guarded => exact .throw _
  | block => exact startStatements_stays _ _
  | expression | labeled => exact .go _ _

theorem intercept_stays (k : Cont) (x : Abrupt) : Act.Stays (intercept s k x) := by
  unfold intercept
  split
  · unfold Loop.absorb
    split
    · split
      · exact yields_stays _
      · exact .throw _
    · split
      · exact afterBody_stays _
      · exact .throw _
    · exact .throw _
  · split
    · exact yields_stays _
    · exact .throw _
  · exact .throw _

end Act

namespace Machine

variable {m m' : Machine} {c c' : Core} {t : Invocation}

/-- A machine that is about to make an invocation makes it, with as many activations below as there are. -/
theorem step_invocation (h : m.invocation? c = some t) : ∃ a k callers push,
    m.stack = a.pushing [k] :: callers ∧
      m.step c = perform a callers (do return (← t.act m.stack.length).pushing push) c := by
  obtain ⟨control, stack⟩ := m
  unfold invocation? at h
  dsimp only at h
  split at h
  next _ _ v f b k conts callers =>
    have hstep : ∀ p : Act Move, Act.receive ⟨f, callers⟩ k v c = p c →
        Machine.step ⟨.value v, ⟨f, b, k :: conts⟩ :: callers⟩ c =
          perform ⟨f, b, conts⟩ callers p c := by
      intro p hp
      unfold step perform
      dsimp only
      rw [hp]
    have hlist : ∀ values callee this, Invocation.ofCall? c f.scope callee this values = some t →
        useList ⟨f, callers⟩ (.call callee this) values c =
          ((do return (← t.act (callers.length + 1)).pushing [.settle]) : Act Move) c :=
      fun values callee this hcall => useList_invocation (s := ⟨f, callers⟩) hcall
    split at h
    next args =>
      split at h
      next id =>
        cases h
        refine ⟨⟨f, b, conts⟩, _, callers, [], rfl, hstep _ ?_⟩
        simp only [Move.pushing_nil, bind_pure]
        rfl
      next => cases h
    next callee this before => exact ⟨⟨f, b, conts⟩, _, callers, _, rfl, hstep _ (hlist _ _ _ h)⟩
    next => exact ⟨⟨f, b, conts⟩, _, callers, _, rfl, hstep _ (hlist _ _ _ h)⟩
    next receiver => exact ⟨⟨f, b, conts⟩, _, callers, _, rfl, hstep _ (hlist _ _ _ h)⟩
    next => cases h
  next => cases h

theorem stack_perform {a : Activation} {callers : List Activation} {p : Act Move}
    (hp : ∀ move d, p c = .ok move d → move.Stays) (h : perform a callers p c = (.running m', c')) :
    m'.stack.length = callers.length + 1 := by
  unfold perform at h
  cases hr : p c with
  | error x d =>
    rw [hr] at h
    cases h
    rfl
  | ok move d =>
    rw [hr] at h
    cases h
    have hmove := hp move c' hr
    cases move with
    | enter => exact hmove.elim
    | go | linked => rfl

/-- A continuation receives a value without an invocation. -/
theorem receive_stays {f : Frame} {b : Boundary} {k : Cont} {conts : List Cont}
    {callers : List Activation} {v : Value} {move : Move}
    (h : Machine.invocation? ⟨.value v, ⟨f, b, k :: conts⟩ :: callers⟩ c = none)
    (hok : Act.receive ⟨f, callers⟩ k v c = .ok move c') : move.Stays := by
  unfold invocation? at h
  unfold Act.receive at hok
  cases k with
  | constructed args =>
    cases v with
    | function id => cases h
    | native id =>
      refine Act.Stays.bind (fun n => ?_) _ _ _ hok
      split
      · exact .bind fun _ => .go _ _
      · exact .bind fun _ => .raise _ _
    | _ => exact Act.Stays.bind (fun _ => .raise _ _) _ _ _ hok
  | element use before rest =>
    cases rest with
    | cons e rest => exact evalFor_stays _ _ _ _ _ hok
    | nil =>
      cases use with
      | call callee this => exact useList_stays (s := ⟨f, callers⟩) h hok
      | array => exact startList_stays .array nofun _ _ _ _ _ hok
      | construct callee => exact startList_stays (.construct callee) nofun _ _ _ _ _ hok
  | callee args =>
    cases args with
    | cons e rest => exact evalFor_stays _ _ _ _ _ hok
    | nil => exact useList_stays (s := ⟨f, callers⟩) h hok
  | method receiver args =>
    cases args with
    | cons e rest => exact evalFor_stays _ _ _ _ _ hok
    | nil => exact useList_stays (s := ⟨f, callers⟩) h hok
  | settle | typeOf | made | instead => exact give_stays _ _ _ _ hok
  | binaryLeft | choose | compoundOld => exact evalFor_stays _ _ _ _ _ hok
  | unary | binaryRight => exact Act.Stays.bind (fun _ => give_stays _) _ _ _ hok
  | assignValue ref => exact assign_stays ref v _ _ _ hok
  | compoundValue => exact Act.Stays.bind (fun _ => assign_stays _ _) _ _ _ hok
  | updateOld => exact Act.Stays.bind (fun _ => .bind fun _ => give_stays _) _ _ _ hok
  | logicalLeft | logicalOld =>
    dsimp only at hok
    split at hok
    · exact give_stays _ _ _ _ hok
    · exact evalFor_stays _ _ _ _ _ hok
  | property => exact Act.Stays.bind (fun _ => startProperties_stays _ _) _ _ _ hok
  | memberTarget => exact startKey_stays _ _ _ _ _ _ hok
  | memberKey => exact Act.Stays.bind (fun _ => useMember_stays _ _ _) _ _ _ hok
  | sequence => exact startSequence_stays _ _ _ _ _ hok
  | body => exact startStatements_stays _ _ _ _ _ hok
  | declare => exact Act.Stays.bind (fun _ => startDeclarations_stays _ _) _ _ _ hok
  | ret | raise => exact Act.Stays.throw _ _ _ _ hok
  | cond yes no =>
    dsimp only at hok
    split at hok
    · exact Act.Stays.go _ _ _ _ _ hok
    · cases no with
      | none => exact yields_stays _ _ _ _ hok
      | some t => exact Act.Stays.go _ _ _ _ _ hok
  | loopInit | loopUpdate => exact round_stays _ _ _ _ hok
  | loopTest => exact afterTest_stays _ _ _ _ _ hok
  | loopBody => exact afterBody_stays _ _ _ _ hok
  | eachSource => exact Act.Stays.bind (fun _ => round_stays _) _ _ _ hok
  | labeled => exact yields_stays _ _ _ _ hok

/-- **Nothing but an invocation** makes a stack grow. -/
theorem step_stays (h : m.invocation? c = none) (hstep : m.step c = (.running m', c')) :
    m'.stack.length ≤ m.stack.length := by
  obtain ⟨control, stack⟩ := m
  unfold step at hstep
  cases stack with
  | nil => cases control <;> cases hstep
  | cons a callers =>
    cases control with
    | eval e => exact (stack_perform (startExpr_stays e c) hstep).le
    | exec t labels => exact (stack_perform (startStmt_stays t labels c) hstep).le
    | waiting p => cases hstep
    | checkpoint v =>
      dsimp only at hstep
      split at hstep <;> cases hstep <;> rfl
    | value v =>
      obtain ⟨f, b, conts⟩ := a
      cases conts with
      | nil =>
        cases hstep
        exact Nat.le_succ _
      | cons k conts => exact (stack_perform (fun _ _ => receive_stays h) hstep).le
    | abrupt x =>
      obtain ⟨f, b, conts⟩ := a
      cases conts with
      | nil =>
        cases hstep
        exact Nat.le_succ _
      | cons k conts => exact (stack_perform (intercept_stays k x c) hstep).le

end Machine

/-! ## The limit -/

/-- Where an invocation is refused, the machine goes on with the error. -/
theorem Machine.step_refused {m : Machine} {c : Core} {t : Invocation} (h : m.invocation? c = some t)
    (hdepth : c.engine.settings.maxCallDepth ≤ m.stack.length) :
    ∃ a k callers x d, m.stack = a.pushing [k] :: callers ∧
      m.step c = (.running ⟨.abrupt x, a :: callers⟩, d) ∧ c.Refuses x d := by
  obtain ⟨a, k, callers, push, hstack, hstep⟩ := m.step_invocation h
  obtain ⟨x, d, hrefused, hx⟩ := t.refused (Nat.le_add_right_of_le hdepth)
  refine ⟨a, k, callers, x, d, hstack, ?_, hx⟩
  rw [hstep]
  unfold perform
  simp only [Bind.bind, EStateM.bind, hrefused]

/-- Where it is admitted, there is one more activation, or the machine goes on with a failure that is
no range error. -/
theorem Machine.step_admitted {m : Machine} {c : Core} {t : Invocation} (h : m.invocation? c = some t)
    (hdepth : m.stack.length + c.engine.below.length < c.engine.settings.maxCallDepth) :
    ∃ m' d, m.step c = (.running m', d) ∧
      (m'.stack.length = m.stack.length + 1 ∨ ∃ x, m'.control = .abrupt x ∧ Core.Declines x d) := by
  obtain ⟨a, k, callers, push, hstack, hstep⟩ := m.step_invocation h
  rw [hstep, hstack]
  rw [hstack] at hdepth
  unfold perform
  simp only [Bind.bind, EStateM.bind]
  rcases t.admitted hdepth with ⟨ks, b, control, d, hok⟩ | ⟨x, d, herror, hx⟩
  · rw [hok]
    exact ⟨_, d, rfl, .inl rfl⟩
  · rw [herror]
    exact ⟨_, d, rfl, .inr ⟨x, rfl, hx⟩⟩

namespace Session

variable {H : Host} {s : Session} {i : Nat}

/-- **Calls are limited**, in every session that a host can get to and for every configuration. No
state of an evaluation, running or parked, has more activations than the settings allow, and one if they
allow none; a stack grows by invocations alone. An invocation at the limit throws a new range error: the
activations are those that there were, less the continuation that made the call, and nothing but objects
has changed. An invocation below the limit opens an activation, or fails with something that is no range
error. The same holds of what the host calls, with no activation below it. -/
theorem depth_limited (hs : Live H s) (i : Nat) :
    let limit := (s.engine i).settings.maxCallDepth
    (∀ m c, Running H s i m c → m.stack.length ≤ max 1 limit) ∧
    (s.station i).depth ≤ max 1 limit ∧
    (∀ m c m' c', Running H s i m c → m.step c = (.running m', c') →
      m.stack.length < m'.stack.length → (m.invocation? c).isSome) ∧
    (∀ m c t, Running H s i m c → m.invocation? c = some t → limit ≤ m.stack.length →
      ∃ a k callers x d, m.stack = a.pushing [k] :: callers ∧
        m.step c = (.running ⟨.abrupt x, a :: callers⟩, d) ∧ c.Refuses x d) ∧
    (∀ m c t, Running H s i m c → m.invocation? c = some t → m.stack.length < limit →
      ∃ m' d, m.step c = (.running m', d) ∧ (m'.stack.length = m.stack.length + 1 ∨
        ∃ x, m'.control = .abrupt x ∧ Core.Declines x d)) ∧
    ∀ act loan (t : Invocation), Request H s i act loan →
      act (s.armed i) = t.act 0 (s.armed i) →
      let r := Machine.start act (s.armed i)
      (limit = 0 → ∃ x, r.1 = ⟨.abrupt x, []⟩ ∧ (s.armed i).Refuses x r.2) ∧
      (0 < limit → r.1.stack.length = 1 ∨ ∃ x, r.1 = ⟨.abrupt x, []⟩ ∧ Core.Declines x r.2) := by
  intro limit
  have hall : ∀ {m c}, Running H s i m c → c.Shallow (s.engine i).settings m.stack.length :=
    fun hm => hm.shallow (hs.shallow i) (hs.below_armed i)
  have hbelow : ∀ n, n + (s.armed i).engine.below.length = n := fun n => by
    rw [hs.below_armed i]
    rfl
  refine ⟨fun m c hm => (hall hm).depth, ?_, fun m c m' c' hm hstep hmore => ?_,
    fun m c t hm ht hdepth => Machine.step_refused ht ?_,
    fun m c t hm ht hdepth => Machine.step_admitted ht ?_, fun act loan t _ hact => ?_⟩
  · rw [Station.depth, (hs.guarded i).stack, Station.frames]
    split
    next f hf => exact f.machine.length_frames ▸ hs.shallow i f hf
    next => exact Nat.zero_le _
  · by_contra hnone
    exact absurd (Machine.step_stays (Option.not_isSome_iff_eq_none.mp hnone) hstep)
      (Nat.not_le_of_lt hmore)
  · rwa [(hall hm).settings]
  · rwa [(hall hm).settings, (hall hm).below]
  · unfold Machine.start
    rw [hact]
    refine ⟨fun hzero => ?_, fun hpos => ?_⟩
    · have hlimit : (s.armed i).engine.settings.maxCallDepth ≤ 0 + _ := (hbelow 0).symm ▸ hzero.le
      obtain ⟨x, d, hrefused, hx⟩ := t.refused hlimit
      rw [hrefused]
      exact ⟨x, rfl, hx⟩
    · have hlimit : 0 + _ < (s.armed i).engine.settings.maxCallDepth := (hbelow 0).symm ▸ hpos
      rcases t.admitted hlimit with ⟨ks, b, control, d, hok⟩ | ⟨x, d, herror, hx⟩
      · rw [hok]
        exact .inl rfl
      · rw [herror]
        exact .inr ⟨x, rfl, hx⟩

end Session

/-- A function that calls itself without end. -/
def CodeUnit.callingItself : CodeUnit := .ofSource "function f() { f(); } f()"

/-- How many activations there are after the next step, if the machine goes on. -/
def Machine.depthAfter (m : Machine) (c : Core) : Option Nat :=
  match m.step c with
  | (.running m', _) => some m'.stack.length
  | _ => none

namespace Session

/-- An engine that allows two activations. -/
def shallow : Session :=
  addEngine { fuel := 100 } none { installStdlib := false, maxCallDepth := 2 } none []

theorem live_shallow {H : Host} : Live H shallow := .step (.empty _) (.edit (.engine _ none _ none _))

/-- The first call is admitted, the second one is refused. -/
theorem depth_limited_shallow :
    (∃ m c t m' d, Running .any shallow 0 m c ∧ m.invocation? c = some t ∧ m.stack.length = 1 ∧
      m.step c = (.running m', d) ∧ m'.stack.length = 2) ∧
    ∃ m c t, Running .any shallow 0 m c ∧ m.invocation? c = some t ∧ m.stack.length = 2 ∧
      ∃ a k callers x d, m.stack = a.pushing [k] :: callers ∧
        m.step c = (.running ⟨.abrupt x, a :: callers⟩, d) ∧ c.Refuses x d := by
  have hunit : Request .any shallow 0 (Act.openUnit .callingItself (shallow.engine 0).root) {} :=
    .unit trivial
  have hlimit : (shallow.engine 0).settings.maxCallDepth = 2 := by decide +kernel
  obtain ⟨-, -, -, hrefused, hadmitted, -⟩ := depth_limited (H := .any) live_shallow 0
  have hfirst : (shallow.asked? 0 (Act.openUnit .callingItself (shallow.engine 0).root) 8).any fun r =>
      (r.1.invocation? r.2).isSome && (r.1.stack.length = 1 && r.1.depthAfter r.2 = some 2) := by
    decide +kernel
  have hsecond : (shallow.asked? 0 (Act.openUnit .callingItself (shallow.engine 0).root) 15).any fun r =>
      (r.1.invocation? r.2).isSome && r.1.stack.length = 2 := by decide +kernel
  obtain ⟨⟨m, c⟩, hreach, hm⟩ := (Option.any_eq_true ..).mp hfirst
  obtain ⟨⟨n, d⟩, hreach', hn⟩ := (Option.any_eq_true ..).mp hsecond
  simp only [Bool.and_eq_true, decide_eq_true_eq, Option.isSome_iff_exists] at hm hn
  obtain ⟨⟨t, ht⟩, hone, hafter⟩ := hm
  obtain ⟨⟨t', ht'⟩, htwo⟩ := hn
  have hrun := Running.of_asked (by decide) hunit hreach
  have hrun' := Running.of_asked (by decide) hunit hreach'
  obtain ⟨m', d', hstep, -⟩ := hadmitted m c t hrun ht (by rw [hlimit, hone]; decide)
  have hdepth : m'.stack.length = 2 := by
    rw [Machine.depthAfter, hstep] at hafter
    exact Option.some.inj hafter
  exact ⟨⟨m, c, t, m', d', hrun, ht, hone, hstep, hdepth⟩,
    n, d, t', hrun', ht', htwo, hrefused n d t' hrun' ht' (Nat.le_of_eq (hlimit.trans htwo.symm))⟩

end Session

end Fermata
