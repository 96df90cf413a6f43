import Fermata.Proofs.Machine.Placed

/-!
# Invocations

An `Invocation` is a call that opens an activation: of a function, of a function with `new`, or of code
that is evaluated where it is met. Each looks at the depth before it does anything else that matters. At
the greatest depth it is refused: a range error is thrown, and apart from the objects that this takes
nothing has changed. Below that depth it is never refused; it can still fail on the way, but not with a
range error.

* `Invocation.ofCall?`, `callValue_invocation`, `callValue_stays`: which calls of values are invocations.
* `Invocation.refused`, `Invocation.admitted`: what becomes of invocations.
-/

namespace Fermata

open Act

/-- A call that opens an activation. -/
inductive Invocation where
  | closure (id : ClosureId) (this : Value) (args : List Value)
  | construct (id : ClosureId) (args : List Value)
  | code (unit : CodeUnit) (scope : ScopeId)

namespace Invocation

/-- Make the call, with this many activations below it. -/
def act (depth : Nat) : Invocation → Act Move
  | .closure id this args => callClosure depth id this args
  | .construct id args => Act.construct depth (.function id) args
  | .code unit scope => callUnit depth unit scope

/-- What calling a value comes to, if that opens an activation. -/
def ofCall? (c : Core) (scope : ScopeId) (callee this : Value) (args : List Value) : Option Invocation :=
  match callee with
  | .function id => some (.closure id this args)
  | .native id =>
    if id = c.engine.evalFunction then
      match Builtin.arg args 0 with
      | .string source =>
        match CodeUnit.compile source (c.heap.visibleNames scope) with
        | .ok unit => some (.code unit scope)
        | .error _ => none
      | _ => none
    else none
  | _ => none

end Invocation

/-! ## Refusals -/

/-- A new range error is thrown, and nothing but objects has changed. -/
def Core.Refuses (c : Core) (x : Abrupt) (d : Core) : Prop :=
  ∃ e S, x = .thrown (.object e) ∧ d = c.withObjects S ∧ c.heap.objects.get? e = none ∧
    S.get? e = some (.ofError rangeErrorKind "Maximum call stack size exceeded")

/-- The transfer is a fault, or an error that is no range error is thrown. -/
def Core.Declines (x : Abrupt) (d : Core) : Prop :=
  (∃ cause, x = .fault cause) ∨ ∃ e kind message, x = .thrown (.object e) ∧
    d.heap.objects.get? e = some (.ofError kind message) ∧ kind ≠ rangeErrorKind

/-- Whatever there was before objects were made is refused as well. -/
theorem Core.Refuses.before {c d : Core} {x : Abrupt} {S : Store .object Object}
    (h : (c.withObjects S).Refuses x d)
    (hS : ∀ a, S.get? a = none → c.heap.objects.get? a = none) : c.Refuses x d := by
  obtain ⟨e, T, rfl, rfl, hnone, herror⟩ := h
  exact ⟨e, T, rfl, rfl, hS e hnone, herror⟩

namespace Invocation

variable {α β : Type} {depth : Nat} {c : Core}

theorem checkDepth_refused (hdepth : c.engine.settings.maxCallDepth ≤ depth + c.engine.below.length)
    (q : Unit → Act α) : ∃ x d, (checkDepth depth >>= q) c = .error x d ∧ c.Refuses x d := by
  refine ⟨.thrown (.object (c.heap.objects.next c.engine.region)),
    c.withObjects (c.heap.objects.push c.engine.region
      (.ofError rangeErrorKind "Maximum call stack size exceeded")), ?_, _, _, rfl, rfl,
    Store.get?_next _ _, ?_⟩
  · simp only [Bind.bind, EStateM.bind, Law.checkDepth_eq, if_pos hdepth]
    rfl
  · rw [Store.get?_push, if_pos rfl]

theorem checkDepth_admitted (hdepth : depth + c.engine.below.length < c.engine.settings.maxCallDepth)
    (q : Unit → Act α) : (checkDepth depth >>= q) c = q () c := by
  simp only [Bind.bind, EStateM.bind, Law.checkDepth_eq, if_neg (Nat.not_le_of_lt hdepth)]

/-- Before a constructor is called, objects may be made. -/
theorem construct_eq (depth : Nat) (id : ClosureId) (args : List Value) (c : Core) :
    ∃ this S, (∀ a, S.get? a = none → c.heap.objects.get? a = none) ∧
      Act.construct depth (.function id) args c =
        ((do return (← callClosure depth id (.object this) args).pushing [.made this]) : Act Move)
          (c.withObjects S) := by
  have hpush : ∀ (T : Store .object Object) o a, (T.push c.engine.region o).get? a = none →
      T.get? a = none := by
    intro T o a hnone
    rw [Store.get?_push] at hnone
    split at hnone
    · cases hnone
    · exact hnone
  obtain ⟨T, proto, hT, hproto⟩ : ∃ T proto,
      (∀ a, T.get? a = none → c.heap.objects.get? a = none) ∧
      c.heap.prototypeOf c.engine.region id = (proto, { c.heap with objects := T }) := by
    unfold Heap.prototypeOf
    dsimp only
    split
    · exact ⟨c.heap.objects, _, fun _ h => h, rfl⟩
    · refine ⟨_, _, fun a hnone => ?_, rfl⟩
      refine hpush c.heap.objects (.empty none) a ?_
      rw [Store.get?_modify] at hnone
      split at hnone
      · exact Option.map_eq_none_iff.mp hnone
      · exact hnone
  refine ⟨T.next c.engine.region, T.push c.engine.region (.empty (some proto)),
    fun a hnone => hT a (hpush T _ a hnone), ?_⟩
  have hmade : Act.making (fun h region => h.prototypeOf region id) c =
      .ok proto (c.withObjects T) := by
    change EStateM.Result.ok (c.heap.prototypeOf c.engine.region id).1
      { c with heap := (c.heap.prototypeOf c.engine.region id).2 } = _
    rw [hproto]
    rfl
  unfold Act.construct
  simp only [Bind.bind, EStateM.bind, hmade]
  rfl

/-- **At the greatest depth** every invocation is refused. -/
theorem refused (t : Invocation) (hdepth : c.engine.settings.maxCallDepth ≤ depth + c.engine.below.length) :
    ∃ x d, t.act depth c = .error x d ∧ c.Refuses x d := by
  cases t with
  | closure id this args => exact checkDepth_refused hdepth _
  | code unit scope => exact checkDepth_refused hdepth _
  | construct id args =>
    obtain ⟨this, S, hS, heq⟩ := construct_eq depth id args c
    obtain ⟨x, d, hcall, hrefuses⟩ :
        ∃ x d, callClosure depth id (.object this) args (c.withObjects S) = .error x d ∧
          (c.withObjects S).Refuses x d :=
      checkDepth_refused (c := c.withObjects S) hdepth _
    refine ⟨x, d, ?_, hrefuses.before hS⟩
    rw [act, heq]
    simp only [Bind.bind, EStateM.bind, hcall]

/-! ## Admission -/

/-- The act may fail, but not with a range error. -/
def Bars (p : Act α) : Prop := ∀ c x d, p c = .error x d → Core.Declines x d

/-- The act opens an activation, or fails without a range error. -/
def Opens (r : EStateM.Result Abrupt Core Move) : Prop :=
  (∃ push a control d, r = .ok (.enter push a control) d) ∨
    ∃ x d, r = .error x d ∧ Core.Declines x d

/-- What always succeeds does not fail. -/
theorem Bars.of_ok {p : Act α} (hp : ∀ c, ∃ a d, p c = .ok a d) : Bars p := by
  intro c x d h
  obtain ⟨a, c', hok⟩ := hp c
  rw [hok] at h
  cases h

theorem Bars.pure (a : α) : Bars (Pure.pure a : Act α) := .of_ok fun c => ⟨a, c, rfl⟩

theorem Bars.get : Bars (MonadState.get : Act Core) := .of_ok fun c => ⟨c, c, rfl⟩

theorem Bars.changes (f : Heap → Heap) : Bars (Act.changes f) := .of_ok fun _ => ⟨_, _, rfl⟩

theorem Bars.reads (f : Heap → α) : Bars (Act.reads f) := .of_ok fun _ => ⟨_, _, rfl⟩

theorem Bars.bind {p : Act α} {q : α → Act β} (hp : Bars p) (hq : ∀ a, Bars (q a)) :
    Bars (p >>= q) := by
  intro c x d h
  simp only [Bind.bind, EStateM.bind] at h
  cases hr : p c with
  | ok a c' =>
    rw [hr] at h
    exact hq a c' x d h
  | error y c' =>
    rw [hr] at h
    cases h
    exact hp c x d hr

theorem Bars.raise {kind : String} (hkind : kind ≠ rangeErrorKind) (message : String) :
    Bars (Act.raise kind message : Act α) := by
  intro c x d h
  cases h
  refine .inr ⟨_, kind, message, rfl, ?_, hkind⟩
  exact (Store.get?_push _ _ _ _).trans (if_pos rfl)

theorem Bars.opens {p : Act α} {q : α → Act Move} (hp : Bars p) (hq : ∀ a c, Opens (q a c)) (c : Core) :
    Opens ((p >>= q) c) := by
  simp only [Bind.bind, EStateM.bind]
  cases hr : p c with
  | ok a d => exact hq a d
  | error x d => exact .inr ⟨x, d, rfl, hp c x d hr⟩

theorem bars_setName (scope : ScopeId) (name : String) (v : Value) :
    Bars (Act.setName scope name v) := by
  refine (Bars.reads _).bind fun r => ?_
  cases r with
  | ok place => exact .changes _
  | error e => cases e <;> exact Bars.raise (by decide) _

theorem bars_instantiate (f : Frame) (node : Nat) : Bars (instantiate f node) := by
  intro c x d h
  rw [Law.instantiate_eq] at h
  split at h
  · cases h
    exact .inl ⟨_, rfl⟩
  · split at h
    · cases h
      exact .inl ⟨_, rfl⟩
    · split at h
      · cases h
      · cases h
        exact .inl ⟨_, rfl⟩

theorem bars_bindDeclared (f : Frame) (name : String) (id : ClosureId) :
    Bars (bindDeclared f name id) := by
  refine Bars.get.bind fun c => ?_
  dsimp only
  split
  · exact Bars.get.bind fun _ => .changes _
  · split
    · exact bars_setName _ _ _
    · exact .pure _

theorem bars_hoistAll (f : Frame) (nodes : List Nat) : Bars (hoistAll f nodes) := by
  induction nodes generalizing f with
  | nil => exact .pure _
  | cons node nodes ih =>
    refine (bars_instantiate f node).bind fun ⟨id, f'⟩ => ?_
    refine (Bars.reads _).bind fun k => ?_
    dsimp only
    split
    · exact (bars_bindDeclared f' _ id).bind fun _ => ih f'
    · exact ih f'

theorem opens_openFrame (f : Frame) (b : Boundary) (body : List Stmt) (c : Core) :
    Opens (openFrame f b body c) := by
  have hhoist : Bars (hoist f) := by
    unfold Act.hoist
    split
    · exact bars_hoistAll f _
    · exact .pure _
  exact hhoist.opens (fun g d => .inl ⟨_, _, _, d, rfl⟩) c

theorem bars_activationScope (r : ScopeRecord) (id : ClosureId) (defining : ScopeId) (this : Value)
    (args : List Value) : Bars (activationScope r id defining this args) := by
  unfold activationScope
  split
  · refine Bars.bind (.of_ok fun c => ?_) fun bindings => .of_ok fun _ => ⟨_, _, rfl⟩
    obtain ⟨bindings, S, -, hvalues⟩ := Law.mapM_firstValue r id args r.bindings c
    exact ⟨_, _, hvalues c.heap.pendings c.engine.watch c.engine.suspensionCount
      c.engine.lastSuspension⟩
  · exact .pure _

theorem opens_callClosure (hdepth : depth + c.engine.below.length < c.engine.settings.maxCallDepth)
    (id : ClosureId) (this : Value) (args : List Value) : Opens (callClosure depth id this args c) := by
  unfold callClosure
  rw [checkDepth_admitted hdepth]
  refine Bars.get.opens (fun core c => ?_) c
  cases core.engine.links.scope? (core.heap.closures.get id).serial with
  | none => exact .inr ⟨_, _, rfl, .inl ⟨_, rfl⟩⟩
  | some defining =>
    dsimp only
    cases (core.heap.closures.get id).unit.record? (core.heap.closures.get id).node.id with
    | none => exact .inr ⟨_, _, rfl, .inl ⟨_, rfl⟩⟩
    | some r => exact (bars_activationScope _ _ _ _ _).opens (fun _ _ => opens_openFrame _ _ _ _) c

/-- **Below the greatest depth** an invocation opens an activation, unless it fails in another way. -/
theorem admitted (t : Invocation) (hdepth : depth + c.engine.below.length < c.engine.settings.maxCallDepth) :
    Opens (t.act depth c) := by
  cases t with
  | closure id this args => exact opens_callClosure hdepth id this args
  | code unit scope =>
    rw [act, callUnit, checkDepth_admitted hdepth]
    exact opens_openFrame _ _ _ _
  | construct id args =>
    obtain ⟨this, S, -, heq⟩ := construct_eq depth id args c
    rw [act, heq]
    simp only [Bind.bind, EStateM.bind]
    rcases opens_callClosure (c := c.withObjects S) hdepth id (.object this) args with
      ⟨push, a, control, d, hok⟩ | ⟨x, d, herror, hdeclines⟩
    · rw [hok]
      exact .inl ⟨_, _, _, d, rfl⟩
    · rw [herror]
      exact .inr ⟨x, d, rfl, hdeclines⟩

end Invocation

/-! ## Calls of values -/

section Calls

variable {depth : Nat} {scope : ScopeId} {callee this : Value} {args : List Value} {c d : Core}
  {t : Invocation} {s : Site} {k : Cont} {v : Value} {move : Move}

theorem callValue_invocation (h : Invocation.ofCall? c scope callee this args = some t) (depth : Nat) :
    callValue depth scope callee this args c = t.act depth c := by
  unfold Invocation.ofCall? at h
  cases callee with
  | function id =>
    cases h
    rfl
  | native id =>
    dsimp only at h
    unfold callValue
    dsimp only
    rw [get_bind]
    split at h
    next heval =>
      rw [if_pos heval]
      split at h
      next source hcode =>
        rw [hcode]
        unfold evalCode
        dsimp only
        rw [reads_bind]
        split at h
        next unit hunit =>
          cases h
          rw [hunit]
          rfl
        next => cases h
      next => cases h
    next => cases h
  | _ => cases h

theorem Move.pushing_nil (move : Move) : move.pushing [] = move := by
  cases move <;> simp only [pushing, List.append_nil]

/-- The move opens no activation. -/
def Move.Stays : Move → Prop
  | .enter .. => False
  | .go .. | .linked .. => True

/-- The act opens no activation. -/
def Act.Stays (p : Act Move) : Prop := ∀ c move d, p c = .ok move d → move.Stays

namespace Act.Stays

theorem go (push : List Cont) (control : Control) : Act.Stays (pure (.go push control)) := by
  intro c m d hok
  cases hok
  trivial

theorem linked (f : Frame) (v : Value) : Act.Stays (pure (.linked f v)) := by
  intro c m d hok
  cases hok
  trivial

theorem throw (x : Abrupt) : Act.Stays (throw x) := by
  intro c m d hok
  cases hok

theorem raise (kind message : String) : Act.Stays (Act.raise kind message) := by
  intro c m d hok
  cases hok

/-- What comes before the move does not matter. -/
theorem bind {α : Type} {p : Act α} {q : α → Act Move} (hq : ∀ a, Act.Stays (q a)) :
    Act.Stays (p >>= q) := by
  intro c m d hok
  simp only [Bind.bind, EStateM.bind] at hok
  cases hr : p c with
  | ok a c' =>
    rw [hr] at hok
    exact hq a c' m d hok
  | error x c' =>
    rw [hr] at hok
    cases hok

end Act.Stays

/-- Calling a value that makes no invocation opens no activation. -/
theorem callValue_stays (h : Invocation.ofCall? c scope callee this args = none)
    (hok : callValue depth scope callee this args c = .ok move d) : move.Stays := by
  unfold Invocation.ofCall? at h
  unfold callValue at hok
  cases callee with
  | function id => cases h
  | native id =>
    dsimp only at h hok
    rw [get_bind] at hok
    split at h
    next heval =>
      rw [if_pos heval] at hok
      generalize Builtin.arg args 0 = code at h hok
      unfold evalCode at hok
      cases code with
      | string source =>
        dsimp only at h hok
        rw [reads_bind] at hok
        cases hunit : CodeUnit.compile source (c.heap.visibleNames scope) with
        | ok unit =>
          rw [hunit] at h
          cases h
        | error e =>
          rw [hunit] at hok
          exact Act.Stays.raise _ _ _ _ _ hok
      | _ => exact Act.Stays.go _ _ _ _ _ hok
    next hother =>
      rw [if_neg hother] at hok
      refine Act.Stays.bind (fun n => ?_) _ _ _ hok
      exact .bind fun _ => .go _ _
  | _ => exact Act.Stays.raise _ _ _ _ _ hok

theorem useList_invocation {values : List Value}
    (h : Invocation.ofCall? c s.scope callee this values = some t) :
    useList s (.call callee this) values c =
      ((do return (← t.act s.depth).pushing [.settle]) : Act Move) c := by
  have hcallable : callee.isCallable = true := by
    cases callee <;> first | rfl | cases h
  unfold useList
  dsimp only
  rw [if_pos hcallable]
  simp only [Bind.bind, EStateM.bind, callValue_invocation h]

theorem useList_stays {values : List Value}
    (h : Invocation.ofCall? c s.scope callee this values = none)
    (hok : useList s (.call callee this) values c = .ok move d) : move.Stays := by
  unfold useList at hok
  dsimp only at hok
  split at hok
  · simp only [Bind.bind, EStateM.bind] at hok
    cases hcall : callValue s.depth s.scope callee this values c with
    | ok m c' =>
      rw [hcall] at hok
      cases hok
      have hm := callValue_stays h hcall
      cases m <;> exact hm
    | error x c' =>
      rw [hcall] at hok
      cases hok
  · exact Act.Stays.raise _ _ _ _ _ hok

end Calls

end Fermata
