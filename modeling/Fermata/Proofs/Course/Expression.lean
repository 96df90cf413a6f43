import Fermata.Proofs.Course.Behaviour

/-!
# Expressions as behaviours

The machine evaluates an expression by pushing what is left to do. Read as behaviours, its rules say in one
piece what an expression does: which parts are evaluated, in which order, and where values pass a checkpoint.

* `Strand.evaluate`, `Strand.execute`, `Strand.settle`: the behaviours of expressions, statements and
  checkpoints.
* `Strand.settle_settle`: a value that came through a checkpoint comes through the next one.
* `Strand.evaluate_ident`, `Strand.evaluate_binary`, `Strand.evaluate_logical`, `Strand.evaluate_member`: some
  expressions.
* `Strand.assigning`, `Strand.evaluate_assign_ident`, `Strand.evaluate_assign_member`: assignments.
-/

namespace Fermata

namespace Strand

open Behaviour

variable {f : Frame} {n : Nat}

/-- What it is to evaluate an expression in a frame, below which so many activations are live. -/
def evaluate (f : Frame) (n : Nat) (e : Expr) : Behaviour Value := course f n (.eval e) []

/-- What it is to execute a statement with labels. -/
def execute (f : Frame) (n : Nat) (t : Stmt) (labels : List String) : Behaviour Value :=
  course f n (.exec t labels) []

/-- What it is for a value to pass the checkpoint. -/
def settle (f : Frame) (n : Nat) (v : Value) : Behaviour Value := course f n (.checkpoint v) []

/-- The site, as far as it matters. -/
def here (f : Frame) (n : Nat) : Site := site f n 0

theorem alike_here (i : Nat) : (site f n i).Alike (here f n) := ⟨rfl, rfl⟩

/-! ## Checkpoints -/

/-- The value comes through the checkpoint as it is. -/
def Passes (v : Value) (c : Core) : Prop := Act.pass v c = .ok (.value v) c

theorem passes_of_pass {v w : Value} {c d : Core} (h : Act.pass v c = .ok (.value w) d) :
    Passes w d := by
  cases v with
  | pending id =>
    rw [Act.pass_pending] at h
    cases hs : (c.heap.pendings.get id).settlement? with
    | some s =>
      rw [hs] at h
      cases s <;> cases h
    | none =>
      rw [hs] at h
      cases hw : c.engine.watch with
      | disarmed =>
        rw [hw] at h
        cases h
        unfold Passes
        rw [Act.pass_pending, show (c.watching Watch.disarmed.touch.2).heap = c.heap from rfl, hs]
        rfl
      | _ =>
        rw [hw] at h
        cases h
  | _ =>
    cases h
    rfl

/-- A checkpoint lets a value pass, looks at another one, waits, or fails. -/
theorem pass_cases (v : Value) (c : Core) :
    (∃ w d, Act.pass v c = .ok (.value w) d) ∨ (∃ w d, Act.pass v c = .ok (.checkpoint w) d) ∨
      (∃ p d, Act.pass v c = .ok (.waiting p) d) ∨ ∃ x d, Act.pass v c = .error x d := by
  cases v with
  | pending id =>
    rw [Act.pass_pending]
    cases (c.heap.pendings.get id).settlement? with
    | some s =>
      cases s with
      | fulfilled w => exact .inr (.inl ⟨_, _, rfl⟩)
      | rejected reason => exact .inr (.inr (.inr ⟨_, _, rfl⟩))
    | none =>
      cases c.engine.watch with
      | armed => exact .inr (.inr (.inl ⟨_, _, rfl⟩))
      | disarmed => exact .inl ⟨_, _, rfl⟩
      | triggered => exact .inr (.inr (.inr ⟨_, _, rfl⟩))
  | _ => exact .inl ⟨_, _, rfl⟩

theorem passes_of_runs {v w : Value} {c d : Core} {t i j : Nat} {ps : List Pause}
    (h : Runs f n t ⟨.checkpoint v, [], i, []⟩ c ps (.back (.ok w) j) d) : Passes w d := by
  induction t using Nat.strong_induction_on generalizing v c ps i with
  | _ t ih =>
    rcases pass_cases v c with ⟨u, e, hv⟩ | ⟨u, e, hv⟩ | ⟨p, e, hv⟩ | ⟨x, e, hv⟩
    case inr.inr.inl =>
      have hpark : Parks f n ⟨.checkpoint v, [], i, []⟩ c _ p e := parks_checkpoint hv
      rcases hpark.runs h with heq | ⟨t', q, qs, rfl, rfl, hrest⟩
      · cases heq
      · cases hs : q.settlement with
        | fulfilled u =>
          rw [hs] at hrest
          exact ih t' (Nat.lt_succ_self t') hrest
        | rejected reason =>
          rw [hs] at hrest
          obtain ⟨-, -, heq, -⟩ := (runs_back_iff (o := .error (.thrown reason))).mp hrest
          cases heq
    all_goals
      have hstep : Steps f n ⟨.checkpoint v, [], i, []⟩ c _ _ :=
        steps_checkpoint fun p d => by rw [hv]; nofun
      rw [hv] at hstep
      obtain ⟨t', rfl, hrest⟩ := hstep.runs_iff.mp h
    · obtain ⟨-, -, heq, rfl⟩ := (runs_back_iff (o := .ok u)).mp hrest
      cases heq
      exact passes_of_pass hv
    · exact ih t' (Nat.lt_succ_self t') hrest
    · obtain ⟨-, -, heq, -⟩ := (runs_back_iff (o := .error x)).mp hrest
      cases heq

/-- A value that passes leaves no trace. -/
theorem settle_of_passes {v : Value} {c d : Core} {i : Nat} {ps : List Pause} {E : Ending Value}
    (hv : Passes v c) : settle f n v i c ps E d ↔ ps = [] ∧ E = .back (.ok v) i ∧ d = c := by
  have hstep : Steps f n ⟨.checkpoint v, [], i, []⟩ c _ _ :=
    steps_checkpoint fun p d => by rw [hv]; nofun
  rw [show Act.pass v c = _ from hv] at hstep
  constructor
  · rintro ⟨t, h⟩
    obtain ⟨t', -, hrest⟩ := hstep.runs_iff.mp h
    exact (runs_back_iff (o := .ok v).mp hrest).2
  · intro hrest
    exact ⟨1, hstep.runs_iff.mpr ⟨0, rfl, (runs_back_iff (o := .ok v)).mpr ⟨rfl, hrest⟩⟩⟩

/-- A value that is not pending passes. -/
theorem settle_of_ready {v : Value} (hv : ∀ p, v ≠ .pending p) : settle f n v = pure v := by
  refine ext fun i c ps E d => settle_of_passes ?_
  cases v with
  | pending p => exact absurd rfl (hv p)
  | _ => rfl

/-- **One checkpoint after the other is one.** -/
theorem settle_settle (v : Value) : settle f n v >>= settle f n = settle f n v := by
  refine ext fun i c ps E d => ⟨fun h => ?_, fun h => ?_⟩
  · cases h with
    | parked hb => exact hb
    | @back ps ps' o j c' _ _ hb hk =>
      cases o with
      | error x =>
        obtain ⟨rfl, rfl, rfl⟩ := hk
        rwa [List.append_nil]
      | ok w =>
        obtain ⟨t, hrun⟩ := hb
        obtain ⟨rfl, rfl, rfl⟩ := (settle_of_passes (passes_of_runs hrun)).mp hk
        rw [List.append_nil]
        exact ⟨t, hrun⟩
  · cases E with
    | parked p => exact .parked h
    | back o j =>
      rw [← List.append_nil ps]
      refine .back h ?_
      cases o with
      | error x => exact ⟨rfl, rfl, rfl⟩
      | ok w =>
        obtain ⟨t, hrun⟩ := h
        exact (settle_of_passes (passes_of_runs hrun)).mpr ⟨rfl, rfl, rfl⟩

/-! ## Expressions -/

/-- Evaluate for a continuation. -/
theorem course_eval_one {k : Cont} (hk : ∀ s x, Act.intercept s k x = throw x) (e : Expr) :
    course f n (.eval e) [k] = evaluate f n e >>= fun v => course f n (.value v) [k] :=
  course_cons hk (.eval e)

theorem course_checkpoint_one {k : Cont} (hk : ∀ s x, Act.intercept s k x = throw x) (v : Value) :
    course f n (.checkpoint v) [k] = settle f n v >>= fun v => course f n (.value v) [k] :=
  course_cons hk (.checkpoint v)

/-- A name is read. -/
theorem evaluate_ident (span : Span) (x : String) :
    evaluate f n (.ident span x) = act (Act.getName f.scope x) >>= settle f n :=
  course_eval (K := fun _ => []) (C := fun v => .checkpoint v) fun _ => rfl

/-- The operands come from left to right. -/
theorem evaluate_binary (span : Span) (op : BinaryOp) (left right : Expr) :
    evaluate f n (.binary span op left right) = (do
      let a ← evaluate f n left
      let b ← evaluate f n right
      settle f n (← act (Act.binary op a b))) := by
  refine (course_eval_go (K := [.binaryLeft op right]) fun _ => rfl).trans ?_
  refine (course_eval_one (fun _ _ => rfl) left).trans (bind_congr fun a => ?_)
  refine (course_receive_go (K := [.binaryRight op a]) fun _ => rfl).trans ?_
  refine (course_eval_one (fun _ _ => rfl) right).trans (bind_congr fun b => ?_)
  exact course_receive (K := fun _ => []) (C := fun v => .checkpoint v) fun _ => rfl

/-- The right operand comes only if the left one does not decide. -/
theorem evaluate_logical (span : Span) (op : LogicalOp) (left right : Expr) :
    evaluate f n (.logical span op left right) = (do
      let a ← evaluate f n left
      if Act.shortCircuits op a then settle f n a
      else settle f n (← evaluate f n right)) := by
  refine (course_eval_go (K := [.logicalLeft op right]) fun _ => rfl).trans ?_
  refine (course_eval_one (fun _ _ => rfl) left).trans (bind_congr fun a => ?_)
  by_cases ha : Act.shortCircuits op a = true
  · rw [if_pos ha]
    exact course_receive_go (K := []) fun _ => if_pos ha
  · rw [if_neg ha]
    refine (course_receive_go (k := .logicalLeft op right) (v := a) (K := [.settle]) (C := .eval right)
      fun _ => if_neg ha).trans ?_
    refine (course_eval_one (fun _ _ => rfl) right).trans (bind_congr fun b => ?_)
    exact course_receive_go (K := []) fun _ => rfl

/-- The object comes before its member. -/
theorem evaluate_member (span : Span) (object : Expr) (key : String) (implicit : Bool) :
    evaluate f n (.member span object (.named key) implicit) = (do
      let target ← evaluate f n object
      settle f n (← act (Act.readMember target key implicit))) := by
  refine (course_eval_go (K := [.memberTarget (.named key) (.read implicit)]) fun _ => rfl).trans ?_
  refine (course_eval_one (fun _ _ => rfl) object).trans (bind_congr fun target => ?_)
  exact course_receive (K := fun _ => []) (C := fun v => .checkpoint v) fun _ => rfl

/-! ## Assignments -/

/-- What it is to assign to a reference: the old value, if it matters, then the right side, then the write. -/
def assigning (f : Frame) (n : Nat) (ref : Reference) (op : AssignOp) (value : Expr) : Behaviour Value :=
  match op with
  | .plain => do
    let v ← evaluate f n value
    act (Act.writeReference (here f n) ref v)
    settle f n v
  | .compound op => do
    let old ← settle f n (← act (Act.readReference (here f n) ref))
    let v ← evaluate f n value
    let new ← act (Act.binary op old v)
    act (Act.writeReference (here f n) ref new)
    settle f n new
  | .logical op => do
    let old ← settle f n (← act (Act.readReference (here f n) ref))
    if Act.shortCircuits op old then settle f n old
    else do
      let v ← evaluate f n value
      act (Act.writeReference (here f n) ref v)
      settle f n v

/-- A value is assigned that was evaluated. -/
theorem course_assignValue (ref : Reference) (v : Value) :
    course f n (.value v) [.assignValue ref] = (do
      act (Act.writeReference (here f n) ref v)
      settle f n v) :=
  course_receive (K := fun _ => []) (C := fun _ => .checkpoint v) fun i =>
    (alike_here i).assign ref v

/-- A value is assigned that the old one and the right side give. -/
theorem course_compoundValue (ref : Reference) (op : BinaryOp) (old v : Value) :
    course f n (.value v) [.compoundValue ref op old] = (do
      let new ← act (Act.binary op old v)
      act (Act.writeReference (here f n) ref new)
      settle f n new) := by
  have hact : ∀ i, Act.receive (site f n i) (.compoundValue ref op old) v = (do
      let new ← Act.binary op old v
      Act.writeReference (here f n) ref new
      return new) >>= fun new => pure (.go [] (.checkpoint new)) := by
    intro i
    rw [(alike_here i).receive, bind_assoc]
    refine bind_congr fun new => ?_
    rw [bind_assoc]
    rfl
  refine (course_receive (K := fun _ => []) (C := fun v => .checkpoint v) hact).trans ?_
  rw [act_bind, bind_assoc]
  refine bind_congr fun new => ?_
  rw [act_bind, bind_assoc]
  exact bind_congr fun _ => pure_bind _ _

/-- The use of a reference for an assignment, from one core. -/
theorem course_useReference_at {control : Control} {ks : List Cont} {i : Nat} {c : Core}
    {r : EStateM.Result Abrupt Core Move}
    (hstep : Steps f n ⟨control, [], i, ks⟩ c (performed i [] r).1 (performed i [] r).2)
    {ref : Reference} {op : AssignOp} {value : Expr}
    (hr : r = Act.useReference (here f n) (.assign op value) ref c) (ps : List Pause) (E : Ending Value)
    (d : Core) :
    course f n control ks i c ps E d ↔ assigning f n ref op value i c ps E d := by
  cases op with
  | plain =>
    refine (course_act_at (a := pure ()) (K := fun _ => [.assignValue ref]) (C := fun _ => .eval value)
      hstep hr ps E d).trans (iff_of_eq (congrArg (fun b : Behaviour Value => b i c ps E d) ?_))
    refine (pure_bind _ _).trans ?_
    exact (course_eval_one (fun _ _ => rfl) value).trans (bind_congr fun v => course_assignValue ref v)
  | compound op =>
    refine (course_act_at (a := Act.readReference (here f n) ref)
      (K := fun _ => [.compoundOld ref op value]) (C := fun v => .checkpoint v) hstep hr ps E d).trans
      (iff_of_eq (congrArg (fun b : Behaviour Value => b i c ps E d) ?_))
    refine bind_congr fun v => (course_checkpoint_one (fun _ _ => rfl) v).trans (bind_congr fun old => ?_)
    refine (course_receive_go (K := [.compoundValue ref op old]) fun _ => rfl).trans ?_
    exact (course_eval_one (fun _ _ => rfl) value).trans
      (bind_congr fun v => course_compoundValue ref op old v)
  | logical op =>
    refine (course_act_at (a := Act.readReference (here f n) ref)
      (K := fun _ => [.logicalOld ref op value]) (C := fun v => .checkpoint v) hstep hr ps E d).trans
      (iff_of_eq (congrArg (fun b : Behaviour Value => b i c ps E d) ?_))
    refine bind_congr fun v => (course_checkpoint_one (fun _ _ => rfl) v).trans (bind_congr fun old => ?_)
    by_cases ha : Act.shortCircuits op old = true
    · rw [if_pos ha]
      exact course_receive_go (K := []) fun _ => if_pos ha
    · rw [if_neg ha]
      refine (course_receive_go (k := .logicalOld ref op value) (v := old) (K := [.assignValue ref])
        (C := .eval value) fun _ => if_neg ha).trans ?_
      exact (course_eval_one (fun _ _ => rfl) value).trans (bind_congr fun v => course_assignValue ref v)

/-- **An assignment to a name.** -/
theorem evaluate_assign_ident (span span' : Span) (op : AssignOp) (x : String) (value : Expr) :
    evaluate f n (.assign span op (.ident span' x) value) = assigning f n (.binding x) op value :=
  ext fun i _ => course_useReference_at (steps_eval _)
    (congrFun ((alike_here i).useReference (.assign op value) (.binding x)) _)

/-- What it is to come by the name of a member. -/
def evaluateKey (f : Frame) (n : Nat) : MemberKey → Behaviour String
  | .named name => pure name
  | .computed e => do
    let k ← evaluate f n e
    act (Act.reads (·.key k))

/-- **An assignment to a member**: the object, then its key, then the rest. -/
theorem evaluate_assign_member (span span' : Span) (op : AssignOp) (object : Expr) (key : MemberKey)
    (implicit : Bool) (value : Expr) :
    evaluate f n (.assign span op (.member span' object key implicit) value) = (do
      let target ← evaluate f n object
      let name ← evaluateKey f n key
      assigning f n (.property target name implicit) op value) := by
  refine (course_eval_go (K := [.memberTarget key (.refer implicit (.assign op value))])
    fun _ => rfl).trans ?_
  refine (course_eval_one (fun _ _ => rfl) object).trans (bind_congr fun target => ?_)
  cases key with
  | named name =>
    refine Eq.trans ?_ (pure_bind name _).symm
    exact ext fun i _ => course_useReference_at (steps_receive _ _)
      (congrFun ((alike_here i).useReference (.assign op value) (.property target name implicit)) _)
  | computed e =>
    refine (course_receive_go (K := [.memberKey target (.refer implicit (.assign op value))])
      fun _ => rfl).trans ?_
    refine Eq.trans ?_ (bind_assoc _ _ _).symm
    refine (course_eval_one (fun _ _ => rfl) e).trans (bind_congr fun k => ext fun i c ps E d => ?_)
    -- the name depends on the objects as they are now, so the two sides are compared from each core
    have hr : Act.receive (site f n i) (.memberKey target (.refer implicit (.assign op value))) k c =
        Act.useReference (here f n) (.assign op value) (.property target (c.heap.key k) implicit) c :=
      congrFun ((alike_here i).useReference _ _) c
    refine (course_useReference_at (steps_receive _ _) hr ps E d).trans ⟨fun h => ?_, fun h => ?_⟩
    · rw [← List.nil_append ps]
      exact .back (o := .ok (c.heap.key k)) ⟨rfl, rfl, rfl⟩ h
    · cases h with
      | parked hb => cases hb.2.1
      | back hb hk =>
        obtain ⟨rfl, heq, rfl⟩ := hb
        cases heq
        exact hk

end Strand

end Fermata
