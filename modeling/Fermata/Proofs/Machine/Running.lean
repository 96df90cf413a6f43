import Fermata.Engine.Drive
import Fermata.Proofs.Machine.Placed

/-!
# Running machines

`Machine.Placed` says of a whole machine that the code of each activation is in its place. A machine
that starts with a call is placed, a step keeps it placed, and so does the settlement that a parked
machine waits for. What comes out in the end can occur anywhere (`Bodies.Passes`).

* `Machine.Placed`, `Machine.Parked`: running machines and those that wait.
* `Atlas.start`, `Atlas.step`, `Machine.Parked.resume`.
* `Core.drive_running`, `Core.drive_done`, `Core.drive_parked`, `Core.drive_ready`: a drive after one step.
* `Core.drive_induct`: what is so on the way is so at the end.
-/

namespace Fermata

open Act

/-- The code of all activations is in its place. -/
def Atlas.Holds (A : Atlas) (stack : List Activation) : Prop :=
  ∀ a ∈ stack, Cont.AllIn (A.parts a) [] a.conts

/-- What happens next belongs to the innermost activation; a machine without one is at its end. -/
def Atlas.Follows (A : Atlas) (control : Control) : List Activation → Prop
  | [] => (∃ v, control = .value v) ∨ ∃ x, control = .abrupt x ∧ A.Passes x
  | a :: _ => control.In (A.parts a) (owners a.conts)

/-- All code of the machine is in its place, and it does not wait. -/
def Machine.Placed (A : Atlas) (m : Machine) : Prop :=
  A.Holds m.stack ∧ A.Follows m.control m.stack

/-- All code of the machine is in its place, and it waits for this value. -/
def Machine.Parked (A : Atlas) (m : Machine) (p : PendingId) : Prop :=
  A.Holds m.stack ∧ m.stack ≠ [] ∧ m.control = .waiting p

/-- Where a step of a placed machine leads. -/
def Progress.Placed (A : Atlas) : Progress → Prop
  | .running m => m.Placed A
  | .parked m p => m.Parked A p
  | .done (.ok _) => True
  | .done (.error x) => A.Passes x

namespace Atlas

variable {A : Atlas} {a : Activation} {callers : List Activation}

theorem Holds.tail (h : A.Holds (a :: callers)) : A.Holds callers :=
  fun b hb => h b (List.mem_cons_of_mem a hb)

theorem Holds.cons (ha : Cont.AllIn (A.parts a) [] a.conts) (h : A.Holds callers) :
    A.Holds (a :: callers) := by
  intro b hb
  rcases List.mem_cons.mp hb with rfl | hb
  · exact ha
  · exact h b hb

/-- A move that leaves code in its place leads to a placed machine. -/
theorem placed_apply {m : Move} (ha : Cont.AllIn (A.parts a) [] a.conts) (hc : A.Holds callers)
    (hm : A.Allows (A.parts a) (owners a.conts) a.frame m) :
    (Machine.apply a callers m).Placed A := by
  have hpush : ∀ ks, Cont.AllIn (A.parts a) (owners a.conts) ks →
      Cont.AllIn (A.parts a) [] (ks ++ a.conts) := fun ks hks => by
    rw [Cont.allIn_append, List.append_nil]
    exact ⟨hks, ha⟩
  cases m with
  | go push control =>
    refine ⟨Holds.cons (hpush push hm.1) hc, ?_⟩
    change control.In (A.parts a) (owners (push ++ a.conts))
    rw [owners_append]
    exact hm.2
  | linked frame v =>
    have hparts : A.parts { a with frame } = A.parts a := by
      obtain ⟨f, b, ks⟩ := a
      cases b <;> simp only [Bodies.parts, hm.unit, hm.record]
    refine ⟨Holds.cons ?_ hc, trivial⟩
    rw [hparts]
    exact ha
  | enter push inner control =>
    exact ⟨Holds.cons hm.2.1 (Holds.cons (hpush push hm.1) hc), hm.2.2⟩

theorem perform {c : Core} {p : Act Move} (hK : A.Covers c)
    (ha : Cont.AllIn (A.parts a) [] a.conts) (hc : A.Holds callers)
    (hp : A.Runs (A.parts a) (owners a.conts) ⟨a.frame, callers⟩ A.Covers p) :
    (Machine.perform a callers p c).1.Placed A := by
  have hpr := hp c hK
  unfold Machine.perform
  generalize p c = r at hpr
  cases hpr with
  | ok hm => exact placed_apply ha hc hm
  | error hx => exact ⟨Holds.cons ha hc, hx⟩

/-- The end of a body hands a value or a failure to the caller. -/
theorem placed_close {end_ : Outcome} (hc : A.Holds callers)
    (hend : ∀ x, end_ = .error x → (A.parts a).jump [] x) :
    Machine.Placed A ⟨Machine.close a.boundary end_, callers⟩ := by
  refine ⟨hc, ?_⟩
  have hout : (∃ v, Machine.close a.boundary end_ = .value v) ∨
      ∃ y, Machine.close a.boundary end_ = .abrupt y ∧ A.Passes y := by
    cases end_ with
    | ok v => cases a.boundary <;> exact .inl ⟨_, rfl⟩
    | error x =>
      have hpass := fun y => A.closing (y := y) (hend x rfl)
      cases hb : Machine.close a.boundary (.error x) with
      | value v => exact .inl ⟨v, rfl⟩
      | abrupt y => exact .inr ⟨y, rfl, hpass y hb⟩
      | _ => cases hbound : a.boundary <;> rw [hbound] at hb <;> cases x <;> cases hb
  cases callers with
  | nil => exact hout
  | cons b callers =>
    rcases hout with ⟨v, hv⟩ | ⟨y, hy, hpass⟩
    · change Control.In _ _ (Machine.close a.boundary end_)
      rw [hv]
      trivial
    · change Control.In _ _ (Machine.close a.boundary end_)
      rw [hy]
      exact hpass b _

/-- A value that passes the checkpoint, one that is looked at again, or one that is waited for. -/
theorem pass_ends (v : Value) :
    Ends (fun _ => True) (pass v)
      (fun control => (∃ p, v = .pending p ∧ control = .waiting p) ∨
        (∃ w, control = .checkpoint w) ∨ ∃ w, control = .value w) Abrupt.IsFailure := by
  cases v with
  | pending id =>
    unfold Act.pass
    intro c _
    dsimp only
    rw [reads_bind]
    cases (c.heap.pendings.get id).settlement? with
    | some s =>
      cases s with
      | fulfilled w => exact .ok (.inr (.inl ⟨w, rfl⟩))
      | rejected reason => exact .error trivial
    | none =>
      dsimp only
      rw [touch_bind]
      cases c.engine.watch with
      | armed => exact .ok (.inl ⟨id, rfl, rfl⟩)
      | disarmed => exact .ok (.inr (.inr ⟨_, rfl⟩))
      | triggered => exact .error trivial
  | _ => exact Ends.pure (.inr (.inr ⟨_, rfl⟩))

/-- **A step leaves code in its place.** -/
theorem step {m : Machine} {c : Core} (hK : A.Covers c) (hm : m.Placed A) :
    (m.step c).1.Placed A := by
  obtain ⟨control, stack⟩ := m
  obtain ⟨hstack, hnext⟩ := hm
  cases stack with
  | nil =>
    rcases hnext with ⟨v, hv⟩ | ⟨x, hx, hpass⟩
    · subst hv
      trivial
    · subst hx
      exact hpass
  | cons a callers =>
    have ha := hstack a List.mem_cons_self
    have hc := hstack.tail
    cases control with
    | eval e => exact perform hK ha hc (startExpr (fun _ h => h) hnext).runs
    | exec t labels => exact perform hK ha hc (startStmt hnext)
    | checkpoint v =>
      have hpass := pass_ends v c trivial
      unfold Machine.step
      dsimp only
      generalize Act.pass v c = r at hpass
      cases hpass with
      | ok hgo =>
        rcases hgo with ⟨p, -, rfl⟩ | ⟨w, rfl⟩ | ⟨w, rfl⟩
        · exact ⟨hstack, List.cons_ne_nil _ _, rfl⟩
        · exact ⟨hstack, trivial⟩
        · exact ⟨hstack, trivial⟩
      | error hx => exact ⟨hstack, (A.parts a).failure hx⟩
    | waiting p => exact hnext.elim
    | value v =>
      obtain ⟨frame, boundary, conts⟩ := a
      cases conts with
      | nil => exact placed_close (a := ⟨frame, boundary, []⟩) hc nofun
      | cons k conts =>
        have hk := ha.1
        rw [List.append_nil] at hk
        exact perform (a := ⟨frame, boundary, conts⟩) hK ha.2 hc (receive (fun _ h => h) hk v)
    | abrupt x =>
      obtain ⟨frame, boundary, conts⟩ := a
      cases conts with
      | nil =>
        refine placed_close (a := ⟨frame, boundary, []⟩) hc fun y hy => ?_
        cases hy
        exact hnext
      | cons k conts =>
        have hk := ha.1
        rw [List.append_nil] at hk
        have hx : (A.parts ⟨frame, boundary, conts⟩).jump (owners [k] ++ owners conts) x := by
          rw [← owners_append]
          exact hnext
        exact perform (a := ⟨frame, boundary, conts⟩) hK ha.2 hc (intercept hk hx)

/-- A machine that starts with a call is placed. -/
theorem start {c : Core} {p : Act Move} (hp : Ends (· = c) p A.Calls Abrupt.IsFailure) :
    (Machine.start p c).1.Placed A := by
  have hpr := hp c rfl
  unfold Machine.start
  generalize p c = r at hpr
  cases hpr with
  | @ok m c' hm =>
    cases m with
    | go push control =>
      obtain ⟨-, v, rfl⟩ := hm
      exact ⟨nofun, .inl ⟨v, rfl⟩⟩
    | linked frame v => exact hm.elim
    | enter push a control => exact ⟨Holds.cons hm.2.1 nofun, hm.2.2⟩
  | error hx => exact ⟨nofun, .inr ⟨_, rfl, fun a os => (A.parts a).failure hx⟩⟩

end Atlas

/-- What happens next once a value that was waited for is settled. -/
def Settlement.control : Settlement → Control
  | .fulfilled v => .checkpoint v
  | .rejected reason => .abrupt (.thrown reason)

theorem Machine.resume_waiting {m : Machine} {p : PendingId} (hm : m.control = .waiting p)
    (s : Settlement) : m.resume s = .ok { m with control := s.control } := by
  unfold resume
  rw [hm]
  cases s <;> rfl

/-- A machine that goes on with a settlement does so at its control. -/
theorem Machine.eq_of_resume {m m' : Machine} {s : Settlement} (h : m.resume s = .ok m') :
    m' = { m with control := s.control } := by
  unfold resume at h
  split at h <;> cases h <;> rfl

/-- The settlement of a value that a machine waits for leaves it placed. -/
theorem Machine.Parked.resume {A : Atlas} {m : Machine} {p : PendingId} (hm : m.Parked A p)
    (s : Settlement) : Machine.Placed A { m with control := s.control } := by
  obtain ⟨control, stack⟩ := m
  obtain ⟨hstack, hne, -⟩ := hm
  refine ⟨hstack, ?_⟩
  cases stack with
  | nil => exact absurd rfl hne
  | cons a callers =>
    cases s with
    | fulfilled v => trivial
    | rejected reason => exact (A.parts a).failure trivial

/-! ## Whatever the code

An atlas that asks nothing of the code still says that a running machine does not wait, and what the
acts of a step may do to a frame. -/

/-- Everything belongs to the body. -/
def Parts.any : Parts where
  name _ := True
  expr _ := True
  stmt _ := True
  jump _ _ := True
  expr_parts _ _ _ := trivial
  expr_ident _ := trivial
  stmt_exprs _ _ _ := trivial
  stmt_names _ _ _ := trivial
  stmt_inside _ _ _ := trivial
  stmt_jumps _ _ _ := trivial
  failure _ := trivial
  pass _ _ := trivial

namespace Parts

variable {os : List Owner}

theorem in_any_reference (ref : Reference) : ref.In .any := by
  cases ref <;> trivial

theorem in_any_target (t : ForTarget) : t.In .any := by
  cases t <;> trivial

theorem in_any_loop (l : Loop) : l.In .any os := by
  refine ⟨?_, trivial⟩
  cases l.kind with
  | forLoop => exact ⟨fun _ _ => trivial, fun _ _ => trivial⟩
  | forEach target => exact in_any_target target
  | _ => trivial

theorem in_any_use (use : ReferenceUse) : use.In .any os := by
  cases use with
  | loopItem loop => exact in_any_loop loop
  | _ => trivial

theorem in_any_member (use : MemberUse) : use.In .any os := by
  cases use with
  | callee => exact fun _ _ => trivial
  | refer _ use => exact in_any_use use
  | _ => trivial

theorem in_any_list (use : ListUse) : use.In .any := by
  cases use <;> trivial

theorem in_any_after (after : DeclareEnd) : after.In .any os := by
  cases after with
  | done => trivial
  | loop l => exact in_any_loop l

/-- Every continuation is in place. -/
theorem in_any (k : Cont) : k.In .any os := by
  cases k with
  | element use => exact ⟨in_any_list use, fun _ _ => trivial⟩
  | memberTarget _ use => exact ⟨fun _ _ => trivial, in_any_member use⟩
  | memberKey _ use => exact in_any_member use
  | updateOld ref | assignValue ref | compoundValue ref => exact in_any_reference ref
  | compoundOld ref | logicalOld ref => exact ⟨in_any_reference ref, trivial⟩
  | declare _ rest after =>
    exact ⟨trivial, fun _ _ => ⟨trivial, fun _ _ => trivial⟩, in_any_after after⟩
  | choose => exact ⟨trivial, trivial⟩
  | cond => exact ⟨trivial, fun _ _ => trivial⟩
  | ret => exact fun _ => trivial
  | loopInit l | loopTest l | loopBody l | loopUpdate l => exact in_any_loop l
  | eachSource _ target => exact ⟨in_any_target target, trivial⟩
  | property | callee | method | sequence | body => exact fun _ _ => trivial
  | _ => trivial

end Parts

/-- Everything belongs to every body. -/
def Atlas.any : Atlas where
  ofUnit _ := .any
  ofFunction _ _ := .any
  code _ _ _ := trivial
  closing _ _ a _ := by
    cases a with
    | mk frame boundary conts => cases boundary <;> trivial

theorem Atlas.covers_any (c : Core) : Atlas.any.Covers c := fun _ _ _ => trivial

/-!
## Drives

What a drive does after one step of its machine. Whether it goes on where the machine came to wait depends
on the pending value alone.
-/

/-- Nothing settles the value on the spot. -/
def Heap.Unready (h : Heap) (p : PendingId) : Prop :=
  ∀ s, h.pendings.get p = .scheduled s → h.process.ripe p = false

theorem Heap.unready_of_ne {h : Heap} {p : PendingId}
    (hp : ∀ s, h.pendings.get p ≠ .scheduled s) : h.Unready p := fun s hs => absurd hs (hp s)

variable {m m₁ : Machine} {c d : Core} {p : PendingId} {s : Settlement}

/-- Where a machine stands it waits. -/
theorem Machine.control_of_step (hstep : m.step c = (.parked m₁ p, d)) :
    m₁.control = .waiting p := by
  have hperform : ∀ a callers act, Machine.perform a callers act c ≠ (.parked m₁ p, d) := by
    intro a callers act heq
    unfold Machine.perform at heq
    split at heq <;> cases heq
  obtain ⟨control, stack⟩ := m
  unfold Machine.step at hstep
  cases stack with
  | nil => cases control <;> cases hstep
  | cons a callers =>
    cases control with
    | eval e => exact absurd hstep (hperform _ _ _)
    | exec t labels => exact absurd hstep (hperform _ _ _)
    | waiting q =>
      cases hstep
      rfl
    | checkpoint v =>
      dsimp only at hstep
      split at hstep <;> cases hstep
      rfl
    | value v =>
      dsimp only at hstep
      split at hstep
      · cases hstep
      · exact absurd hstep (hperform _ _ _)
    | abrupt x =>
      dsimp only at hstep
      split at hstep
      · cases hstep
      · exact absurd hstep (hperform _ _ _)

namespace Core

theorem drive_running (hstep : m.step c = (.running m₁, d)) (n : Nat) :
    c.drive (n + 1) m = d.drive n m₁ := by
  simp only [drive, hstep]

theorem drive_done {outcome : Outcome} (hstep : m.step c = (.done outcome, d)) (n : Nat) :
    c.drive (n + 1) m = (.done outcome, d) := by
  simp only [drive, hstep]

/-- A value that nothing settles on the spot leaves the evaluation parked. -/
theorem drive_parked (hstep : m.step c = (.parked m₁ p, d)) (hp : d.heap.Unready p) (n : Nat) :
    c.drive (n + 1) m = (.parked m₁ p, d.record (d.suspension m₁ p)) := by
  simp only [drive, hstep]
  split
  next s hs => exact if_neg (ne_true_of_eq_false (hp s hs))
  next => rfl

/-- A value that is ready to settle by itself is settled when it is met. -/
theorem drive_ready (hstep : m.step c = (.parked m₁ p, d)) (hs : d.heap.pendings.get p = .scheduled s)
    (hripe : d.heap.process.ripe p = true) {m₂ : Machine} (hresume : m₁.resume s = .ok m₂) (n : Nat) :
    c.drive (n + 1) m =
      (((d.record (d.suspension m₁ p)).settle p s).watching .armed).drive n m₂ := by
  simp only [drive, hstep]
  split
  next s' hs' =>
    obtain rfl := Pending.scheduled.inj (hs.symm.trans hs')
    refine (if_pos hripe).trans ?_
    rw [hresume]
  next hother => exact absurd hs (hother s)

/-- **What a drive keeps.** If something is so at first, stays so with every step of the machine, and stays
so with every settlement on the spot, then a drive stops with what follows from it. -/
theorem drive_induct {P : Machine → Core → Prop} {Q : Stop × Core → Prop}
    (fuel : ∀ {m c}, P m c → Q (.outOfFuel m, c))
    (done : ∀ {m c outcome d}, P m c → m.step c = (.done outcome, d) → Q (.done outcome, d))
    (running : ∀ {m c m₁ d}, P m c → m.step c = (.running m₁, d) → P m₁ d)
    (parked : ∀ {m c m₁ p d}, P m c → m.step c = (.parked m₁ p, d) →
      Q (.parked m₁ p, d.record (d.suspension m₁ p)))
    (settled : ∀ {m c m₁ p d s}, P m c → m.step c = (.parked m₁ p, d) →
      d.heap.pendings.get p = .scheduled s → d.heap.process.ripe p = true →
      P { m₁ with control := s.control }
        (((d.record (d.suspension m₁ p)).settle p s).watching .armed))
    (n : Nat) (h : P m c) : Q (c.drive n m) := by
  induction n generalizing m c with
  | zero => exact fuel h
  | succ n ih =>
    cases hstep : m.step c with
    | mk progress d =>
      cases progress with
      | running m₁ =>
        rw [drive_running hstep]
        exact ih (running h hstep)
      | done outcome =>
        rw [drive_done hstep]
        exact done h hstep
      | parked m₁ p =>
        have hstands : d.heap.Unready p → Q (c.drive (n + 1) m) := fun hp => by
          rw [drive_parked hstep hp]
          exact parked h hstep
        cases hs : d.heap.pendings.get p with
        | scheduled s =>
          cases hripe : d.heap.process.ripe p with
          | true =>
            rw [drive_ready hstep hs hripe (Machine.resume_waiting (Machine.control_of_step hstep) s)]
            exact ih (settled h hstep hs hripe)
          | false => exact hstands fun _ _ => hripe
        | _ => exact hstands (Heap.unready_of_ne fun s hs' => by cases hs.symm.trans hs')

end Core

end Fermata
