import Fermata.Proofs.Custody.Tolerance
import Fermata.Proofs.Frame.Balance
import Fermata.Proofs.Realm.Clean

/-!
# The checkpoint

Every value that an expression comes to passes the checkpoint before anything is done with it. There a
settled pending value gives way to what it came to in the end (`Heap.Resolves`), and an unsettled one stops
the evaluation. So no continuation keeps a pending value or receives one (`Machine.Clean`), and none gets
into a cell except as the copy of an element (`Machine.Taken`).

* `Machine.Clean.step`: a step of a machine that somebody watches.
* `Machine.Driven.delivers`: what an expression comes to.
* `Machine.resolves`: chains of settled pending values.
* `Session.checkpoint_holds`: all of this on every run of every session.
-/

namespace Fermata

open Act

namespace Machine

variable {m m' m₀ : Machine} {c c' d : Core} {a b : Activation} {callers bs : List Activation}
  {new listed : PendingId → Prop} {v : Value}

/-! ## Machines that hold no pending values -/

/-- The continuation that the next value goes to. -/
def cont? (m : Machine) : Option Cont := m.stack.head?.bind (·.conts.head?)

/-- The items that loops are still to go through. -/
def items (m : Machine) : List Value := m.stack.flatMap fun a => a.conts.flatMap Cont.items

/-- Continuations keep no pending values, items of loops apart, and receive none, but for the one that
hands its value to the checkpoint; no function returns one. -/
structure Clean (m : Machine) : Prop where
  keeps : ∀ a ∈ m.stack, ∀ k ∈ a.conts, ∀ v ∈ k.kept, v.isPending = false
  receives : ∀ v, m.control = .value v → m.stack ≠ [] → m.cont? ≠ some .settle → v.isPending = false
  returns : ∀ v, m.control = .abrupt (.ret v) → v.isPending = false

theorem mem_items {k : Cont} (ha : a ∈ m.stack) (hk : k ∈ a.conts) (hv : v ∈ k.items) :
    v ∈ m.items :=
  List.mem_flatMap.mpr ⟨a, ha, List.mem_flatMap.mpr ⟨k, hk, hv⟩⟩

variable {start : Core} {hnew : ∀ p, new p → listed p}

theorem Clean.safe (h : m.Clean) (hitems : ∀ v ∈ m.items, v.Within (Cell.Admitted listed)) :
    (Realm.clean start new listed hnew).Safe m c := by
  refine ⟨fun a ha => ⟨fun k hk => ⟨fun v hv => ?_, fun v hv => ?_⟩, nofun⟩, ?_⟩
  · exact Value.within_isFinal.mpr (h.keeps a ha k hk v hv)
  · exact hitems v (mem_items ha hk hv)
  · obtain ⟨control, stack⟩ := m
    cases control with
    | value v =>
      cases stack with
      | nil => exact .inr ⟨fun _ _ => trivial, rfl⟩
      | cons a callers =>
        by_cases hsettle : a.conts.head? = some .settle
        · exact .inr ⟨fun _ _ => trivial, hsettle⟩
        · exact .inl (Value.within_isFinal.mpr (h.receives v rfl (List.cons_ne_nil _ _) hsettle))
    | abrupt x =>
      have hx : (Realm.clean start new listed hnew).Bears c x := by
        cases x with
        | ret v => exact Value.within_isFinal.mpr (h.returns v rfl)
        | thrown v => exact fun _ _ => trivial
        | _ => trivial
      cases stack <;> exact hx
    | checkpoint v => cases stack <;> exact fun _ _ => trivial
    | _ => cases stack <;> trivial

theorem Clean.of_safe (h : (Realm.clean start new listed hnew).Safe m c) : m.Clean := by
  refine ⟨fun a ha k hk v hv => ?_, fun v hv hstack hcont => ?_, fun v hv => ?_⟩
  · exact Value.within_isFinal.mp (((h.stack a ha).conts k hk).kept v hv)
  · have hcontrol := h.control
    obtain ⟨control, stack⟩ := m
    obtain rfl : control = .value v := hv
    cases stack with
    | nil => exact absurd rfl hstack
    | cons a callers => exact Value.within_isFinal.mp (hcontrol.resolve_right fun hv => hcont hv.2)
  · have hcontrol := h.control
    obtain ⟨control, stack⟩ := m
    obtain rfl : control = .abrupt (.ret v) := hv
    cases stack <;> exact Value.within_isFinal.mp hcontrol

theorem items_of_safe (h : (Realm.clean start new listed hnew).Safe m c) :
    ∀ v ∈ m.items, v.Within (Cell.Admitted listed) := by
  intro v hv
  obtain ⟨a, ha, hv⟩ := List.mem_flatMap.mp hv
  obtain ⟨k, hk, hv⟩ := List.mem_flatMap.mp hv
  exact ((h.stack a ha).conts k hk).items v hv

/-- A settlement takes the place of the value that the machine waits for. -/
theorem Clean.resume {s : Settlement} (h : m.Clean) (hresume : m.resume s = .ok m') : m'.Clean := by
  unfold Machine.resume at hresume
  split at hresume
  · cases hresume
    exact ⟨h.keeps, nofun, nofun⟩
  · cases hresume
    exact ⟨h.keeps, nofun, nofun⟩
  · cases hresume

/-! ## Steps -/

/-- The next step may put the pending value into a cell. -/
def Copies (m : Machine) (c : Core) (p : PendingId) : Prop := .pending p ∈ m.copied c

/-- The pending value may be an item of a loop after the next step. -/
def Lists (m : Machine) (c : Core) (p : PendingId) : Prop := .pending p ∈ m.items ∨ m.Copies c p

theorem admitted_of_mem {vs : List Value} (hvs : ∀ p, .pending p ∈ vs → new p) :
    ∀ v ∈ vs, v.Within (Cell.Admitted new) := by
  rintro v hv x hx p rfl
  cases v <;> cases hx
  exact hvs p hv

/-- The realm of one step. -/
abbrev realm (m : Machine) (c : Core) : Realm := .clean c (m.Copies c) (m.Lists c) fun _ => .inr

theorem Clean.steps (h : m.Clean) (hwatch : c.engine.watch = .armed) :
    (m.realm c).Steps c (m.step c) (m.step c) :=
  Realm.step ⟨rfl, .refl c⟩ (h.safe (admitted_of_mem fun _ => .inl)) hwatch
    (admitted_of_mem fun _ hp => hp)

/-- **A step of a machine that somebody watches** leaves no pending value with a continuation, and puts
none into a cell but those that it copies. -/
theorem Clean.step (h : m.Clean) (hwatch : c.engine.watch = .armed)
    (hstep : m.step c = (.running m', c')) :
    m'.Clean ∧ c'.engine.watch = .armed ∧ ∀ p, .pending p ∈ m'.items → m.Lists c p := by
  have hsteps := h.steps hwatch
  rw [hstep] at hsteps
  cases hsteps with
  | running hrel hl hsafe =>
    refine ⟨.of_safe hsafe, hl.watch.trans hwatch, fun p hp => ?_⟩
    exact items_of_safe hsafe _ hp (.pending p) rfl p rfl

theorem Clean.adds (h : m.Clean) (hwatch : c.engine.watch = .armed) :
    c.Adds (m.Copies c) (m.step c).2 := by
  have hsteps := h.steps hwatch
  generalize m.step c = r at hsteps
  cases hsteps with
  | running hrel | parked hrel | done hrel => exact hrel.2

/-- A machine that stands is waiting. -/
theorem Clean.parked {p : PendingId} (h : m.Clean) (hwatch : c.engine.watch = .armed)
    (hstep : m.step c = (.parked m' p, c')) : m'.Clean ∧ m'.control = .waiting p := by
  have hsteps := h.steps hwatch
  rw [hstep] at hsteps
  cases hsteps with
  | parked _ _ hsafe hcontrol => exact ⟨.of_safe hsafe, hcontrol⟩

/-! ## What expressions come to -/

/-- The states of an evaluation until it is back, under a watch. From one step to the next, and while it
waits, anything may happen to the core. -/
inductive Driven (a : Activation) (callers : List Activation) (m₀ : Machine) : Machine → Prop
  | start : Driven a callers m₀ m₀
  | step {m m' : Machine} {c d : Core} (h : Driven a callers m₀ m) (hback : ¬ Back a callers m)
      (hwatch : c.engine.watch = .armed) (hstep : m.step c = (.running m', d)) :
      Driven a callers m₀ m'
  | park {m m' : Machine} {p : PendingId} {c d : Core} (h : Driven a callers m₀ m)
      (hback : ¬ Back a callers m) (hwatch : c.engine.watch = .armed)
      (hstep : m.step c = (.parked m' p, d)) : Driven a callers m₀ m'
  | resume {m m' : Machine} {s : Settlement} (h : Driven a callers m₀ m)
      (hresume : m.resume s = .ok m') : Driven a callers m₀ m'

/-- An activation that was pushed something is not back where it was. -/
theorem not_back_pushing {k : Cont} {push : List Cont} {control : Control}
    (h : Over a callers ⟨control, b :: bs⟩) (control' : Control) :
    ¬ Back a callers ⟨control', b.pushing (k :: push) :: bs⟩ := by
  obtain ⟨above, b', hstack, f, ks, rfl, -⟩ := h
  rintro ⟨-, hlength, hconts⟩
  cases above with
  | nil =>
    obtain ⟨rfl, rfl⟩ := List.cons.inj hstack
    simp only [Activation.pushing, List.head?_cons, Option.map_some, List.length_append,
      List.length_cons, Option.some.injEq] at hconts
    omega
  | cons x above =>
    have habove := congrArg List.length hstack
    simp only [List.length_cons, List.length_append] at habove hlength
    omega

/-- An activation that is entered is not the one below it. -/
theorem not_back_entering {inner : Activation} {control : Control}
    (h : Over a callers ⟨control, b :: bs⟩) (control' : Control) (push : List Cont) :
    ¬ Back a callers ⟨control', inner :: b.pushing push :: bs⟩ := by
  obtain ⟨above, b', hstack, -⟩ := h
  rintro ⟨-, hlength, -⟩
  have habove := congrArg List.length hstack
  simp only [List.length_cons, List.length_append] at habove hlength
  omega

/-- What an act hands to its activation at once is no pending value, if the evaluation is back with it. -/
theorem final_of_perform {act : Act Move} {control : Control}
    (hact : (Realm.clean start new listed hnew).Moves act c c) (hover : Over a callers ⟨control, b :: bs⟩)
    (hperform : perform b bs act c = (.running m', c')) (hback : Back a callers m')
    (hv : m'.control = .value v) : v.isPending = false := by
  unfold perform at hperform
  unfold Realm.Moves Realm.Gives at hact
  generalize act c = r at hact hperform
  cases hact with
  | error => cases hperform; cases hv
  | @ok move _ _ _ _ hmove =>
    cases hperform
    cases move with
    | go push next =>
      obtain rfl : next = .value v := hv
      rcases hmove.2 with hv | ⟨-, hpush⟩
      · exact Value.within_isFinal.mp hv
      · cases push with
        | nil => cases hpush
        | cons k push => exact absurd hback (not_back_pushing hover _)
    | linked frame w => cases hv
    | enter push inner next => exact absurd hback (not_back_entering hover _ push)

theorem isPending_eq_false : v.isPending = false ↔ ∀ p, v ≠ .pending p := by
  cases v with
  | pending p => exact ⟨nofun, fun h => absurd rfl (h p)⟩
  | _ => exact ⟨fun _ => nofun, fun _ => rfl⟩

/-- What the checkpoint lets pass is not pending. -/
theorem final_of_checkpoint {w : Value} (hwatch : c.engine.watch = .armed)
    (hstep : step ⟨.checkpoint w, b :: bs⟩ c = (.running m', c')) (hv : m'.control = .value v) :
    v.isPending = false := by
  by_cases hw : ∃ p, w = .pending p
  · obtain ⟨p, rfl⟩ := hw
    cases hs : (c.heap.pendings.get p).settlement? with
    | some s =>
      rw [step_checkpoint_settled b bs hs] at hstep
      cases hstep
      cases s <;> cases hv
    | none =>
      rw [step_checkpoint_unsettled b bs hs hwatch] at hstep
      cases hstep
  · rw [step_checkpoint_plain b bs fun p hp => hw ⟨p, hp⟩] at hstep
    cases hstep
    cases hv
    exact isPending_eq_false.mpr fun p hp => hw ⟨p, hp⟩

/-- What an activation hands back at its end is not pending. -/
theorem final_of_close {o : Boundary} {x : Outcome}
    (hvalue : ∀ w, x = .ok w → w.isPending = false)
    (hreturn : ∀ w, x = .error (.ret w) → w.isPending = false)
    (hv : close o x = .value v) : v.isPending = false := by
  cases o with
  | unit =>
    cases x with
    | ok w =>
      cases hv
      exact hvalue _ rfl
    | error x => cases hv
  | function name =>
    cases x with
    | ok w =>
      cases hv
      rfl
    | error y =>
      cases y with
      | ret w =>
        cases hv
        exact hreturn _ rfl
      | _ => cases hv

/-- A step that comes back with a value comes back with one that is not pending. -/
theorem Clean.final_of_step (h : m.Clean) (hwatch : c.engine.watch = .armed)
    (hover : Over a callers m) (hback : ¬ Back a callers m) (hstep : m.step c = (.running m', c'))
    (hback' : Back a callers m') (hv : m'.control = .value v) : v.isPending = false := by
  have hrel : (m.realm c).rel c c := ⟨rfl, .refl c⟩
  have hsafe : (m.realm c).Safe m c := h.safe (admitted_of_mem fun _ => .inl)
  have hcopies : ∀ w ∈ m.copied c, (m.realm c).Puts c w := admitted_of_mem fun _ hp => hp
  obtain ⟨b, bs, hstack, htop⟩ := hover.top
  obtain ⟨control, stack⟩ := m
  obtain rfl : stack = b :: bs := hstack
  have hcontrol := hsafe.control
  cases control with
  | eval e =>
    have hact := Realm.startExpr (s := ⟨(b.mark e.span).frame, bs⟩) hrel nofun e
    exact final_of_perform hact (htop ⟨.eval e, _⟩ ⟨[], _, rfl, .mark b e.span⟩) hstep hback' hv
  | exec t labels =>
    have hact := Realm.startStmt (s := ⟨(b.mark t.span).frame, bs⟩) hrel nofun t labels
    exact final_of_perform hact (htop ⟨.exec t labels, _⟩ ⟨[], _, rfl, .mark b t.span⟩) hstep hback' hv
  | checkpoint w => exact final_of_checkpoint hwatch hstep hv
  | waiting p => cases hstep
  | value w =>
    obtain ⟨hpop, -⟩ := hover.next hback rfl (.inl ⟨w, rfl⟩)
    obtain ⟨frame, boundary, conts⟩ := b
    cases conts with
    | nil =>
      cases hstep
      refine final_of_close (x := .ok w) (fun u hu => ?_) nofun hv
      cases hu
      exact h.receives w rfl (List.cons_ne_nil _ _) nofun
    | cons k ks =>
      have hact := Realm.receive (s := ⟨frame, bs⟩) hrel nofun
        ((hsafe.stack _ List.mem_cons_self).conts k List.mem_cons_self) hcopies
        (hcontrol.imp_right fun hw => ⟨hw.1, Option.some.inj hw.2⟩)
      exact final_of_perform hact (hpop k ks rfl ⟨.value w, _⟩ ⟨[], _, rfl, .refl _⟩) hstep hback' hv
  | abrupt x =>
    obtain ⟨hpop, -⟩ := hover.next hback rfl (.inr ⟨x, rfl⟩)
    obtain ⟨frame, boundary, conts⟩ := b
    cases conts with
    | nil =>
      cases hstep
      refine final_of_close (x := .error x) nofun (fun u hu => ?_) hv
      cases hu
      exact h.returns u rfl
    | cons k ks =>
      have hkept := ((hsafe.stack _ List.mem_cons_self).conts k List.mem_cons_self).kept
      have hact := Realm.intercept (s := ⟨frame, bs⟩) hrel nofun ⟨hkept, hcopies⟩ hcontrol
      exact final_of_perform hact (hpop k ks rfl ⟨.abrupt x, _⟩ ⟨[], _, rfl, .refl _⟩) hstep hback' hv

/-- What holds of an evaluation on its way: it is clean, and if it is back with a value, the value is not
pending. -/
structure Final (a : Activation) (callers : List Activation) (m : Machine) : Prop where
  clean : m.Clean
  above : Over a callers m
  value : ∀ v, m.control = .value v → Back a callers m → v.isPending = false

theorem Driven.final (h : Driven a callers m₀ m) (h₀ : Final a callers m₀) : Final a callers m := by
  induction h with
  | start => exact h₀
  | @step m m' c d _ hback hwatch hstep ih =>
    have hover := ih.above.step (c := c) hback
    rw [hstep] at hover
    exact ⟨(ih.clean.step hwatch hstep).1, hover, fun v hv hback' =>
      ih.clean.final_of_step hwatch ih.above hback hstep hback' hv⟩
  | @park m m' p c d _ hback hwatch hstep ih =>
    have hover := ih.above.step (c := c) hback
    rw [hstep] at hover
    obtain ⟨hclean, hcontrol⟩ := ih.clean.parked hwatch hstep
    refine ⟨hclean, hover, fun v hv _ => ?_⟩
    rw [hcontrol] at hv
    cases hv
  | @resume m m' s _ hresume ih =>
    refine ⟨ih.clean.resume hresume, ih.above.resume hresume, fun v hv _ => ?_⟩
    unfold Machine.resume at hresume
    split at hresume <;> cases hresume <;> cases hv

/-- **What an expression comes to is no pending value**, however long it takes. -/
theorem Driven.delivers {e : Expr} (hclean : Clean ⟨.eval e, a :: callers⟩)
    (h : Driven a callers ⟨.eval e, a :: callers⟩ m) (hback : Back a callers m)
    (hv : m.control = .value v) : v.isPending = false :=
  (h.final ⟨hclean, ⟨[], a, rfl, .refl a⟩, nofun⟩).value v hv hback

end Machine

/-! ## Chains of settled values -/

/-- What a value comes to at the checkpoint, along pending values that were fulfilled with pending
values, to the last one or to a rejection. -/
inductive Heap.Resolves (h : Heap) : Value → Settlement → Prop
  | final {v} : v.isPending = false → Resolves h v (.fulfilled v)
  | fulfilled {p w s} : (h.pendings.get p).settlement? = some (.fulfilled w) → Resolves h w s →
      Resolves h (.pending p) s
  | rejected {p reason} : (h.pendings.get p).settlement? = some (.rejected reason) →
      Resolves h (.pending p) (.rejected reason)

/-- What an evaluation goes on with behind the checkpoint. -/
def Settlement.passed : Settlement → Control
  | .fulfilled v => .value v
  | .rejected reason => .abrupt (.thrown reason)

theorem Heap.Resolves.isPending_eq_false {h : Heap} {v w : Value}
    (hv : h.Resolves v (.fulfilled w)) : w.isPending = false := by
  generalize hs : Settlement.fulfilled w = s at hv
  induction hv with
  | final hfinal =>
    cases hs
    exact hfinal
  | fulfilled _ _ ih => exact ih hs
  | rejected => cases hs

namespace Machine

variable {m m' : Machine} {c c' : Core} {a : Activation} {callers : List Activation} {v : Value}

/-- **A settled value gives way to what it came to**, and nothing else changes. -/
theorem resolves {s : Settlement} (h : c.heap.Resolves v s) :
    Relation.ReflTransGen (fun m m' => step m c = (.running m', c)) ⟨.checkpoint v, a :: callers⟩
      ⟨s.passed, a :: callers⟩ := by
  induction h with
  | final hv => exact .single (step_checkpoint_plain a callers (isPending_eq_false.mp hv))
  | fulfilled hset _ ih => exact .head (step_checkpoint_settled a callers hset) ih
  | rejected hset => exact .single (step_checkpoint_settled a callers hset)

/-! ## Calls -/

end Machine

/-- A call by guest code: with `new` or without, of what, on what, and with what. -/
structure Call where
  isNew : Bool
  callee : Value
  this : Value
  args : List Value

/-- What the call does. -/
def Call.act (call : Call) (s : Site) : Act Move :=
  if call.isNew then construct s.depth call.callee call.args
  else useList s (.call call.callee call.this) call.args

/-- The call that a continuation makes with the value that it receives. -/
def Cont.call? (k : Cont) (v : Value) : Option Call :=
  match k with
  | .element (.call fn this) before [] => some ⟨false, fn, this, (v :: before).reverse⟩
  | .callee [] => some ⟨false, v, .undefined, []⟩
  | .method receiver [] => some ⟨false, v, receiver, []⟩
  | .constructed args => some ⟨true, v, .undefined, args⟩
  | _ => none

theorem Act.receive_call {s : Site} {k : Cont} {v : Value} {call : Call} (h : k.call? v = some call) :
    receive s k v = call.act s := by
  unfold Cont.call? at h
  split at h <;> cases h <;> rfl

namespace Machine

variable {m m' : Machine} {c c' : Core} {a : Activation} {callers : List Activation} {v : Value}

/-- The call that the next step makes. -/
def call? (m : Machine) : Option Call :=
  match m.stack, m.control with
  | ⟨_, _, k :: _⟩ :: _, .value v => k.call? v
  | _, _ => none

/-- The step is the call, and nothing that it is made of is pending. -/
structure Calls (m : Machine) (call : Call) : Prop where
  step : ∃ a callers, ∀ c, m.step c = perform a callers (call.act ⟨a.frame, callers⟩) c
  callee : call.callee.isPending = false
  this : call.this.isPending = false
  args : ∀ v ∈ call.args, v.isPending = false

theorem final_of_call {k : Cont} {call : Call} (hkept : ∀ w ∈ k.kept, w.isPending = false)
    (hv : v.isPending = false) (hcall : k.call? v = some call) :
    call.callee.isPending = false ∧ call.this.isPending = false ∧
      ∀ w ∈ call.args, w.isPending = false := by
  unfold Cont.call? at hcall
  split at hcall
  · rename_i fn this before
    cases hcall
    refine ⟨hkept fn List.mem_cons_self, hkept this (List.mem_cons_of_mem _ List.mem_cons_self), ?_⟩
    intro w hw
    rcases List.mem_cons.mp (List.mem_reverse.mp hw) with rfl | hw
    · exact hv
    · exact hkept w (List.mem_cons_of_mem _ (List.mem_cons_of_mem _ hw))
  · cases hcall
    exact ⟨hv, rfl, List.forall_mem_nil _⟩
  · rename_i receiver
    cases hcall
    exact ⟨hv, hkept receiver List.mem_cons_self, List.forall_mem_nil _⟩
  · cases hcall
    exact ⟨hv, rfl, hkept⟩
  · cases hcall

/-- **Guest code calls nothing with a pending value**, and no pending value. -/
theorem Clean.calls (h : m.Clean) {call : Call} (hcall : m.call? = some call) : m.Calls call := by
  obtain ⟨control, stack⟩ := m
  unfold call? at hcall
  dsimp only at hcall
  split at hcall
  · rename_i frame boundary k ks callers v
    have hv : v.isPending = false := by
      refine h.receives v rfl (List.cons_ne_nil _ _) fun hk => ?_
      rw [show k = .settle from Option.some.inj hk] at hcall
      cases hcall
    obtain ⟨hcallee, hthis, hargs⟩ := final_of_call
      (h.keeps _ List.mem_cons_self k List.mem_cons_self) hv hcall
    refine ⟨⟨⟨frame, boundary, ks⟩, callers, fun c => ?_⟩, hcallee, hthis, hargs⟩
    rw [← receive_call hcall]
    rfl
  · cases hcall

end Machine

/-! ## Copies -/

namespace Core

variable {c : Core} {p : PendingId}

/-- What an object holds is among its values or entries only if the object holds it. -/
theorem holds_of_values {id : ObjectId} (h : .pending p ∈ (c.heap.objects.get id).values) :
    c.Holds (.object id) p := by
  by_contra hnot
  exact (not_holds_object.mp hnot).values _ h (.pending p) rfl rfl

theorem holds_of_entries {id : ObjectId} {k : String}
    (h : (k, .pending p) ∈ (c.heap.objects.get id).entries) : c.Holds (.object id) p := by
  by_contra hnot
  exact (not_holds_object.mp hnot).entries _ h (.pending p) rfl rfl

/-- A native function copies elements of arrays. -/
theorem holds_of_value_copies {fn this : Value} (h : .pending p ∈ fn.copies c.heap this) :
    ∃ id, c.Holds (.object id) p := by
  unfold Value.copies at h
  split at h
  · unfold Builtin.copies at h
    split at h
    · cases ha : c.heap.array? this with
      | none =>
        rw [ha] at h
        cases h
      | some id =>
        rw [ha] at h
        exact ⟨id, holds_of_values h⟩
    · cases h
  · cases h

/-- A loop over a collection copies its values. -/
theorem holds_of_each_copies {kind : EachKind} {v : Value} (h : .pending p ∈ kind.copies c.heap v) :
    ∃ id, c.Holds (.object id) p := by
  unfold EachKind.copies at h
  split at h
  · cases h
  · unfold Act.loopValues? at h
    split at h
    · obtain ⟨x, -, hx⟩ := List.mem_map.mp h
      cases hx
    · rename_i id
      refine ⟨id, ?_⟩
      simp only [Option.getD_some] at h
      split at h
      · exact holds_of_values h
      · obtain ⟨e, he, hep⟩ := List.mem_map.mp h
        exact holds_of_entries (k := e.1) (hep ▸ he)
    · cases h

end Core

theorem Machine.mem_items_of_head {frame : Frame} {boundary : Boundary} {k : Cont} {ks : List Cont}
    {callers : List Activation} {control : Control} {v : Value} (hv : v ∈ k.items) :
    v ∈ items ⟨control, ⟨frame, boundary, k :: ks⟩ :: callers⟩ :=
  mem_items (a := ⟨frame, boundary, k :: ks⟩) List.mem_cons_self List.mem_cons_self hv

/-- Whatever a step copies is in an object, or an item of a loop. -/
theorem Machine.holds_of_copies {m : Machine} {c : Core} {p : PendingId} (h : m.Copies c p) :
    (∃ id, c.Holds (.object id) p) ∨ .pending p ∈ m.items := by
  obtain ⟨control, stack⟩ := m
  unfold Copies copied at h
  dsimp only at h
  split at h
  · unfold Cont.copies at h
    split at h
    · unfold ListUse.copies at h
      split at h
      · exact .inl (Core.holds_of_value_copies h)
      · cases h
    · exact .inl (Core.holds_of_value_copies h)
    · exact .inl (Core.holds_of_each_copies h)
    · exact .inr (mem_items_of_head h)
  · exact .inr (mem_items_of_head h)
  · cases h

/-! ## Sessions -/

namespace Session

variable {H : Host} {s t : Session} {i : Nat} {m : Machine} {c : Core}

/-- The pending values that a request may put into cells: those that the host hands over, and those in
objects. -/
def Handed (s : Session) (i : Nat) (loan : Loan) (p : PendingId) : Prop :=
  .pending p ∈ loan.given ∨ ∃ id, (s.core i).Holds (.object id) p

/-- What a host asks for begins without a pending value in the machine. -/
theorem Request.clean {act : Act Move} {loan : Loan} (hact : Request H s i act loan) :
    let r := Machine.start act (s.armed i)
    r.1.Clean ∧ r.2.engine.watch = .armed ∧ (s.core i).Adds (s.Handed i loan) r.2 := by
  have hrel : (Realm.clean (s.core i) (s.Handed i loan) (s.Handed i loan) fun _ h => h).rel (s.armed i)
      (s.armed i) := ⟨rfl, .of_eq rfl rfl rfl⟩
  have hbrings : (Realm.clean (s.core i) (s.Handed i loan) (s.Handed i loan) fun _ h => h).Gives
      (Realm.clean (s.core i) (s.Handed i loan) (s.Handed i loan) fun _ h => h).Brings act (s.armed i)
      (s.armed i) := by
    cases hact with
    | unit _ => exact (Realm.openFrame hrel nofun _ _).weaken fun _ _ h => .inl h
    | code _ _ => exact (Realm.callUnit hrel nofun).weaken fun _ _ h => .inl h
    | call fn this args kept =>
      have hvalues : ∀ v ∈ this :: args, v.Within (Cell.Admitted
          (s.Handed i (.ofCall fn this args kept))) :=
        Machine.admitted_of_mem fun p hp => .inl (List.mem_filterMap.mpr ⟨_, hp, rfl⟩)
      obtain ⟨hthis, hargs⟩ := List.forall_mem_cons.mp hvalues
      exact Realm.callValue hrel nofun (fun _ _ => trivial) hthis hargs
        (Machine.admitted_of_mem fun p hp => .inr (Core.holds_of_value_copies hp))
  obtain ⟨m, c', d', hstart, -, hrel', hl, hsafe⟩ := Realm.start hbrings
  dsimp only
  rw [hstart]
  exact ⟨.of_safe hsafe, hl.watch, hrel'.2⟩

/-- A drive that stands keeps no pending value. -/
theorem clean_drive (n : Nat) (h : m.Clean) (hwatch : c.engine.watch = .armed) {m' : Machine}
    {p : PendingId} (hstop : (c.drive n m).1 = .parked m' p) : m'.Clean := by
  refine Core.drive_induct (P := fun m c => m.Clean ∧ c.engine.watch = .armed)
    (Q := fun r => ∀ m' p, r.1 = .parked m' p → m'.Clean) (fun _ _ _ heq => by cases heq)
    (fun _ _ _ _ heq => by cases heq) (fun ⟨h, hwatch⟩ hs => ?_)
    (fun ⟨h, hwatch⟩ hs m' p heq => ?_) (fun ⟨h, hwatch⟩ hs _ _ => ?_) n ⟨h, hwatch⟩ m' p hstop
  · obtain ⟨hclean, hwatch', -⟩ := h.step hwatch hs
    exact ⟨hclean, hwatch'⟩
  · cases heq
    exact (h.parked hwatch hs).1
  · obtain ⟨hclean, hcontrol⟩ := h.parked hwatch hs
    exact ⟨hclean.resume (Machine.resume_waiting hcontrol _), rfl⟩

theorem clean_settleStop {j : Nat} {f : Flight} {loan : Loan} {n : Nat}
    (hs : ∀ j f, (s.station j).flight = some f → f.machine.Clean) (h : m.Clean)
    (hwatch : c.engine.watch = .armed)
    (hf : ((s.settleStop i loan (c.drive n m).1 (c.drive n m).2).2.station j).flight = some f) :
    f.machine.Clean := by
  rcases flight_settleStop hf with hf | ⟨hstop, -⟩
  · exact hs j f hf
  · exact clean_drive n h hwatch hstop

/-- No parked evaluation keeps a pending value. -/
theorem clean_flight (hs : Live H s) :
    ∀ j f, (s.station j).flight = some f → f.machine.Clean := by
  induction hs with
  | empty fuel =>
    intro j f hf
    simp [Session.station] at hf
  | @step s t _ hstep ih =>
    intro j f hf
    cases hstep with
    | edit hedit => exact ih j f (flight_edit hedit hf)
    | @evaluate i act loan answer _ hi hact heq _ =>
      have ht := congrArg Prod.snd heq
      dsimp only at ht
      rw [← ht] at hf
      unfold Session.evaluate at hf
      split at hf
      · exact ih j f hf
      · obtain ⟨hclean, hwatch, -⟩ := hact.clean
        exact clean_settleStop ih hclean hwatch hf
    | @poll i answer _ hi heq _ =>
      have ht := congrArg Prod.snd heq
      dsimp only at ht
      rw [← ht] at hf
      have harrived : ∀ j f, ((s.arrive i).station j).flight = some f → f.machine.Clean := fun j f hf =>
        ih j f (by rwa [station_arrive] at hf)
      unfold Session.poll goOn at hf
      split at hf
      next => exact harrived j f hf
      next g hg =>
        split at hf
        next => exact harrived j f hf
        next settlement _ =>
          cases hres : g.machine.resume settlement with
          | ok m =>
            rw [hres] at hf
            exact clean_settleStop harrived ((harrived _ g hg).resume hres) rfl hf
          | error fault =>
            rw [hres] at hf
            rcases flight_settleStop hf with hf | ⟨hstop, -⟩
            · exact harrived j f hf
            · cases hstop

/-- **Every machine on the way is clean**, and somebody watches it. -/
theorem Running.clean (hs : Live H s) (h : Running H s i m c) :
    m.Clean ∧ c.engine.watch = .armed := by
  induction h with
  | start _ hact =>
    obtain ⟨hclean, hwatch, -⟩ := hact.clean
    exact ⟨hclean, hwatch⟩
  | resume hf _ hres => exact ⟨(clean_flight hs _ _ hf).resume hres, rfl⟩
  | step _ hstep ih =>
    obtain ⟨hclean, hwatch, -⟩ := ih.1.step ih.2 hstep
    exact ⟨hclean, hwatch⟩
  | settle _ hstep _ _ hres ih =>
    obtain ⟨hclean, -⟩ := ih.1.parked ih.2 hstep
    exact ⟨hclean.resume hres, rfl⟩

end Session

/-- What the checkpoint is for, of a machine and its core. -/
structure Machine.Checked (m : Machine) (c : Core) : Prop where
  /-- No continuation keeps or receives a pending value: no operand, condition, key, callee, receiver or
  argument is one, and nothing that is thrown or returned. -/
  clean : m.Clean
  /-- No expression comes to a pending value. -/
  delivers {e a callers m' v} : m = ⟨.eval e, a :: callers⟩ → Driven a callers m m' →
    Back a callers m' → m'.control = .value v → v.isPending = false
  /-- Guest code calls nothing with a pending value. -/
  calls {call} : m.call? = some call → m.Calls call
  /-- A step puts no pending values into cells but those that it copies. -/
  stores : c.Adds (m.Copies c) (m.step c).2
  /-- What it copies is in an object or an item of a loop, and so was every item of a loop. -/
  copies {p} : m.Copies c p → (∃ id, c.Holds (.object id) p) ∨ .pending p ∈ m.items
  items {m' p} : (m.step c).1 = .running m' → .pending p ∈ m'.items → m.Lists c p
  /-- A settled value gives way to what it came to in the end. -/
  settled {v s a callers} : m = ⟨.checkpoint v, a :: callers⟩ → c.heap.Resolves v s →
    (∀ w, s = .fulfilled w → w.isPending = false) ∧
      Relation.ReflTransGen (fun m m' => step m c = (.running m', c)) m ⟨s.passed, a :: callers⟩

theorem Machine.Clean.checked {m : Machine} {c : Core} (h : m.Clean)
    (hwatch : c.engine.watch = .armed) : m.Checked c := by
  refine ⟨h, ?_, h.calls, h.adds hwatch, holds_of_copies, fun hm' => ?_, ?_⟩
  · rintro e a callers m' v rfl hdriven hback hv
    exact hdriven.delivers h hback hv
  · exact (h.step hwatch (Prod.ext hm' rfl)).2.2 _
  · rintro v s a callers rfl hresolves
    refine ⟨fun w hw => ?_, resolves hresolves⟩
    subst hw
    exact hresolves.isPending_eq_false

/-- **The checkpoint holds** in every evaluation of every session: guest code gets hold of no pending
value. What a host asks for puts none into cells but those that it hands over and copies of elements, and
from then on every step is checked. -/
theorem Session.checkpoint_holds {H : Host} {s : Session} (hs : Session.Live H s) (i : Nat) :
    (∀ act loan, Session.Request H s i act loan → (s.core i).Adds (s.Handed i loan)
      (Machine.start act (s.armed i)).2) ∧
    ∀ m c, Session.Running H s i m c → m.Checked c := by
  refine ⟨fun act loan hact => hact.clean.2.2, fun m c hrun => ?_⟩
  obtain ⟨hclean, hwatch⟩ := hrun.clean hs
  exact hclean.checked hwatch

/-- A unit that calls a function with a value, and keeps the result in an object. -/
def CodeUnit.keepingResult : CodeUnit := .ofSource "var x = eval(later); ({ a: x }).a"

/-- The next thing is that this pending value passes the checkpoint. -/
def Machine.touches (p : PendingId) : Machine → Bool
  | ⟨.checkpoint (.pending q), _ :: _⟩ => p = q
  | _ => false

/-- The next step calls a native function with `true`. -/
def Machine.callsNative (id : NativeId) (m : Machine) : Bool :=
  match m.call? with
  | some ⟨_, .native n, _, [.bool true]⟩ => n = id
  | _ => false

/-- The next step puts `true` into an object. -/
def Machine.putsTrue : Machine → Bool
  | ⟨.value (.bool true), ⟨_, _, .property _ _ _ :: _⟩ :: _⟩ => true
  | _ => false

namespace Session

/-- An engine with a pending value that came to another one, which nobody has settled yet. -/
def chained : Session :=
  let s := addPending (addPending { fuel := 100 } "last" .channel) "first" (.resolved (.pending ⟨0, 0⟩))
  s.addEngine none { installStdlib := false } none
    [("later", .pending ⟨0, 1⟩), (evalName, .native ⟨1, 0⟩)]

/-- The evaluation is parked, and the value was settled. -/
def chainedSettled : Session :=
  ((chained.runUnit 0 .keepingResult).2.settle ⟨0, 0⟩ (.fulfilled (.bool true))).2

theorem live_chained {H : Host} : Live H chained :=
  .step (.step (.step (.empty 100) (.edit (.pending _ "last" _))) (.edit (.pending _ "first" _)))
    (.edit (.engine _ none _ none _))

end Session

theorem Machine.eq_of_touches {p : PendingId} {m : Machine} (h : m.touches p = true) :
    ∃ a callers, m = ⟨.checkpoint (.pending p), a :: callers⟩ := by
  unfold touches at h
  split at h
  · obtain rfl := of_decide_eq_true h
    exact ⟨_, _, rfl⟩
  · cases h

theorem Machine.call?_of_callsNative {id : NativeId} {m : Machine} (h : m.callsNative id = true) :
    ∃ isNew this, m.call? = some ⟨isNew, .native id, this, [.bool true]⟩ := by
  unfold callsNative at h
  split at h
  · rename_i hcall
    obtain rfl := of_decide_eq_true h
    exact ⟨_, _, hcall⟩
  · cases h

theorem Machine.eq_of_putsTrue {m : Machine} (h : m.putsTrue = true) :
    ∃ frame boundary o key rest conts callers, m =
      ⟨.value (.bool true), ⟨frame, boundary, .property o key rest :: conts⟩ :: callers⟩ := by
  unfold putsTrue at h
  split at h
  · exact ⟨_, _, _, _, _, _, _, rfl⟩
  · cases h

/-- The pending value came to `true`, behind at most `n` others. -/
def Heap.cameTrue (h : Heap) : Nat → Value → Bool
  | _, .bool b => b
  | n + 1, .pending p =>
    match (h.pendings.get p).settlement? with
    | some (.fulfilled v) => h.cameTrue n v
    | _ => false
  | _, _ => false

theorem Heap.resolves_of_cameTrue {h : Heap} {n : Nat} {v : Value} (hv : h.cameTrue n v = true) :
    h.Resolves v (.fulfilled (.bool true)) := by
  fun_induction Heap.cameTrue h n v with
  | case1 => exact hv ▸ .final rfl
  | case2 n p v hsettled ih => exact .fulfilled hsettled (ih hv)
  | case3 | case4 => cases hv

/-- A value that comes to another one is touched, and the evaluation waits for the other one. When that
is settled, a native function is called with what it came to, and the result gets into an object; the
next run finds it at once. -/
theorem Session.checkpoint_holds_chained :
    (∃ m c a callers, Running .any chained 0 m c ∧ m.Checked c ∧
      m = ⟨.checkpoint (.pending ⟨0, 1⟩), a :: callers⟩) ∧
    (chained.runUnit 0 .keepingResult).1.suspension?.map (·.pending) = some ⟨0, 0⟩ ∧
    (∃ m c isNew this, Running .any chainedSettled 0 m c ∧ m.Checked c ∧
      m.call? = some ⟨isNew, .native ⟨1, 0⟩, this, [.bool true]⟩ ∧
      m.Calls ⟨isNew, .native ⟨1, 0⟩, this, [.bool true]⟩) ∧
    (∃ m c frame boundary o key rest conts callers, Running .any chainedSettled 0 m c ∧ m.Checked c ∧
      m = ⟨.value (.bool true), ⟨frame, boundary, .property o key rest :: conts⟩ :: callers⟩ ∧
      c.Adds (m.Copies c) (m.step c).2) ∧
    (chainedSettled.poll 0).1 = some (.finished (.ok (.bool true))) ∧
    ∃ m c a callers, Running .any (chainedSettled.poll 0).2 0 m c ∧ m.Checked c ∧
      m = ⟨.checkpoint (.pending ⟨0, 1⟩), a :: callers⟩ ∧
      Relation.ReflTransGen (fun m m' => m.step c = (.running m', c)) m
        ⟨.value (.bool true), a :: callers⟩ := by
  have hanswered : (chained.runUnit 0 .keepingResult).1.isReply = true ∧
      (chained.runUnit 0 .keepingResult).1.suspension?.map (·.pending) = some ⟨0, 0⟩ ∧
      (chainedSettled.poll 0).1.any (·.tells true) = true := by decide +kernel
  have hsettled : Live .any chainedSettled := (live_chained.evaluate (i := 0) (by decide)
    (.unit (u := .keepingResult) trivial) hanswered.1).step (.edit (.settle _ _ _))
  have hends : Live .any (chainedSettled.poll 0).2 := hsettled.poll (by decide +kernel) (by decide +kernel)
  obtain ⟨answer, hanswer, htells⟩ := (Option.any_eq_true ..).mp hanswered.2.2
  -- the touch, the call and the write of the first run, and the touch of the second one
  have htouch : (chained.asked? 0 (Act.openUnit .keepingResult (chained.engine 0).root) 15).any
    (·.1.touches ⟨0, 1⟩) := by decide +kernel
  have hcall : (chainedSettled.resumed? 0 1).any (·.1.callsNative ⟨1, 0⟩) := by decide +kernel
  have hput : (chainedSettled.resumed? 0 15).any (·.1.putsTrue) := by decide +kernel
  have hagain : ((chainedSettled.poll 0).2.asked? 0 (Act.openUnit .keepingResult
      ((chainedSettled.poll 0).2.engine 0).root) 15).any fun r => r.1.touches ⟨0, 1⟩ &&
        r.2.heap.cameTrue 2 (.pending ⟨0, 1⟩) := by decide +kernel
  obtain ⟨⟨m₁, c₁⟩, hreach₁, htouch⟩ := (Option.any_eq_true ..).mp htouch
  obtain ⟨⟨m₂, c₂⟩, hreach₂, hcall⟩ := (Option.any_eq_true ..).mp hcall
  obtain ⟨⟨m₃, c₃⟩, hreach₃, hput⟩ := (Option.any_eq_true ..).mp hput
  obtain ⟨⟨m₄, c₄⟩, hreach₄, hagain⟩ := (Option.any_eq_true ..).mp hagain
  obtain ⟨hagain, hcame⟩ := Bool.and_eq_true_iff.mp hagain
  have hrun₁ : Running .any chained 0 m₁ c₁ :=
    .of_asked (by decide) (.unit (u := .keepingResult) trivial) hreach₁
  have hrun₂ : Running .any chainedSettled 0 m₂ c₂ := .of_resumed hreach₂
  have hrun₃ : Running .any chainedSettled 0 m₃ c₃ := .of_resumed hreach₃
  have hrun₄ : Running .any (chainedSettled.poll 0).2 0 m₄ c₄ :=
    .of_asked (by decide +kernel) (.unit (u := .keepingResult) trivial) hreach₄
  have hchecked₁ := (checkpoint_holds live_chained 0).2 m₁ c₁ hrun₁
  have hchecked₂ := (checkpoint_holds hsettled 0).2 m₂ c₂ hrun₂
  have hchecked₃ := (checkpoint_holds hsettled 0).2 m₃ c₃ hrun₃
  have hchecked₄ := (checkpoint_holds hends 0).2 m₄ c₄ hrun₄
  obtain ⟨a₁, callers₁, hm₁⟩ := Machine.eq_of_touches htouch
  obtain ⟨isNew, this, hm₂⟩ := Machine.call?_of_callsNative hcall
  obtain ⟨frame, boundary, o, key, rest, conts, callers₃, hm₃⟩ := Machine.eq_of_putsTrue hput
  obtain ⟨a₄, callers₄, hm₄⟩ := Machine.eq_of_touches hagain
  exact ⟨⟨m₁, c₁, a₁, callers₁, hrun₁, hchecked₁, hm₁⟩, hanswered.2.1,
    ⟨m₂, c₂, isNew, this, hrun₂, hchecked₂, hm₂, hchecked₂.calls hm₂⟩,
    ⟨m₃, c₃, frame, boundary, o, key, rest, conts, callers₃, hrun₃, hchecked₃, hm₃, hchecked₃.stores⟩,
    hanswer.trans (congrArg some (Answer.eq_of_tells htells)),
    m₄, c₄, a₄, callers₄, hrun₄, hchecked₄, hm₄,
    (hchecked₄.settled hm₄ (Heap.resolves_of_cameTrue hcame)).2⟩

end Fermata
