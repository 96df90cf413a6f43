import Fermata.Proofs.Jump.Check
import Fermata.Proofs.Session.Provenance

/-!
# Jumps stay in their bodies

The pass accepts a tree only if every `break` and `continue` in it has an owner and every `return` a
function (`CodeUnit.Accepted.settled`). A running activation carries the owners of the statement that
it executes among its continuations. So a jump comes, within the body of its statement, to the
innermost owner that it addresses, which stops it.

* `Machine.Answered`: what becomes of transfers of control in one state of a machine.
* `Session.jumps_answered`: this holds in every state of every evaluation, and no answer that a host
  gets is an escaped transfer.
-/

namespace Fermata

open Act

/-! ## Bodies -/

/-- The spot is one of a body. -/
def Spot.Within (body : List Stmt) (t : Spot) : Prop := ∃ t₀ ∈ body, Spot.Has ⟨[], [], t₀⟩ t

/-- The pieces of a body whose transfers are all answered. A jump comes from one of its statements,
and the owners that it passed did not stop it. -/
def Parts.settled (inFunction : Bool) (body : List Stmt) : Parts where
  name _ := True
  expr _ := True
  stmt t := SettledBody inFunction body ∧ t.Within body
  jump os x := x.IsFailure ∨ SettledBody inFunction body ∧ ∃ (t : Spot) (passed : List Owner),
    t.Within body ∧ t.stmt.Jumps x ∧ t.owners = passed ++ os ∧ ∀ o ∈ passed, o.stops x = false
  expr_parts _ _ _ := trivial
  expr_ident _ := trivial
  stmt_exprs _ _ _ := trivial
  stmt_names _ _ _ := trivial
  stmt_inside := by
    rintro t ⟨hbody, t₀, ht₀, hhas⟩ u hu
    exact ⟨hbody, t₀, ht₀, hhas.trans (.inside hu (.self u))⟩
  stmt_jumps := by
    rintro t ⟨hbody, ht⟩ x hx
    exact .inr ⟨hbody, t, [], ht, hx, rfl, nofun⟩
  failure := .inl
  pass := by
    rintro o os x (hfail | ⟨hbody, t, passed, ht, hx, howners, hpassed⟩) hstop
    · exact .inl hfail
    · refine .inr ⟨hbody, t, passed ++ [o], ht, hx, ?_, fun o' ho' => ?_⟩
      · rw [howners, List.append_assoc]
        rfl
      · rcases List.mem_append.mp ho' with ho' | ho'
        · exact hpassed o' ho'
        · rw [List.mem_singleton.mp ho']
          exact hstop

theorem Stmt.not_jumps_fault (t : Stmt) (f : Fault) : ¬t.Jumps (.fault f) := by
  intro hx
  cases t with
  | leave | next => cases hx
  | ret =>
    obtain ⟨v, hv⟩ := hx
    cases hv
  | _ => exact hx

/-- Every transfer at a spot of a settled body is answered. -/
theorem SettledBody.owned {b : Bool} {body : List Stmt} {t : Spot} {x : Abrupt}
    (hbody : SettledBody b body) (ht : t.Within body) (hx : t.stmt.Jumps x) :
    Owned b t.owners x := by
  obtain ⟨t₀, ht₀, hhas⟩ := ht
  exact hbody t₀ ht₀ t hhas x hx

/-- What leaves a settled body is a failure, or the `return` of a function. -/
theorem Parts.settled_ends {b : Bool} {body : List Stmt} {x : Abrupt}
    (h : (Parts.settled b body).jump [] x) : x.IsFailure ∨ b = true ∧ ∃ v, x = .ret v := by
  rcases h with hfail | ⟨hbody, t, passed, ht, hx, howners, hpassed⟩
  · exact .inl hfail
  · have howned := hbody.owned ht hx
    rw [howners, List.append_nil] at howned
    cases x with
    | ret v => exact .inr ⟨howned, v, rfl⟩
    | leave label | next label =>
      obtain ⟨o, ho, hstop⟩ := howned
      rw [hpassed o ho] at hstop
      cases hstop
    | thrown v => exact .inl trivial
    | fault f => exact (t.stmt.not_jumps_fault f hx).elim

/-- The body is that of a function. -/
def Activation.inFunction (a : Activation) : Bool :=
  match a.boundary with
  | .unit => false
  | .function _ => true

/-- The bodies of units whose transfers are all answered. -/
def Atlas.settled : Atlas where
  ofUnit u := .settled false u.program.body
  ofFunction u id := .settled true (((u.function? id).map FunctionNode.body).getD [])
  code hu t ht := ⟨(CodeUnit.accepted_compile hu).settled.1, t, ht, .self _⟩
  closing := by
    rintro ⟨frame, boundary, conts⟩ x y hx hclose b os
    refine (Bodies.parts _ b).failure ?_
    cases boundary with
    | unit =>
      cases hclose
      rcases Parts.settled_ends hx with hfail | ⟨hb, -⟩
      · exact hfail
      · cases hb
    | function name =>
      rcases Parts.settled_ends hx with hfail | ⟨-, v, rfl⟩
      · cases x with
        | thrown | fault =>
          cases hclose
          exact hfail
        | ret | leave | next => exact hfail.elim
      · cases hclose

theorem Atlas.parts_settled (a : Activation) :
    Atlas.settled.parts a = .settled a.inFunction a.body := by
  obtain ⟨frame, boundary, conts⟩ := a
  cases boundary <;> rfl

/-! ## Accepted units everywhere -/

/-- The units that the pass accepted. -/
def Provenance.accepted : Provenance where
  units := CodeUnit.Accepted
  compiled := CodeUnit.accepted_compile
  numbered hu hfn := (hu.settled.2 _ _ hfn).1

/-- The host runs units that the pass accepted, and links whatever it likes. -/
def Host.accepting : Host := ⟨CodeUnit.Accepted, fun _ _ _ => True⟩

theorem Atlas.settled_function {u : CodeUnit} {id : Nat} {fn : FunctionNode} (hu : u.Accepted)
    (hfn : u.function? id = some fn) :
    ∀ t ∈ fn.body, (Atlas.settled.ofFunction u id).stmt ⟨[], [], t⟩ := by
  intro t ht
  change SettledBody true _ ∧ Spot.Within _ _
  rw [hfn]
  exact ⟨(hu.settled.2 id fn hfn).2, t, ht, .self _⟩

/-- Accepted units everywhere, from the first engine on. -/
def Regime.accepted : Regime Host.accepting where
  invariant := Provenance.accepted.invariant
  atlas := .settled
  lone := false
  covers _ _ h := Provenance.covers (fun _ hu _ _ hfn => Atlas.settled_function hu hfn) h
  place hu t ht := ⟨hu.settled.1, t, ht, .self _⟩
  unit {c u} h hu := Provenance.Holds.cons (f := unitFrame u c.engine.root) hu h
  code {_ scope _ u} h hu := Provenance.Holds.cons (f := unitFrame u scope) (CodeUnit.accepted_compile hu) h
  ended h held := Provenance.Holds.ended h held
  child h _ _ _ _ := h
  link _ h := h
  first h name settings host defines :=
    (Provenance.Holds.unused h.closures).create _ name settings host defines
  further _ h region name settings host defines :=
    ⟨Provenance.Holds.create h region name settings host defines,
      (Provenance.Holds.idle h).create region name settings host defines⟩
  others _ h hd := ⟨h.1, hd.2⟩

/-! ## Coming to the owner -/

/-- The transfer is a `break` or a `continue`. -/
def Abrupt.IsJump : Abrupt → Prop
  | .leave _ | .next _ => True
  | _ => False

/-- What the owner of a jump does with it. -/
inductive Lands (s : Site) : Cont → Abrupt → Act Move → Prop
  /-- The loop ends with the value of its last round. -/
  | leaveLoop (l label) : Lands s (.loopBody l) (.leave label) (yields l.last)
  /-- The loop goes on behind its body. -/
  | nextLoop (l label) : Lands s (.loopBody l) (.next label) (l.afterBody s)
  /-- The labelled statement ends. -/
  | leaveLabel (name) : Lands s (.labeled name) (.leave (some name)) (yields .undefined)

section

variable {s : Site} {k : Cont} {o : Owner} {x : Abrupt} {c : Core}

theorem Owner.loop_stops (l : Loop) (label : Option String) :
    (Owner.loop l.labels).stops (.leave label) = l.owns label ∧
      (Owner.loop l.labels).stops (.next label) = l.owns label := by
  cases label <;> exact ⟨rfl, rfl⟩

/-- A continuation lets a jump pass that its owner does not stop. -/
theorem intercept_passing (hpass : ∀ o ∈ owners [k], o.stops x = false) :
    intercept s k x = throw x := by
  cases k with
  | loopBody l =>
    have hstop : (Owner.loop l.labels).stops x = false := hpass _ List.mem_cons_self
    cases x with
    | leave label =>
      rw [(Owner.loop_stops l label).1] at hstop
      exact if_neg (Bool.eq_false_iff.mp hstop)
    | next label =>
      rw [(Owner.loop_stops l label).2] at hstop
      exact if_neg (Bool.eq_false_iff.mp hstop)
    | _ => rfl
  | labeled name =>
    have hstop : (Owner.label name).stops x = false := hpass _ List.mem_cons_self
    cases x with
    | leave label =>
      cases label with
      | none => rfl
      | some l => exact if_neg (of_decide_eq_false hstop)
    | _ => rfl
  | _ => rfl

/-- An owner stops the jumps that it owns. -/
theorem intercept_stopping (s : Site) (hk : owners [k] = [o]) (hstop : o.stops x = true) :
    Lands s k x (intercept s k x) := by
  cases k with
  | loopBody l =>
    cases hk
    cases x with
    | leave label =>
      rw [(Owner.loop_stops l label).1] at hstop
      rw [show intercept s (.loopBody l) (.leave label) = yields l.last from if_pos hstop]
      exact .leaveLoop l label
    | next label =>
      rw [(Owner.loop_stops l label).2] at hstop
      rw [show intercept s (.loopBody l) (.next label) = l.afterBody s from if_pos hstop]
      exact .nextLoop l label
    | _ => cases hstop
  | labeled name =>
    cases hk
    cases x with
    | leave label =>
      cases label with
      | none => cases hstop
      | some l =>
        obtain rfl : l = name := of_decide_eq_true hstop
        rw [show intercept s (.labeled l) (.leave (some l)) = yields .undefined from if_pos rfl]
        exact .leaveLabel l
    | _ => cases hstop
  | _ => cases hk

/-- The continuation of the innermost owner that stops a jump. -/
theorem owners_split {ks : List Cont} (h : (owners ks).find? (·.stops x) = some o) :
    ∃ before k after, ks = before ++ k :: after ∧ owners [k] = [o] ∧
      ∀ k' ∈ before, ∀ o' ∈ owners [k'], o'.stops x = false := by
  induction ks with
  | nil => cases h
  | cons k ks ih =>
    rw [show k :: ks = [k] ++ ks from rfl, owners_append, List.find?_append] at h
    cases hk : (owners [k]).find? (·.stops x) with
    | some o' =>
      rw [hk] at h
      cases h
      refine ⟨[], k, ks, rfl, ?_, fun _ hk' => absurd hk' List.not_mem_nil⟩
      have hmem := List.mem_of_find?_eq_some hk
      cases k with
      | loopBody | labeled =>
        rw [List.mem_singleton.mp hmem]
        rfl
      | _ => cases hmem
    | none =>
      rw [hk] at h
      obtain ⟨before, k', after, rfl, hk', hbefore⟩ := ih h
      refine ⟨k :: before, k', after, rfl, hk', fun k'' hk'' => ?_⟩
      rcases List.mem_cons.mp hk'' with rfl | hk''
      · intro o' ho'
        exact Bool.eq_false_iff.mpr (List.find?_eq_none.mp hk o' ho')
      · exact hbefore k'' hk''

/-- A jump drops the continuations that do not stop it, one in a step. -/
theorem drive_passing {a : Activation} {callers : List Activation} {before after : List Cont}
    (hbefore : ∀ k ∈ before, ∀ o ∈ owners [k], o.stops x = false) (n : Nat) :
    c.drive (before.length + n) ⟨.abrupt x, { a with conts := before ++ after } :: callers⟩ =
      c.drive n ⟨.abrupt x, { a with conts := after } :: callers⟩ := by
  induction before with
  | nil => rw [List.length_nil, Nat.zero_add, List.nil_append]
  | cons k before ih =>
    have hlength : (k :: before).length + n = before.length + n + 1 := Nat.add_right_comm ..
    have hstep : Machine.step ⟨.abrupt x, { a with conts := k :: before ++ after } :: callers⟩ c =
        (.running ⟨.abrupt x, { a with conts := before ++ after } :: callers⟩, c) := by
      unfold Machine.step Machine.perform
      dsimp only [List.cons_append]
      rw [intercept_passing (hbefore k List.mem_cons_self)]
      rfl
    rw [hlength, Core.drive, hstep]
    exact ih fun k' hk' => hbefore k' (List.mem_cons_of_mem k hk')

end

/-! ## Every transfer is answered -/

/-- The fault of a transfer that got lost. -/
def Fault.IsEscape : Fault → Prop
  | .stack (.loopEscaped _) | .stack .transferEscaped => True
  | _ => False

/-- The host is told that a transfer got lost. -/
def Answer.IsEscape : Answer → Prop
  | .finished (.error (.fault f)) => f.IsEscape
  | _ => False

namespace Machine

/-- A jump of the innermost activation comes to this owner, and stops there. -/
def Absorbs (a : Activation) (callers : List Activation) (c : Core) (x : Abrupt) (o : Owner) :
    Prop :=
  ∃ before k after, a.conts = before ++ k :: after ∧ owners [k] = [o] ∧
    (∀ n, c.drive (before.length + n) ⟨.abrupt x, a :: callers⟩ =
      c.drive n ⟨.abrupt x, { a with conts := k :: after } :: callers⟩) ∧
    ∃ act, Lands ⟨a.frame, callers⟩ k x act ∧
      step ⟨.abrupt x, { a with conts := k :: after } :: callers⟩ c =
        perform { a with conts := after } callers act c

/-- What becomes of transfers of control in a state of a machine. -/
structure Answered (m : Machine) (c : Core) : Prop where
  /-- A statement is executed under the owners and with the labels that it has in its body. -/
  place {t labels a callers} : m = ⟨.exec t labels, a :: callers⟩ →
    Spot.Within a.body ⟨owners a.conts, labels, t⟩
  /-- A jump that is executed stops at the innermost construct around it that it addresses. -/
  jump {t labels a callers x} : m = ⟨.exec t labels, a :: callers⟩ → t.Jumps x → x.IsJump →
    m.step c = (.running ⟨.abrupt x, a.mark t.span :: callers⟩, c) ∧
      ∃ o, (owners a.conts).find? (·.stops x) = some o ∧ Absorbs (a.mark t.span) callers c x o
  /-- A body ends with a value, a failure, or the `return` of a function. -/
  ends {a callers x} : m = ⟨.abrupt x, a :: callers⟩ → a.conts = [] →
    x.IsFailure ∨ a.inFunction = true ∧ ∃ v, x = .ret v
  /-- An evaluation ends with a value or a failure. -/
  outcome {x} : m = ⟨.abrupt x, []⟩ → x.IsFailure
  /-- No transfer got lost. -/
  kept {f stack} : m = ⟨.abrupt (.fault f), stack⟩ → ¬f.IsEscape

variable {a : Activation} {callers : List Activation} {c : Core} {x : Abrupt} {o : Owner}

/-- A jump comes to the innermost owner among the continuations that stops it. -/
theorem absorbs (ho : (owners a.conts).find? (·.stops x) = some o) : Absorbs a callers c x o := by
  obtain ⟨frame, boundary, conts⟩ := a
  obtain ⟨before, k, after, rfl, hk, hbefore⟩ := owners_split ho
  refine ⟨before, k, after, rfl, hk, drive_passing (a := ⟨frame, boundary, []⟩) hbefore, _, ?_, rfl⟩
  exact intercept_stopping _ hk (List.find?_some (p := fun o : Owner => o.stops x) ho)

end Machine

theorem Abrupt.IsFailure.not_escape {f : Fault} (h : (Abrupt.fault f).IsFailure) :
    ¬f.IsEscape := by
  unfold Fault.IsEscape
  split
  · exact h.elim
  · exact h.elim
  · exact id

theorem Parts.settled_fault {b : Bool} {body : List Stmt} {os : List Owner} {f : Fault}
    (h : (Parts.settled b body).jump os (.fault f)) : ¬f.IsEscape := by
  rcases h with hfail | ⟨-, t, -, -, hx, -⟩
  · exact hfail.not_escape
  · exact (t.stmt.not_jumps_fault f hx).elim

/-- A jump at a spot of a settled body has an innermost owner. -/
theorem SettledBody.owner {b : Bool} {body : List Stmt} {t : Spot} {x : Abrupt}
    (hbody : SettledBody b body) (ht : t.Within body) (hx : t.stmt.Jumps x) (hjump : x.IsJump) :
    ∃ o, t.owners.find? (·.stops x) = some o := by
  have howned := hbody.owned ht hx
  rw [← Option.isSome_iff_exists, List.find?_isSome]
  cases x with
  | leave label | next label => exact howned
  | ret | thrown | fault => exact hjump.elim

/-- The act of a statement that jumps. -/
theorem startStmt_jump {t : Stmt} {x : Abrupt} (hx : t.Jumps x) (hjump : x.IsJump) (s : Site)
    (labels : List String) : startStmt s t labels = throw x := by
  cases t with
  | leave | next =>
    cases hx
    rfl
  | ret =>
    obtain ⟨v, rfl⟩ := hx
    exact hjump.elim
  | _ => exact hx.elim

/-- What can occur anywhere is a failure. -/
theorem Atlas.failure_of_passes {x : Abrupt} (h : Atlas.settled.Passes x) : x.IsFailure := by
  rcases Parts.settled_ends (h ⟨unitFrame default default, .unit, []⟩ []) with hfail | ⟨hb, -⟩
  · exact hfail
  · cases hb

theorem Atlas.follows_settled {control : Control} {a : Activation} {callers : List Activation}
    (h : Atlas.settled.Follows control (a :: callers)) :
    control.In (.settled a.inFunction a.body) (owners a.conts) :=
  Atlas.parts_settled a ▸ h

/-- **In a placed machine every transfer is answered.** -/
theorem Machine.Placed.answered {m : Machine} (h : m.Placed .settled) (c : Core) :
    m.Answered c := by
  obtain ⟨-, hnext⟩ := h
  refine ⟨?_, ?_, ?_, ?_, ?_⟩
  · rintro t labels a callers rfl
    exact (Atlas.follows_settled hnext).2
  · rintro t labels a callers x rfl hx hjump
    obtain ⟨hbody, hspot⟩ := Atlas.follows_settled hnext
    obtain ⟨o, ho⟩ := hbody.owner hspot hx hjump
    refine ⟨?_, o, ho, Machine.absorbs (a := a.mark t.span) ho⟩
    unfold Machine.step Machine.perform
    dsimp only
    rw [startStmt_jump hx hjump]
    rfl
  · rintro a callers x rfl hconts
    have hx := Atlas.follows_settled hnext
    rw [hconts] at hx
    exact Parts.settled_ends hx
  · rintro x rfl
    rcases hnext with ⟨v, hv⟩ | ⟨y, hy, hpass⟩
    · cases hv
    · cases hy
      exact Atlas.failure_of_passes hpass
  · rintro f stack rfl
    cases stack with
    | nil =>
      rcases hnext with ⟨v, hv⟩ | ⟨y, hy, hpass⟩
      · cases hv
      · cases hy
        exact (Atlas.failure_of_passes hpass).not_escape
    | cons a callers => exact Parts.settled_fault (Atlas.follows_settled hnext)

namespace Session

variable {s : Session} {i : Nat}

/-- A drive that began well does not tell of a transfer that got lost. -/
theorem settleStop_kept (s : Session) (i : Nat) (loan : Loan) {stop : Core.Stop} {c : Core}
    (h : Regime.accepted.invariant.Stops .settled (stop, c)) :
    ¬(s.settleStop i loan stop c).1.IsEscape := by
  cases h with
  | @done outcome _ _ hpass =>
    rw [settleStop_done, Core.finish_eq]
    cases outcome with
    | ok v => exact id
    | error x =>
      have hfail := Atlas.failure_of_passes (hpass x rfl)
      cases x with
      | thrown v => exact id
      | fault f => exact hfail.not_escape
      | ret | leave | next => exact hfail.elim
  | parked => exact id
  | outOfFuel => exact id

/-- **Control transfers never escape their owner.** Whatever a host has done, every transfer is
answered in every state of every evaluation, and no answer tells of one that got lost. -/
theorem jumps_answered (hs : Live .accepting s) (hi : i < s.stations.size) :
    (∀ m c, Running .accepting s i m c → m.Answered c) ∧
      (∀ act loan, Request .accepting s i act loan → ¬(s.evaluate i act loan).1.IsEscape) ∧
      ∀ answer, (s.poll i).1 = some answer → ¬answer.IsEscape := by
  have hrules : Regime.accepted.Rules s := Regime.live hs nofun
  refine ⟨fun m c hm => (Regime.running hrules hi hm).placed.answered c, fun act loan hact => ?_, ?_⟩
  · unfold evaluate
    cases hb : (s.station i).isBusy with
    | true => exact id
    | false =>
      rw [if_neg Bool.false_ne_true]
      have hcore := Regime.accepted.invariant.nil (hrules.core i hi)
      exact settleStop_kept s i loan
        (Invariant.drive Regime.accepted.covers s.fuel (Regime.runs_request hcore hact))
  · intro answer hanswer
    have hgoes := hrules.goesOn hi
    have hrules' := hrules.arrive i
    have hi' : i < (s.arrive i).stations.size := by rwa [stations_arrive]
    generalize s.arrive i = t at hgoes hrules' hi'
    generalize s.poll i = r at hgoes hanswer
    cases hgoes with
    | idle => cases hanswer
    | waits =>
      cases hanswer
      exact id
    | resumes hf hset hr =>
      cases hanswer
      refine settleStop_kept t i _ ?_
      exact hr ▸ Invariant.drive Regime.accepted.covers t.fuel (Regime.runs_resume hrules' hi' hf _)

end Session

/-- Two loops, both left at once by the label of the outer one. -/
def CodeUnit.leavingBoth : CodeUnit :=
  .ofSource "a: while (true) { while (true) { break a; } } true"

/-- The machine executes a `break` with a label, under these owners. -/
def Machine.breaksUnder (label : String) (os : List Owner) : Machine → Bool
  | ⟨.exec (.leave _ (some l)) _, a :: _⟩ => l = label && owners a.conts = os
  | _ => false

theorem Machine.eq_of_breaksUnder {m : Machine} {label : String} {os : List Owner}
    (h : m.breaksUnder label os = true) : ∃ span labels a callers,
      m = ⟨.exec (.leave span (some label)) labels, a :: callers⟩ ∧ owners a.conts = os := by
  unfold breaksUnder at h
  split at h
  · simp only [Bool.and_eq_true, decide_eq_true_eq] at h
    obtain ⟨rfl, h⟩ := h
    exact ⟨_, _, _, _, rfl, h⟩
  · cases h

namespace Session

/-- A `break` in a nested loop that is addressed to the outer one by its label. -/
theorem jumps_answered_nested :
    CodeUnit.compile "a: while (true) { while (true) { break a; } } true" [] = .ok .leavingBoth ∧
      (∃ m c a callers, Running .accepting bare 0 m c ∧ m.Answered c ∧
        m.breaksUnder "a" [.loop [], .loop ["a"], .label "a"] = true ∧
        m.step c = (.running ⟨.abrupt (.leave (some "a")), a :: callers⟩, c) ∧
        Machine.Absorbs a callers c (.leave (some "a")) (.loop ["a"])) ∧
      (bare.runUnit 0 .leavingBoth).1 = .finished (.ok (.bool true)) ∧
      ¬(bare.runUnit 0 .leavingBoth).1.IsEscape := by
  have hcompiled : CodeUnit.compile "a: while (true) { while (true) { break a; } } true" [] =
      .ok .leavingBoth := CodeUnit.compile_ofSource (by decide +kernel)
  have hunit : Request .accepting bare 0 (Act.openUnit .leavingBoth (bare.engine 0).root) {} :=
    .unit (CodeUnit.accepted_compile hcompiled)
  obtain ⟨hrunning, hanswers, -⟩ := jumps_answered (i := 0) live_bare (by decide)
  have hreach : (bare.asked? 0 (Act.openUnit .leavingBoth (bare.engine 0).root) 11).any
    (·.1.breaksUnder "a" [.loop [], .loop ["a"], .label "a"]) := by decide +kernel
  obtain ⟨⟨m, c⟩, hreach, hbreaks⟩ := (Option.any_eq_true ..).mp hreach
  have hrun := Running.of_asked (by decide) hunit hreach
  have hanswered := hrunning m c hrun
  refine ⟨hcompiled, ?_, Answer.eq_of_tells (by decide +kernel), hanswers _ _ hunit⟩
  obtain ⟨span, labels, a, callers, rfl, howners⟩ := Machine.eq_of_breaksUnder hbreaks
  obtain ⟨hstep, o, ho, habsorbs⟩ := hanswered.jump rfl (x := .leave (some "a")) rfl trivial
  rw [howners] at ho
  cases ho
  exact ⟨_, _, _, _, hrun, hanswered, hbreaks, hstep, habsorbs⟩

end Session

end Fermata
