import Fermata.Proofs.Act.Quiet
import Fermata.Proofs.Session.Life
import Fermata.Proofs.Suspension.Transparent

/-!
# Native functions called by the host

A guest that calls a native function has every argument and the result pass the checkpoint. A host
calls it directly: the native function is done in one step and gets its arguments as they are, pending
values included, whether they are settled or not.

* `Builtin.pendingResult?`: the pending value that a native function hands out. Three of them do:
  `delay` makes one, `pop` takes one out of an array, and the function that evaluates code gives back
  what is no code.
* **`Session.native_answers_blindly`**: the answer does not depend on any settlement, no suspension is
  recorded, and the pending values that a host gets as results are exactly those.
-/

namespace Fermata

/-- The pending value that a value is. -/
def Value.pending? : Value → Option PendingId
  | .pending p => some p
  | _ => none

/-- The pending value that a call of a native function gives back, made in a region if it is new. -/
def Builtin.pendingResult? (h : Heap) (region : Nat) (this : Value) (args : List Value) :
    Builtin → Option PendingId
  | .delay => some (h.pendings.next region)
  | .eval => (arg args 0).pending?
  | .pop => (h.array? this).bind fun id => (h.objects.get id).pop.1.pending?
  | _ => none

namespace Act

/-! ## Results of native functions -/

/-- The result is this pending value, or none. -/
def Gives (o : Option PendingId) : EStateM.Result Abrupt Core Value → Prop
  | .ok v _ => v.pending? = o
  | .error _ _ => o = none

/-- Whatever the act is performed on, its result is no pending value. -/
def GivesNone (act : Act Value) : Prop := ∀ c, Gives none (act c)

theorem GivesNone.bind {α : Type} (p : Act α) {q : α → Act Value} (hq : ∀ a, GivesNone (q a)) :
    GivesNone (p >>= q) := by
  intro c
  simp only [Bind.bind, EStateM.bind]
  generalize p c = r
  cases r with
  | ok a d => exact hq a d
  | error x d => rfl

theorem GivesNone.pure {v : Value} (hv : v.pending? = none) : GivesNone (pure v) := fun _ => hv

theorem GivesNone.reads {g : Heap → Value} (hg : ∀ h, (g h).pending? = none) :
    GivesNone (reads g) := fun c => hg c.heap

theorem GivesNone.throw (x : Abrupt) : GivesNone (throw x) := fun _ => rfl

theorem GivesNone.typeError (message : String) : GivesNone (typeError message) :=
  .bind _ fun _ => .throw _

theorem GivesNone.newArray (values : List Value) : GivesNone (Builtin.newArray values) :=
  .bind _ fun id => .pure (v := .object id) rfl

theorem GivesNone.ownKeys (target : Value) : GivesNone (Builtin.ownKeys target) := by
  unfold Builtin.ownKeys
  split
  · exact .newArray _
  · refine .bind _ fun found => ?_
    cases found with
    | some id => exact .bind _ fun _ => .newArray _
    | none =>
      dsimp only
      split
      · exact .typeError _
      · exact .newArray _

theorem GivesNone.stringify (v : Value) : GivesNone (Builtin.stringify v) := by
  unfold Builtin.stringify
  split
  · exact .pure rfl
  · exact .pure rfl
  · exact .pure rfl
  · exact .reads fun _ => rfl

theorem pending?_ofJson (h : Heap) (region : Nat) (j : Json) :
    (h.ofJson region j).1.pending? = none := by
  cases j <;> rfl

theorem GivesNone.parse (args : List Value) : GivesNone (Builtin.parse args) := by
  unfold Builtin.parse
  split
  · exact .typeError _
  · refine .bind _ fun text => ?_
    cases Json.parse text with
    | ok j => exact fun c => pending?_ofJson c.heap c.engine.region j
    | error e => exact .bind _ fun _ => .throw _

theorem GivesNone.newError (kind : String) (args : List Value) :
    GivesNone (Builtin.newError kind args) := by
  unfold Builtin.newError
  dsimp only
  split <;> exact .bind _ fun _ => .bind _ fun id => .pure (v := .object id) rfl

theorem thisArray_bind (this : Value) (method : String) (q : ObjectId → Act Value) (c : Core) :
    (Builtin.thisArray this method >>= q) c =
      match c.heap.array? this with
      | some id => q id c
      | none => typeError ("Array.prototype." ++ method ++ " called on " ++ this.typeName) c := by
  have hread : (Builtin.thisArray this method >>= q) c =
      ((match c.heap.array? this with
        | some id => pure id
        | none => typeError ("Array.prototype." ++ method ++ " called on " ++ this.typeName)) >>= q)
        c := rfl
  rw [hread]
  cases c.heap.array? this <;> rfl

/-- What a native function hands out. -/
theorem gives_run (b : Builtin) (this : Value) (args : List Value) (c : Core) :
    Gives (b.pendingResult? c.heap c.engine.region this args) (b.run this args c) := by
  unfold Builtin.run
  cases b with
  | mathFloor | mathCeil | mathAbs | mathRound | mathTrunc | mathSign | mathSqrt | mathPow | mathMax
  | mathMin | arrayIsArray | stringOf | numberOf | booleanOf | isNaN | parseInt | parseFloat => rfl
  | objectKeys => exact GivesNone.ownKeys _ c
  | jsonStringify => exact GivesNone.stringify _ c
  | jsonParse => exact GivesNone.parse args c
  | consoleLog => exact GivesNone.bind _ (fun _ => .bind _ fun _ => .pure (v := .undefined) rfl) c
  | delay => rfl
  | eval => rfl
  | makeError kind => exact GivesNone.newError kind args c
  | push => exact GivesNone.bind _ (fun _ => .bind _ fun _ => .reads fun _ => rfl) c
  | pop =>
    change Gives ((c.heap.array? this).bind _) ((Builtin.thisArray this "pop" >>= _) c)
    rw [thisArray_bind]
    cases c.heap.array? this with
    | some id => rfl
    | none => exact GivesNone.typeError _ c
  | join => exact GivesNone.bind _ (fun _ => .bind _ fun _ => .reads fun _ => rfl) c
  | indexOf =>
    refine GivesNone.bind _ (fun _ => .bind _ fun values => .pure ?_) c
    unfold Builtin.indexIn
    split <;> rfl
  | slice => exact GivesNone.bind _ (fun _ => .bind _ fun _ => .bind _ fun _ => .newArray _) c

/-! ## The call -/

/-- The native function that runs when an engine calls one. -/
def nativeOf (c : Core) (id : NativeId) : Builtin :=
  if id = c.engine.evalFunction then .eval else (c.heap.natives.get id).builtin

/-- The call evaluates no code. -/
def NoCode (c : Core) (id : NativeId) (args : List Value) : Prop :=
  id = c.engine.evalFunction → ∀ source, Builtin.arg args 0 ≠ .string source

/-- What is no code comes back as it is. -/
theorem evalCode_other {v : Value} (hv : ∀ source, v ≠ .string source) (depth : Nat)
    (scope : ScopeId) : evalCode depth scope v = return .go [] (.value v) := by
  cases v with
  | string source => exact absurd rfl (hv source)
  | _ => rfl

/-- A call that evaluates no code is the native function, and nothing else. -/
theorem start_callValue {c : Core} {id : NativeId} {args : List Value} (hcode : NoCode c id args)
    (scope : ScopeId) (this : Value) :
    Machine.start (callValue 0 scope (.native id) this args) c =
      match (nativeOf c id).run this args c with
      | .ok v d => (⟨.value v, []⟩, d)
      | .error x d => (⟨.abrupt x, []⟩, d) := by
  by_cases hid : id = c.engine.evalFunction
  · have hgives : callValue 0 scope (.native id) this args c =
        .ok (.go [] (.value (Builtin.arg args 0))) c := by
      have heval : callValue 0 scope (.native id) this args c =
          (if id = c.engine.evalFunction then evalCode 0 scope (Builtin.arg args 0) else _) c := rfl
      rw [heval, if_pos hid, evalCode_other (hcode hid)]
      rfl
    rw [Machine.start, hgives, nativeOf, if_pos hid]
    rfl
  · have hrun : callValue 0 scope (.native id) this args c =
        (do return .go [] (.value (← (c.heap.natives.get id).builtin.run this args)) : Act Move) c := by
      have hcall : callValue 0 scope (.native id) this args c =
          (if id = c.engine.evalFunction then _ else
            (do
              let b := (← reads (·.natives.get id)).builtin
              return .go [] (.value (← b.run this args)) : Act Move)) c := rfl
      rw [hcall, if_neg hid]
      rfl
    rw [Machine.start, hrun, nativeOf, if_neg hid]
    simp only [Bind.bind, EStateM.bind]
    cases (c.heap.natives.get id).builtin.run this args c <;> rfl

/-- Cores that differ in waiting alone; the first one has these records of suspensions. -/
def stillLaw (count : Nat) (last : Option Suspension) : Law where
  rel _ c d := (∃ P w n l, d = c.apart P w n l ∧
      ∀ region, P.next region = c.heap.pendings.next region) ∧
    c.engine.suspensionCount = count ∧ c.engine.lastSuspension = last
  apart := fun ⟨⟨P, w, n, l, hd, _⟩, _⟩ => ⟨P, w, n, l, hd⟩
  next := by
    rintro fs c d ⟨⟨P, w, n, l, rfl, hn⟩, -⟩
    exact hn
  objects := by
    rintro fs c d ⟨⟨P, w, n, l, rfl, hn⟩, hrest⟩ S
    exact ⟨⟨P, w, n, l, rfl, hn⟩, hrest⟩
  console := by
    rintro fs c d ⟨⟨P, w, n, l, rfl, hn⟩, hrest⟩ lines
    exact ⟨⟨P, w, n, l, rfl, hn⟩, hrest⟩
  pending := by
    rintro fs c d ⟨⟨P, w, n, l, rfl, hn⟩, hrest⟩ s
    refine ⟨⟨_, w, n, l, rfl, fun region => ?_⟩, hrest⟩
    change (P.push c.engine.region _).next region = (c.heap.pendings.push c.engine.region _).next region
    rw [Store.next_push, Store.next_push, hn, hn]
  binding := by
    rintro fs c d ⟨⟨P, w, n, l, rfl, hn⟩, hrest⟩ scope name v
    exact ⟨⟨P, w, n, l, rfl, hn⟩, hrest⟩
  birth := by
    rintro f fs c d node fn ⟨⟨P, w, n, l, rfl, hn⟩, hrest⟩ -
    exact ⟨⟨P, w, n, l, rfl, hn⟩, hrest⟩
  link := by
    rintro f fs c d node fn r next ⟨⟨P, w, n, l, rfl, hn⟩, hrest⟩ - - -
    exact ⟨⟨P, w, n, l, rfl, hn⟩, hrest⟩
  capture := by
    rintro fs c d r defining bindings this id ⟨⟨P, w, n, l, rfl, hn⟩, hrest⟩ - - - - -
    exact ⟨⟨P, w, n, l, rfl, hn⟩, hrest⟩
  share := by
    rintro fs c d r defining id h - - - -
    exact h
  code := by
    rintro f fs c d source unit h - -
    exact h
  mark h _ := h
  close h := h

end Act

namespace Session

open Act

variable {s : Session} {i : Nat} {id : NativeId} {args : List Value}

/-- How the call of a native function ends. -/
def outcomeOf (r : EStateM.Result Abrupt Core Value) : Outcome × Core :=
  match r with
  | .ok v c => (.ok v, c)
  | .error x c => (.error x, c)

/-- A call of a native function that evaluates no code is over as soon as the function is. -/
theorem call_native (hidle : (s.station i).isBusy = false) (hfuel : 0 < s.fuel)
    (hcode : NoCode (s.core i) id args) (this : Value) (kept : List Value) :
    s.call i (.native id) this args kept =
      let r := outcomeOf ((nativeOf (s.core i) id).run this args (s.armed i))
      s.settleStop i (.ofCall (.native id) this args kept) (.done r.1) r.2 := by
  obtain ⟨n, hn⟩ : ∃ n, s.fuel = n + 1 := ⟨s.fuel - 1, by omega⟩
  have hcode' : NoCode (s.armed i) id args := hcode
  have hbusy : ¬(s.station i).isBusy = true := by simp [hidle]
  simp only [call, Value.isCallable, Bool.not_true, Bool.false_eq_true, if_false, evaluate,
    if_neg hbusy, start_callValue hcode', hn]
  change (let r := match (nativeOf (s.core i) id).run this args (s.armed i) with
      | .ok v d => (Machine.mk (.value v) [], d)
      | .error x d => (Machine.mk (.abrupt x) [], d)
    s.settleStop i (.ofCall (.native id) this args kept) (r.2.drive (n + 1) r.1).1
      (r.2.drive (n + 1) r.1).2) = _
  generalize (nativeOf (s.core i) id).run this args (s.armed i) = r
  cases r <;> rfl

/-- As many pending values, each settled or not, and with anything. -/
def Resettles (s : Session) (P : Store .pending Pending) : Prop :=
  ∀ region, P.next region = s.heap.pendings.next region

/-- The session with other settlements. -/
def resettled (s : Session) (P : Store .pending Pending) : Session :=
  { s with heap := s.heap.awaiting P }

/-- How an engine answers its host's call of a native function. -/
structure AnswersBlindly (s : Session) (i : Nat) (id : NativeId) (this : Value)
    (args kept : List Value) : Prop where
  /-- The call never waits. -/
  finished : ∃ result, (s.call i (.native id) this args kept).1 = .finished result
  /-- No suspension is counted or recorded. -/
  counts : ((s.call i (.native id) this args kept).2.engine i).suspensionCount =
      (s.engine i).suspensionCount ∧
    ((s.call i (.native id) this args kept).2.engine i).lastSuspension = (s.engine i).lastSuspension
  /-- What is pending and what is settled, and with what, makes no difference. -/
  blind {P} : s.Resettles P →
    ((s.resettled P).call i (.native id) this args kept).1 = (s.call i (.native id) this args kept).1 ∧
    ((s.resettled P).call i (.native id) this args kept).2.heap.objects =
      (s.call i (.native id) this args kept).2.heap.objects ∧
    (((s.resettled P).call i (.native id) this args kept).2.engine i).console =
      ((s.call i (.native id) this args kept).2.engine i).console
  /-- The result is a pending value exactly if the native function hands one out. -/
  pending (p) : (s.call i (.native id) this args kept).1 = .finished (.ok (.pending p)) ↔
    (nativeOf (s.core i) id).pendingResult? s.heap (s.engine i).region this args = some p

/-- The engine of an evaluation that is over, but for what pruning does to its associations. -/
theorem engine_settleStop_done (s : Session) (i : Nat) (loan : Loan) (outcome : Outcome)
    (c : Core) :
    ∃ links, (s.settleStop i loan (.done outcome) c).2.engine i =
      if i < s.stations.size then { c.engine with links := links, watch := .disarmed }
      else s.engine i := by
  rw [settleStop_done]
  by_cases hi : i < s.stations.size
  · exact ⟨_, (engine_leaving hi _).trans (if_pos hi).symm⟩
  · have hnone : s.stations[i]? = none := Array.getElem?_eq_none (Nat.le_of_not_lt hi)
    refine ⟨c.engine.links, ?_⟩
    rw [if_neg hi]
    simp only [engine, station, leaving, seat, modifyStation, Array.getElem?_modify, hnone, if_true,
      Option.map_none]

/-- A native function ends alike whatever is settled, and suspends nothing. -/
theorem native_ends {P : Store .pending Pending} (hP : s.Resettles P) (b : Builtin) (this : Value)
    (args : List Value) :
    ∃ outcome c d, outcomeOf (b.run this args (s.armed i)) = (outcome, c) ∧
      outcomeOf (b.run this args ((s.resettled P).armed i)) = (outcome, d) ∧
      (stillLaw (s.engine i).suspensionCount (s.engine i).lastSuspension).rel [] c d := by
  have hrel : (stillLaw (s.engine i).suspensionCount (s.engine i).lastSuspension).rel []
      (s.armed i) ((s.resettled P).armed i) :=
    ⟨⟨P, .armed, _, _, rfl, hP⟩, rfl, rfl⟩
  have hholds : (stillLaw (s.engine i).suspensionCount (s.engine i).lastSuspension).Holds []
      (b.run this args) := Law.run b this args
  have hagree := hholds _ _ hrel
  generalize b.run this args (s.armed i) = r at hagree ⊢
  generalize b.run this args ((s.resettled P).armed i) = t at hagree ⊢
  cases hagree with
  | ok h => exact ⟨_, _, _, rfl, rfl, h⟩
  | error _ h => exact ⟨_, _, _, rfl, rfl, h⟩

/-- **The host calls native functions past the checkpoint.** The call is answered at once, with what
the function makes of its arguments as they stand: no settlement plays a part in it. -/
theorem native_answers_blindly (hidle : (s.station i).isBusy = false) (hfuel : 0 < s.fuel)
    (hcode : NoCode (s.core i) id args) (this : Value) (kept : List Value) :
    s.AnswersBlindly i id this args kept := by
  have hcall := call_native hidle hfuel hcode this kept
  refine ⟨⟨_, congrArg Prod.fst hcall⟩, ?_, fun {P} hP => ?_, fun p => ?_⟩
  · obtain ⟨outcome, c, d, hc, -, -, hcount, hlast⟩ :=
      native_ends (i := i) (P := s.heap.pendings) (fun _ => rfl) (nativeOf (s.core i) id) this args
    obtain ⟨links, heq⟩ :=
      engine_settleStop_done s i (.ofCall (.native id) this args kept) outcome c
    rw [hcall, hc]
    dsimp only
    rw [heq]
    split
    · exact ⟨hcount, hlast⟩
    · exact ⟨rfl, rfl⟩
  · obtain ⟨outcome, c, d, hc, hd, ⟨Q, w, n, l, rfl, -⟩, -, -⟩ :=
      native_ends (i := i) hP (nativeOf (s.core i) id) this args
    have hcall' := call_native (s := s.resettled P) (i := i) hidle hfuel hcode this kept
    have hsame : nativeOf ((s.resettled P).core i) id = nativeOf (s.core i) id := rfl
    have hroots : (s.resettled P).roots i = s.roots i := rfl
    rw [hsame, hd] at hcall'
    rw [hc] at hcall
    obtain ⟨links, heq⟩ :=
      engine_settleStop_done s i (.ofCall (.native id) this args kept) outcome c
    obtain ⟨links', heq'⟩ := engine_settleStop_done (s.resettled P) i
      (.ofCall (.native id) this args kept) outcome (c.apart Q w n l)
    rw [hcall, hcall']
    dsimp only
    rw [heq, heq', settleStop_done, settleStop_done, hroots, Core.finish_eq, Core.finish_eq]
    refine ⟨congrArg Answer.finished (report_shows (Ahead.shows_prune Q) outcome),
      (Ahead.shows_prune Q).objects, ?_⟩
    change (if i < s.stations.size then _ else s.engine i).console = _
    split <;> rfl
  · have hgives := gives_run (nativeOf (s.core i) id) this args (s.armed i)
    rw [hcall]
    change _ ↔ Builtin.pendingResult? (s.armed i).heap
      (s.armed i).engine.region this args _ = some p
    generalize (nativeOf (s.core i) id).run this args (s.armed i) = r at hgives ⊢
    cases r with
    | ok v c =>
      rw [← hgives]
      change Answer.finished (.ok v) = _ ↔ _
      cases v <;> simp [Value.pending?]
    | error x c =>
      have hfails : ∀ h, Core.report h (.error x) ≠ .ok (.pending p) := by
        intro h
        cases x <;> simp [Core.report]
      rw [hgives]
      exact iff_of_false (fun h => hfails _ (Answer.finished.inj h)) (Option.some_ne_none p).symm

/-- A pending value that the host has settled is handed through. -/
theorem native_answers_blindly_eval :
    let s := addEngine (addPending { fuel := 100 } "later" (.resolved .null)) none {} none []
    s.AnswersBlindly 0 (s.engine 0).evalFunction .undefined [.pending ⟨0, 0⟩] [] ∧
      (s.call 0 (.native (s.engine 0).evalFunction) .undefined [.pending ⟨0, 0⟩] []).1 =
        .finished (.ok (.pending ⟨0, 0⟩)) := by
  intro s
  have hcode : Act.NoCode (s.core 0) (s.engine 0).evalFunction [.pending ⟨0, 0⟩] := by
    intro _ source h
    cases h
  have hanswers : s.AnswersBlindly 0 (s.engine 0).evalFunction .undefined [.pending ⟨0, 0⟩] [] :=
    native_answers_blindly rfl (Nat.succ_pos 99) hcode .undefined []
  refine ⟨hanswers, (hanswers.pending _).mpr ?_⟩
  have heval : nativeOf (s.core 0) (s.engine 0).evalFunction = .eval := if_pos rfl
  rw [heval]
  rfl

end Session

end Fermata
