import Fermata.Proofs.Session.Life
import Mathlib.Logic.Relation

/-!
# Turns

What a host does to a session comes as a list of turns: requests to its engines, polls, settlements,
writes to scopes, values and scopes that it takes hold of or lets go of. A turn has a reply, and the next
one begins with the session that it leaves. In a turn of its own, the process goes on elsewhere.

* `Session.perform`, `Session.play`: one turn, and all turns of a list.
* `Session.ask?`, `Session.asks`: the evaluation that a turn asks for.
* `Session.Plays`: the engines are there, and every request was answered.
* `Session.Live.play`: a host gets to where its turns lead.
-/

namespace Fermata

/-- One thing that a host asks of a session. -/
inductive Turn where
  | run (engine : Nat) (source : String)
  | runUnit (engine : Nat) (unit : CodeUnit)
  | call (engine : Nat) (fn this : Value) (args : List Value)
  | evalIn (engine : Nat) (scope : ScopeId) (code : String)
  | poll (engine : Nat)
  | abandon (engine : Nat)
  | console (engine : Nat)
  | settle (pending : PendingId) (settlement : Settlement)
  | setName (scope : ScopeId) (name : String) (value : Value)
  | setEnvironment (scope : ScopeId) (env : List (String × Value))
  | keep (slot : String) (value : Value)
  | forget (slot : String)
  | hold (scope : ScopeId)
  | release (scope : ScopeId)
  /-- The process goes on elsewhere. -/
  | elsewhere (process : Process)

/-- The reply to a turn. -/
inductive Response where
  /-- An evaluation answered; a poll finds none if nothing is parked. -/
  | answer (answer : Option Answer)
  /-- Whether this was the first settlement, or there was something to let go of. -/
  | told (yes : Bool)
  /-- How many names were written. -/
  | wrote (count : Nat)
  | done
  | refused (cause : ScopeError)
  | lines (lines : List String)

namespace Turn

/-- The engine that a turn is addressed to. -/
def engine? : Turn → Option Nat
  | run i _ | runUnit i _ | call i _ _ _ | evalIn i _ _ | poll i | abandon i | console i => some i
  | _ => none

end Turn

/-- What every write to a binding of the scope keeps, an environment keeps. -/
theorem Heap.setEnvironment_induction {P : Heap → Prop} {id : ScopeId}
    (hown : ∀ h name v, P h → P (h.setOwn id name v).2) (env : List (String × Value)) {h : Heap}
    (hP : P h) : P (h.setEnvironment id env).2 :=
  List.foldlRecOn (motive := fun r : Nat × Heap => P r.2) env _ hP fun r hr entry _ =>
    hown r.2 entry.1 entry.2 hr

namespace Session

/-- The host writes a name from a scope. -/
def assign (s : Session) (scope : ScopeId) (name : String) (v : Value) : Response × Session :=
  match s.heap.setName scope name v with
  | .ok heap => (.wrote 1, { s with heap })
  | .error cause => (.refused cause, s)

/-- Let the host have its turn. -/
def perform (s : Session) : Turn → Response × Session
  | .run i source => (.answer (s.run i source).1, (s.run i source).2)
  | .runUnit i u => (.answer (s.runUnit i u).1, (s.runUnit i u).2)
  | .call i fn this args => (.answer (s.call i fn this args []).1, (s.call i fn this args []).2)
  | .evalIn i scope code => (.answer (s.evalIn i scope code).1, (s.evalIn i scope code).2)
  | .poll i => (.answer (s.poll i).1, (s.poll i).2)
  | .abandon i => (.told (s.abandon i).1, (s.abandon i).2)
  | .console i => (.lines (s.takeConsole i).1, (s.takeConsole i).2)
  | .settle p settlement => (.told (s.settle p settlement).1, (s.settle p settlement).2)
  | .setName scope name v => s.assign scope name v
  | .setEnvironment scope env =>
    (.wrote (s.heap.setEnvironment scope env).1,
      { s with heap := (s.heap.setEnvironment scope env).2 })
  | .keep slot v => (.wrote 1, s.keep slot v)
  | .forget slot => (.told (s.forget slot).1, (s.forget slot).2)
  | .hold scope => (.done, s.hold scope)
  | .release scope => (.told (s.release scope).1, (s.release scope).2)
  | .elsewhere process => (.done, s.elsewhere process)

/-- The session after all of these turns. -/
def after (s : Session) : List Turn → Session
  | [] => s
  | turn :: turns => (s.perform turn).2.after turns

/-- The replies to all of these turns, in order. -/
def play (s : Session) : List Turn → List Response
  | [] => []
  | turn :: turns => (s.perform turn).1 :: (s.perform turn).2.play turns

/-- The replies, as far as they tell of this truth value. -/
def tells (b : Bool) (responses : List Response) : List Bool :=
  responses.map fun
    | .answer (some answer) => answer.tells b
    | _ => false

/-- A turn is addressed to an engine that exists, and no evaluation is left unanswered. -/
structure Replies (s : Session) (turn : Turn) : Prop where
  engine : ∀ i, turn.engine? = some i → i < s.stations.size
  answered : (s.perform turn).1 ≠ .answer (some .outOfFuel)

/-- All of these turns have replies. -/
def Plays (s : Session) : List Turn → Prop
  | [] => True
  | turn :: turns => s.Replies turn ∧ (s.perform turn).2.Plays turns

variable {s t : Session}

/-! ## Turns that ask for an evaluation -/

/-- An evaluation that a host asks for: the session with its code compiled, the engine, what it is to
do, and what the host passes. -/
structure Ask where
  session : Session
  engine : Nat
  act : Act Move
  loan : Loan

/-- The evaluation that a turn asks for, unless there is something wrong with the turn itself. -/
def ask? (s : Session) : Turn → Option Ask
  | .run i source =>
    match s.compile i source with
    | .ok (id, t) => some ⟨t, i, Act.openUnit (t.unit id) (t.engine i).root, {}⟩
    | .error _ => none
  | .runUnit i u => some ⟨s, i, Act.openUnit u (s.engine i).root, {}⟩
  | .call i fn this args =>
    if fn.isCallable then
      some ⟨s, i, Act.callValue 0 (s.engine i).root fn this args, .ofCall fn this args []⟩
    else none
  | .evalIn i scope code =>
    if scope.region = (s.engine i).region then
      match CodeUnit.compile code (s.heap.visibleNames scope) with
      | .ok u => some ⟨s, i, Act.callUnit 0 u scope, { lent := [.scope scope] }⟩
      | .error _ => none
    else none
  | _ => none

/-- The turn is the evaluation that it asks for. -/
structure Asks (s : Session) (turn : Turn) (a : Ask) : Prop where
  engine : turn.engine? = some a.engine
  compiled : a.session = s ∨ ∃ source id, s.compile a.engine source = .ok (id, a.session)
  request : Request .any a.session a.engine a.act a.loan
  perform : s.perform turn = (.answer (a.session.evaluate a.engine a.act a.loan).1,
    (a.session.evaluate a.engine a.act a.loan).2)

/-- **A turn that asks for an evaluation** is that evaluation. -/
theorem asks {turn : Turn} {a : Ask} (h : s.ask? turn = some a) : s.Asks turn a := by
  cases turn with
  | run i source =>
    simp only [ask?] at h
    cases hc : s.compile i source with
    | error e =>
      rw [hc] at h
      cases h
    | ok found =>
      rw [hc] at h
      cases h
      exact ⟨rfl, .inr ⟨source, found.1, hc⟩, .unit trivial, by simp only [perform, run, hc]; rfl⟩
  | runUnit i u =>
    cases h
    exact ⟨rfl, .inl rfl, .unit trivial, rfl⟩
  | call i fn this args =>
    simp only [ask?] at h
    split at h
    · rename_i hfn
      cases h
      exact ⟨rfl, .inl rfl, .call fn this args [], by simp only [perform, call, hfn]; rfl⟩
    · cases h
  | evalIn i scope code =>
    simp only [ask?] at h
    split at h
    · rename_i hregion
      split at h
      · rename_i u hu
        cases h
        refine ⟨rfl, .inl rfl, .code hregion hu, ?_⟩
        simp only [perform, evalIn, if_neg (Decidable.not_not.mpr hregion), hu]
      · cases h
    · cases h
  | _ => cases h

/-- What is left of a turn that asks for nothing: an edit, a poll, or what is wrong with it. -/
inductive Unasked (s : Session) : Turn → Prop
  | refused {turn e} : s.perform turn = (.answer (some (.finished (.error e))), s) → Unasked s turn
  | poll (i) : Unasked s (.poll i)
  | abandon (i) : Unasked s (.abandon i)
  | console (i) : Unasked s (.console i)
  | settle (p settlement) : Unasked s (.settle p settlement)
  | setName (scope name v) : Unasked s (.setName scope name v)
  | setEnvironment (scope env) : Unasked s (.setEnvironment scope env)
  | keep (slot v) : Unasked s (.keep slot v)
  | forget (slot) : Unasked s (.forget slot)
  | hold (scope) : Unasked s (.hold scope)
  | release (scope) : Unasked s (.release scope)
  | elsewhere (process) : Unasked s (.elsewhere process)

theorem unasked {turn : Turn} (h : s.ask? turn = none) : s.Unasked turn := by
  cases turn with
  | run i source =>
    simp only [ask?] at h
    cases hc : s.compile i source with
    | ok found =>
      rw [hc] at h
      cases h
    | error e => exact .refused (by simp only [perform, run, hc]; rfl)
  | runUnit i u => cases h
  | call i fn this args =>
    simp only [ask?] at h
    split at h
    · cases h
    · rename_i hfn
      exact .refused (by simp only [perform, call, hfn]; rfl)
  | evalIn i scope code =>
    simp only [ask?] at h
    split at h
    · rename_i hregion
      split at h
      · cases h
      · rename_i e he
        refine .refused (e := .compile e) ?_
        simp only [perform, evalIn, if_neg (Decidable.not_not.mpr hregion), he]
    · rename_i hregion
      exact .refused (by simp only [perform, evalIn, if_pos hregion]; rfl)
  | poll i => exact .poll i
  | abandon i => exact .abandon i
  | console i => exact .console i
  | settle p settlement => exact .settle p settlement
  | setName scope name v => exact .setName scope name v
  | setEnvironment scope env => exact .setEnvironment scope env
  | keep slot v => exact .keep slot v
  | forget slot => exact .forget slot
  | hold scope => exact .hold scope
  | release scope => exact .release scope
  | elsewhere process => exact .elsewhere process

/-! ## Turns are what a host can do -/

/-- What `s` can get to. -/
abbrev Leads (s t : Session) : Prop := Relation.ReflTransGen (Step .any) s t

theorem Live.leads (hs : Live .any s) (h : s.Leads t) : Live .any t := by
  induction h with
  | refl => exact hs
  | tail _ hstep ih => exact ih.step hstep

theorem Leads.edit (h : Edit .any s t) : s.Leads t := .single (.edit h)

theorem leads_ask {turn : Turn} {a : Ask} (h : s.ask? turn = some a) :
    s.Leads a.session ∧ a.session.stations.size = s.stations.size := by
  rcases (asks h).compiled with heq | ⟨source, id, hc⟩
  · rw [heq]
    exact ⟨.refl, rfl⟩
  · refine ⟨.edit (.compile hc), ?_⟩
    rcases compile_cases hc with heq | ⟨u, units, heq⟩
    · rw [heq]
    · rw [heq]
      exact size_modifyStation ..

theorem leads_write (s : Session) (place : Heap.Place) (name : String) (v : Value) :
    s.Leads { s with heap := s.heap.setAt place name v } := by
  cases place with
  | binding id => exact .edit (.binding s id name v)
  | global o =>
    unfold Heap.setAt
    dsimp only
    split
    · exact .refl
    · exact .edit (.objects s _)
  | nowhere => exact .refl

theorem leads_assign (s : Session) (scope : ScopeId) (name : String) (v : Value) :
    s.Leads (s.assign scope name v).2 := by
  unfold assign Heap.setName
  cases s.heap.target scope name with
  | error cause => exact .refl
  | ok place => exact leads_write s place name v

/-- Whatever a host permits itself, it may write. -/
theorem leads_setOwn {H : Host} (s : Session) (scope : ScopeId) (name : String) (v : Value) :
    Relation.ReflTransGen (Step H) s { s with heap := (s.heap.setOwn scope name v).2 } := by
  unfold Heap.setOwn
  cases (s.heap.scopes.get scope).storage with
  | global o =>
    dsimp only
    split
    · exact .single (.edit (.objects s _))
    · exact .refl
  | locals bindings =>
    dsimp only
    split
    · exact .single (.edit (.binding s scope name v))
    · exact .refl

theorem leads_setEnvironment {H : Host} (s : Session) (scope : ScopeId)
    (env : List (String × Value)) :
    Relation.ReflTransGen (Step H) s { s with heap := (s.heap.setEnvironment scope env).2 } :=
  Heap.setEnvironment_induction
    (P := fun k => Relation.ReflTransGen (Step H) s { s with heap := k })
    (fun k name v hk => hk.trans (leads_setOwn { s with heap := k } scope name v)) env .refl

/-- **A turn leads to where a host can get.** -/
theorem leads_perform {turn : Turn} (h : s.Replies turn) : s.Leads (s.perform turn).2 := by
  have hengine := h.engine
  have hanswered := h.answered
  cases hask : s.ask? turn with
  | some a =>
    have hasks := asks hask
    obtain ⟨hleads, hsize⟩ := leads_ask hask
    rw [hasks.perform] at hanswered ⊢
    refine hleads.tail (.evaluate (hsize ▸ hengine _ hasks.engine) hasks.request rfl fun ha => ?_)
    exact hanswered (congrArg (Response.answer ∘ some) ha)
  | none =>
    cases unasked hask with
    | refused heq =>
      rw [heq]
    | poll i => exact .single (.poll (hengine i rfl) rfl fun ha => hanswered (congrArg _ ha))
    | abandon i => exact .edit (.abandon s i)
    | console i => exact .edit (.console s i)
    | settle p settlement => exact .edit (.settle s p settlement)
    | setName scope name v => exact leads_assign s scope name v
    | setEnvironment scope env => exact leads_setEnvironment s scope env
    | keep slot v => exact .edit (.keep s slot v)
    | forget slot => exact .edit (.forget s slot)
    | hold scope => exact .edit (.hold s scope)
    | release scope => exact .edit (.release s scope)
    | elsewhere process => exact .edit (.elsewhere s process)

theorem leads_after {turns : List Turn} (h : s.Plays turns) : s.Leads (s.after turns) := by
  induction turns generalizing s with
  | nil => exact .refl
  | cons turn turns ih => exact (leads_perform h.1).trans (ih h.2)

/-- **A host gets to where its turns lead.** -/
theorem Live.play {turns : List Turn} (hs : Live .any s) (h : s.Plays turns) :
    Live .any (s.after turns) :=
  hs.leads (leads_after h)

end Session

end Fermata
