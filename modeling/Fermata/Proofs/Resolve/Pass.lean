import Fermata.Code.Basic

/-!
# Reasoning about the pass

`Resolve.Gives` says what a step of the pass gives, and what it leaves, if it does not refuse. It
passes through `>>=`, so that a walk over the tree is reasoned about case by case.
-/

namespace Fermata.Resolve

variable {α β : Type} {I : State → Prop} {Q : α → State → Prop} {R : β → State → Prop}

/-- From states of `I`, the step gives and leaves only what `Q` allows, unless it refuses. -/
def Gives (I : State → Prop) (p : Pass α) (Q : α → State → Prop) : Prop :=
  ∀ s a s', I s → p s = .ok (a, s') → Q a s'

theorem Gives.pure {a : α} (ha : ∀ s, I s → Q a s) : Gives I (Pure.pure a) Q := by
  intro s b s' hs heq
  cases heq
  exact ha s hs

theorem Gives.bind {p : Pass α} {q : α → Pass β} (hp : Gives I p Q)
    (hq : ∀ a, Gives (Q a) (q a) R) : Gives I (p >>= q) R := by
  intro s b s'' hs heq
  simp only [Bind.bind, StateT.bind, Except.bind] at heq
  cases hps : p s with
  | error e =>
    rw [hps] at heq
    cases heq
  | ok r =>
    obtain ⟨a, s'⟩ := r
    rw [hps] at heq
    exact hq a s' b s'' (hp s a s' hs hps) heq

theorem Gives.refuse {cause : InvalidCause} {span : Span} : Gives I (refuse cause span) Q :=
  fun _ _ _ _ heq => nomatch heq

theorem Gives.modify {f : State → State} {Q : Unit → State → Prop} (hf : ∀ s, I s → Q () (f s)) :
    Gives I (modify f) Q := by
  intro s a s' hs heq
  cases heq
  exact hf s hs

theorem Gives.get {Q : State → State → Prop} (hQ : ∀ s, I s → Q s s) : Gives I get Q := by
  intro s a s' hs heq
  cases heq
  exact hQ s hs

theorem Gives.set {t : State} {Q : Unit → State → Prop} (hQ : ∀ s, I s → Q () t) :
    Gives I (set t) Q := by
  intro s a s' hs heq
  cases heq
  exact hQ s hs

/-! ## Whole programs -/

/-- The state in which the pass begins. -/
def State.start (p : Program) (outer : List String) : State :=
  { stack := [{ id := 0, isRoot := true }]
    records := Array.replicate p.functionCount none
    functions := Array.replicate p.functionCount none
    outer }

/-- The records after the pass, the program's own included. -/
def State.allRecords (s : State) (p : Program) : Array (Option ScopeRecord) :=
  s.records.setIfInBounds 0 (some ((s.stack.headD { id := 0, isRoot := true }).toRecord programName []
    p.span))

theorem program_ok {p : Program} {outer : List String} {r : Result}
    (h : program p outer = .ok r) : ∃ s records,
    stmts p.body (State.start p outer) = .ok (r.body, s) ∧
      allRecords (s.allRecords p).toList 0 = .ok records ∧ r.records = records.toArray ∧
      r.functions = s.functions := by
  unfold program at h
  change (stmts p.body (State.start p outer) >>= fun x => _) = _ at h
  cases hs : stmts p.body (State.start p outer) with
  | error e =>
    rw [hs] at h
    cases h
  | ok r' =>
    obtain ⟨body, s⟩ := r'
    rw [hs] at h
    change (allRecords (s.allRecords p).toList 0 >>= fun records => _) = _ at h
    cases hr : allRecords (s.allRecords p).toList 0 with
    | error e =>
      rw [hr] at h
      cases h
    | ok records =>
      rw [hr] at h
      cases h
      exact ⟨s, records, rfl, hr, rfl, rfl⟩

theorem ofProgram_ok {source : String} {p : Program} {outer : List String} {u : CodeUnit}
    (h : CodeUnit.ofProgram source p outer = .ok u) : ∃ r, program p outer = .ok r ∧
      u = { source, hash := Digest.ofText source, program := { p with body := r.body },
            records := r.records, functions := r.functions } := by
  unfold CodeUnit.ofProgram at h
  cases hr : program p outer with
  | error e =>
    rw [hr] at h
    cases h
  | ok r =>
    rw [hr] at h
    cases h
    exact ⟨r, rfl, rfl⟩

theorem compile_ok {source : String} {outer : List String} {u : CodeUnit}
    (h : CodeUnit.compile source outer = .ok u) :
    ∃ p, Grammar.parse source = .ok p ∧ CodeUnit.ofProgram source p outer = .ok u := by
  unfold CodeUnit.compile at h
  cases hp : Grammar.parse source with
  | error e =>
    rw [hp] at h
    cases h
  | ok p =>
    rw [hp] at h
    exact ⟨p, rfl, h⟩

end Fermata.Resolve
