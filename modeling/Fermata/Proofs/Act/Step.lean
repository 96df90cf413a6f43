import Fermata.Proofs.Act.Open

/-!
# Steps of a machine keep every law

Expressions, statements and continuations are acts in an activation: what they do to a core, acts
of `Quiet` and `Open` do for them. So one step of a machine, on two related cores, leads to the same
machine and to related cores. The checkpoint of a pending value is the exception: it is the one place
where a machine looks at what related cores may differ in.

* `Law.startExpr`, `Law.startStmt`, `Law.receive`, `Law.intercept`: the acts of a step.
* `Law.step`: a step that is not the checkpoint of a pending value.
-/

namespace Fermata

open Act

/-- The live frames, innermost first. -/
def Site.frames (s : Site) : List Frame := s.frame :: s.callers.map Activation.frame

theorem Site.depth_eq (s : Site) : s.depth = s.frames.length := by
  simp only [depth, frames, List.length_cons, List.length_map]

/-- The frames that are live after a step. -/
def Progress.frames : Progress → List Frame
  | .running m | .parked m _ => m.frames
  | .done _ => []

namespace Law

variable {L : Law} {s : Site} {fs : List Frame}

/-- An act of a site that leads to a move and does not jump. -/
abbrev Moves (L : Law) (s : Site) (p : Act Move) : Prop :=
  L.Keeps s.frames p (Move.frames s.frames) s.frames

/-- An act of a site that leads to a move or jumps. -/
def Runs (L : Law) (s : Site) (p : Act Move) : Prop :=
  ∀ c d, L.rel s.frames c d → L.Agree (fun _ => True) (Move.frames s.frames) s.frames (p c) (p d)

theorem Keeps.runs {p : Act Move} (hp : L.Moves s p) : L.Runs s p := by
  intro c d h
  have hpr := hp c d h
  generalize p c = r at hpr ⊢
  generalize p d = t at hpr ⊢
  cases hpr with
  | ok hrel => exact .ok hrel
  | error _ hrel => exact .error trivial hrel

theorem Runs.throw (x : Abrupt) : L.Runs s (throw x) := fun _ _ h => .error trivial h

/-! ## Expressions -/

theorem give (v : Value) : L.Moves s (give v) := Keeps.pure _ rfl

theorem evalFor (k : Cont) (e : Expr) : L.Moves s (evalFor k e) := Keeps.pure _ rfl

theorem yields (v : Value) : L.Moves s (yields v) := Keeps.pure _ rfl

theorem readReference (s : Site) (ref : Reference) : L.Holds fs (readReference s ref) := by
  cases ref with
  | binding name => exact getName _ _
  | property object key implicit => exact readMember _ _ _

theorem writeReference (s : Site) (ref : Reference) (v : Value) :
    L.Holds fs (writeReference s ref v) := by
  cases ref with
  | binding name => exact setName _ _ _
  | property object key implicit => exact setProperty _ _ _

theorem useReference (use : ReferenceUse) (ref : Reference) :
    L.Moves s (useReference s use ref) := by
  unfold Act.useReference
  cases use with
  | update op before => exact Keeps.bind (readReference s ref) fun _ => Keeps.pure _ rfl
  | assign op value =>
    cases op with
    | plain => exact evalFor _ _
    | compound op => exact Keeps.bind (readReference s ref) fun _ => Keeps.pure _ rfl
    | logical op => exact Keeps.bind (readReference s ref) fun _ => Keeps.pure _ rfl
  | delete =>
    cases ref with
    | binding name => exact give _
    | property object key implicit => exact Keeps.bind (deleteProperty _ _) fun _ => give _
  | loopItem loop item => exact Keeps.bind (writeReference s ref item) fun _ => Keeps.pure _ rfl

theorem useMember (use : MemberUse) (target : Value) (key : String) :
    L.Moves s (useMember s use target key) := by
  unfold Act.useMember
  cases use with
  | read implicit => exact Keeps.bind (readMember _ _ _) fun _ => give _
  | callee implicit args => exact Keeps.bind (readMember _ _ _) fun _ => Keeps.pure _ rfl
  | probe arg =>
    refine Keeps.bind (Holds.reads fun h P => lacks_awaiting h P target key) fun b => ?_
    split
    · exact give _
    · exact evalFor _ _
  | refer implicit use => exact useReference _ _

theorem startKey (use : MemberUse) (target : Value) (key : MemberKey) :
    L.Moves s (startKey s use target key) := by
  cases key with
  | named name => exact useMember _ _ _
  | computed e => exact evalFor _ _

theorem startReference (use : ReferenceUse) (target : Expr) :
    L.Moves s (startReference s use target) := by
  unfold Act.startReference
  split
  · exact useReference _ _
  · exact evalFor _ _
  · exact raise _ _

theorem useList (use : ListUse) (values : List Value) : L.Moves s (useList s use values) := by
  unfold Act.useList
  cases use with
  | array => exact Keeps.bind (newObject _) fun _ => give _
  | call callee this =>
    dsimp only
    split
    · rw [s.depth_eq]
      refine Keeps.bind (callValue s.scope callee this values (admits_frame _ _)) fun m => ?_
      exact Keeps.pure _ (m.frames_pushing _ _)
    · exact typeError _
  | construct callee => exact evalFor _ _

theorem startList (use : ListUse) (before : List Value) (es : List Expr) :
    L.Moves s (startList s use before es) := by
  cases es with
  | nil => exact useList _ _
  | cons e rest => exact evalFor _ _

theorem startProperties (object : ObjectId) (ps : List PropertyDef) :
    L.Moves s (startProperties object ps) := by
  cases ps with
  | nil => exact give _
  | cons p rest => exact evalFor _ _

theorem startSequence (last : Value) (es : List Expr) : L.Moves s (startSequence last es) := by
  cases es with
  | nil => exact give _
  | cons e rest => exact evalFor _ _

theorem startDelete (arg : Expr) : L.Moves s (startDelete s arg) := by
  unfold Act.startDelete
  split
  · exact startReference _ _
  · exact give _
  · exact evalFor _ _

theorem startTypeOf (arg : Expr) : L.Moves s (startTypeOf arg) := by
  unfold Act.startTypeOf
  split
  · exact evalFor _ _
  · exact evalFor _ _

theorem startExpr (e : Expr) : L.Moves s (startExpr s e) := by
  unfold Act.startExpr
  split
  case h_5 => exact startList _ _ _
  case h_6 => exact Keeps.bind (newObject _) fun _ => startProperties _ _
  case h_7 => exact Keeps.bind (getName _ _) fun _ => give _
  case h_8 => exact Keeps.bind (Holds.reads fun _ _ => rfl) fun _ => give _
  case h_9 => exact Keeps.bind (instantiate _ _) fun _ => Keeps.pure _ rfl
  case h_13 => exact startList _ _ _
  case h_14 => exact startTypeOf _
  case h_15 => exact startDelete _
  case h_18 => exact startReference _ _
  case h_21 => exact startReference _ _
  case h_23 => exact startSequence _ _
  all_goals exact Keeps.pure _ rfl

/-! ## Statements -/

theorem round (l : Loop) : L.Moves s (l.round s) := by
  unfold Loop.round
  split
  case h_6 =>
    split
    · exact Keeps.bind (setName _ _ _) fun _ => Keeps.pure _ rfl
    · exact startReference _ _
  all_goals exact Keeps.pure _ rfl

theorem afterTest (l : Loop) (v : Value) : L.Moves s (l.afterTest s v) := by
  unfold Loop.afterTest
  split
  · exact yields _
  · split
    · exact round l
    · exact Keeps.pure _ rfl

theorem afterBody (l : Loop) : L.Moves s (l.afterBody s) := by
  unfold Loop.afterBody
  split
  · exact evalFor _ _
  · exact evalFor _ _
  · exact round l

theorem absorb (l : Loop) (a : Abrupt) : L.Runs s (l.absorb s a) := by
  unfold Loop.absorb
  split
  · split
    · exact (yields _).runs
    · exact Runs.throw _
  · split
    · exact (afterBody l).runs
    · exact Runs.throw _
  · exact Runs.throw _

theorem startDeclarations (after : DeclareEnd) (ds : List VarDecl) :
    L.Moves s (startDeclarations s after ds) := by
  induction ds with
  | nil =>
    cases after with
    | done => exact yields _
    | loop l => exact round l
  | cons d rest ih =>
    unfold Act.startDeclarations
    split
    · exact evalFor _ _
    · exact ih

theorem startStatements (last : Value) (ts : List Stmt) :
    L.Moves s (startStatements last ts) := by
  cases ts <;> exact Keeps.pure _ rfl

theorem startFor (init : Option ForInit) (l : Loop) : L.Moves s (startFor s init l) := by
  unfold Act.startFor
  split
  · exact startDeclarations _ _
  · exact evalFor _ _
  · exact round l

theorem startStmt (t : Stmt) (labels : List String) : L.Runs s (startStmt s t labels) := by
  unfold Act.startStmt
  cases t with
  | declare span ds => exact (startDeclarations _ _).runs
  | ret span e =>
    cases e with
    | none => exact Runs.throw _
    | some e => exact (evalFor _ _).runs
  | whileLoop | doLoop => exact (round _).runs
  | forLoop => exact (startFor _ _).runs
  | leave | next => exact Runs.throw _
  | guarded => exact Runs.throw _
  | block => exact (startStatements _ _).runs
  | _ => exact Keeps.runs (Keeps.pure _ rfl)

/-! ## Continuations -/

theorem assign (ref : Reference) (v : Value) : L.Moves s (assign s ref v) :=
  Keeps.bind (writeReference s ref v) fun _ => give _

/-- Only the value of a `return` becomes a jump. -/
theorem receive_moves (k : Cont) (v : Value) (hk : k ≠ .ret) : L.Moves s (receive s k v) := by
  unfold Act.receive
  cases k with
  | ret => exact absurd rfl hk
  | element | callee | method => exact startList _ _ _
  | property object key rest =>
    exact Keeps.bind (set object key v) fun _ => startProperties _ _
  | memberTarget key use => exact startKey _ _ _
  | memberKey target use =>
    exact Keeps.bind (Holds.reads fun h P => h.key_awaiting P v) fun _ => useMember _ _ _
  | constructed args =>
    rw [s.depth_eq]
    exact construct v args
  | unary op => exact Keeps.bind (unary op v) fun _ => give _
  | binaryRight op left => exact Keeps.bind (binary op left v) fun _ => give _
  | logicalLeft | logicalOld =>
    dsimp only
    split
    · exact give _
    · exact evalFor _ _
  | sequence rest => exact startSequence _ _
  | updateOld ref op before =>
    refine Keeps.bind (Holds.reads fun h P => h.number_awaiting P v) fun old => ?_
    exact Keeps.bind (writeReference s ref _) fun _ => give _
  | assignValue ref => exact assign _ _
  | compoundValue ref op old => exact Keeps.bind (binary op old v) fun _ => assign _ _
  | body rest => exact startStatements _ _
  | declare name rest after => exact Keeps.bind (setName _ _ _) fun _ => startDeclarations _ _
  | raise => exact Keeps.throw trivial
  | cond yes no =>
    dsimp only
    split
    · exact Keeps.pure _ rfl
    · cases no with
      | none => exact yields _
      | some t => exact Keeps.pure _ rfl
  | loopInit l | loopUpdate l => exact round l
  | loopTest l => exact afterTest l v
  | loopBody l => exact afterBody _
  | eachSource kind target body labels => exact Keeps.bind (loopItems kind v) fun _ => round _
  | _ => exact Keeps.pure _ rfl

theorem receive (k : Cont) (v : Value) : L.Runs s (receive s k v) := by
  by_cases hk : k = .ret
  · subst hk
    exact Runs.throw _
  · exact (receive_moves k v hk).runs

theorem intercept (k : Cont) (a : Abrupt) : L.Runs s (intercept s k a) := by
  unfold Act.intercept
  split
  · exact absorb _ _
  · split
    · exact (yields _).runs
    · exact Runs.throw _
  · exact Runs.throw _

/-! ## Machines -/

/-- Two steps lead to the same machine and to related cores. -/
def Follows (L : Law) (p q : Progress × Core) : Prop :=
  p.1 = q.1 ∧ L.rel p.1.frames p.2 q.2

theorem frames_apply (a : Activation) (callers : List Activation) (m : Move) :
    (Machine.apply a callers m).frames = m.frames (a.frame :: callers.map Activation.frame) := by
  cases m <;> rfl

theorem perform {c d : Core} (a : Activation) (callers : List Activation) {p : Act Move}
    (hp : L.Runs ⟨a.frame, callers⟩ p) (h : L.rel (a.frame :: callers.map Activation.frame) c d) :
    L.Follows (Machine.perform a callers p c) (Machine.perform a callers p d) := by
  have hpr := hp c d h
  unfold Machine.perform
  generalize p c = r at hpr
  generalize p d = t at hpr
  cases hpr with
  | ok hrel =>
    refine ⟨rfl, ?_⟩
    change L.rel (Machine.apply a callers _).frames _ _
    rw [frames_apply]
    exact hrel
  | error _ hrel => exact ⟨rfl, hrel⟩

/-- A start on related cores leads to the same machine and to related cores. -/
theorem start {c d : Core} {p : Act Move}
    (hpr : L.Agree Abrupt.IsFailure (Move.frames []) [] (p c) (p d)) :
    (Machine.start p c).1 = (Machine.start p d).1 ∧
      L.rel (Machine.start p c).1.frames (Machine.start p c).2 (Machine.start p d).2 := by
  unfold Machine.start
  generalize p c = r at hpr
  generalize p d = t at hpr
  cases hpr with
  | @ok m c' d' hrel =>
    cases m with
    | go push control => exact ⟨rfl, hrel⟩
    | linked frame v => exact ⟨rfl, L.close hrel⟩
    | enter push a control => exact ⟨rfl, hrel⟩
  | error _ hrel => exact ⟨rfl, hrel⟩

/-- **A step keeps every law**, the checkpoint of a pending value apart. -/
theorem step {m : Machine} {c d : Core} (h : L.rel m.frames c d)
    (hv : ∀ id, m.control ≠ .checkpoint (.pending id)) : L.Follows (m.step c) (m.step d) := by
  obtain ⟨control, stack⟩ := m
  cases stack with
  | nil => cases control <;> exact ⟨rfl, h⟩
  | cons a callers =>
    cases control with
    | eval e => exact perform (a.mark e.span) callers (startExpr e).runs (L.mark h _)
    | exec t labels => exact perform (a.mark t.span) callers (startStmt t labels) (L.mark h _)
    | waiting p => exact ⟨rfl, h⟩
    | checkpoint v =>
      cases v with
      | pending id => exact absurd rfl (hv id)
      | _ => exact ⟨rfl, h⟩
    | value v =>
      obtain ⟨frame, boundary, conts⟩ := a
      cases conts with
      | nil => exact ⟨rfl, L.close h⟩
      | cons k conts => exact perform ⟨frame, boundary, conts⟩ callers (receive k v) h
    | abrupt x =>
      obtain ⟨frame, boundary, conts⟩ := a
      cases conts with
      | nil => exact ⟨rfl, L.close h⟩
      | cons k conts => exact perform ⟨frame, boundary, conts⟩ callers (intercept k x) h

end Law

end Fermata
