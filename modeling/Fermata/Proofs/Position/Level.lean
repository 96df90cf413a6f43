import Fermata.Proofs.Name.Unit
import Fermata.Proofs.Position.Code

/-!
# What is under evaluation

A continuation waits for a part of a node that is under evaluation, and what it can do next depends on what
that node is. A loop that waits for its test belongs to a statement, an operand to an expression, and a list
of arguments to a call: nothing but a call opens an activation, and nothing but an expression comes to a
value that passes the checkpoint.

* `Level`: what a continuation says of the node.
* `Act.Needs`: an act asks for no more than is there.
* `Act.startExpr_needs`, `Act.startStmt_needs`, `Act.receive_needs`, `Act.intercept_needs`: the acts of a
  step, one by one.
-/

namespace Fermata

open Act

/-- What the node under evaluation is. -/
inductive Level where
  | any
  /-- A statement or an expression. -/
  | node
  | stmt
  | expr
  /-- A call, or a `new`. -/
  | call
  /-- A call that has not read the member that it calls. -/
  | member
deriving DecidableEq

/-- Evaluating the expression can open an activation. -/
def Expr.Invokes : Expr → Prop
  | .call .. | .construct .. => True
  | _ => False

/-- The piece of code is what the level says. -/
def Level.At : Level → Code → Prop
  | .any, _ | .node, .expr _ | .node, .stmt _ | .stmt, .stmt _ | .expr, .expr _ => True
  | .call, .expr e => e.Invokes
  | .member, .expr (.call ..) => True
  | _, _ => False

namespace Level

/-- What holds of a level holds of those that say less. -/
structure Grants (R : Level → Prop) : Prop where
  any : R .any
  stmt : R .stmt → R .node
  expr : R .expr → R .node
  call : R .call → R .expr
  member : R .member → R .call

variable {R : Level → Prop}

theorem Grants.node (hR : Grants R) {l : Level} (h : R l) (hl : l ≠ .any) : R .node := by
  cases l with
  | any => exact absurd rfl hl
  | node => exact h
  | stmt => exact hR.stmt h
  | expr => exact hR.expr h
  | call => exact hR.expr (hR.call h)
  | member => exact hR.expr (hR.call (hR.member h))

theorem grants_at (c : Code) : Grants (At · c) where
  any := trivial
  stmt h := by
    cases c with
    | stmt => trivial
    | _ => exact h.elim
  expr h := by
    cases c with
    | expr => trivial
    | _ => exact h.elim
  call h := by
    cases c with
    | expr => trivial
    | _ => exact h.elim
  member h := by
    cases c with
    | expr e => cases e <;> first | exact h.elim | trivial
    | _ => exact h.elim

/-- What can be said of a piece of code that is under evaluation, a member that a call has yet to read
apart. -/
def Open (c : Code) (l : Level) : Prop := l.At c ∧ l ≠ .member

theorem grants_open (c : Code) : Grants (Open c) where
  any := ⟨trivial, nofun⟩
  stmt h := ⟨(grants_at c).stmt h.1, nofun⟩
  expr h := ⟨(grants_at c).expr h.1, nofun⟩
  call h := ⟨(grants_at c).call h.1, nofun⟩
  member h := absurd rfl h.2

end Level

/-! ## Levels of a machine -/

/-- Where a reference is used. -/
def ReferenceUse.level : ReferenceUse → Level
  | .loopItem .. => .stmt
  | .update .. | .assign .. | .delete => .expr

/-- Where a member is used. -/
def MemberUse.level : MemberUse → Level
  | .callee .. => .member
  | .refer _ use => use.level
  | .read _ | .probe _ => .expr

theorem ReferenceUse.level_ne (use : ReferenceUse) : decide (use.level = .any) = false := by
  cases use <;> rfl

theorem MemberUse.level_ne (use : MemberUse) : decide (use.level = .any) = false := by
  cases use with
  | refer _ use => exact use.level_ne
  | _ => rfl

/-- Where a list of values is used. -/
def ListUse.level : ListUse → Level
  | .array => .expr
  | .call .. | .construct _ => .call

/-- Where the continuation waits. -/
def Cont.level : Cont → Level
  | .body _ => .any
  | .declare .. | .ret | .raise | .cond .. | .loopInit _ | .loopTest _ | .loopBody _ | .loopUpdate _
  | .eachSource .. | .labeled _ => .stmt
  | .element use _ _ => use.level
  | .memberTarget _ use | .memberKey _ use => use.level
  | .method .. => .member
  | .callee _ | .constructed _ => .call
  | _ => .expr

/-- Where the continuation goes on once it has its value: the member is read then. -/
def Cont.demand : Cont → Level
  | .method .. => .call
  | k => k.level

/-- What an expression is when it begins. -/
def Expr.level : Expr → Level
  | .call _ (.member ..) _ => .member
  | .call .. | .construct .. => .call
  | _ => .expr

/-- Where this can come next. -/
def Control.level : Control → Level
  | .eval _ => .node
  | .checkpoint _ | .waiting _ => .expr
  | .exec .. | .value _ | .abrupt _ => .any

/-! ## Acts -/

/-- The frame has the name of its record. -/
def Frame.Named (f : Frame) : Prop := ∃ r, f.unit.record? f.record = some r ∧ f.name = r.name

/-- The activation is about to execute the first statement of a body. -/
structure Activation.AtStart (a : Activation) (control : Control) : Prop where
  named : a.frame.Named
  body : ∃ body, a.conts = (startBody body).1 ∧ control = (startBody body).2

/-- The move of a call. -/
def Move.Calls : Move → Prop
  | .go push control => push = [] ∧ ∃ v, control = .value v
  | .linked .. => False
  | .enter push a control => push = [] ∧ a.AtStart control

/-- The move leaves at most one continuation, and does nothing that needs more than `R` says. -/
def Move.Needs (R : Level → Prop) (f : Frame) : Move → Prop
  | .go push control => (push = [] ∨ ∃ k, push = [k] ∧ R k.level) ∧ R control.level
  | .linked g _ => R .expr ∧ g.location = f.location
  | .enter push a control => (push = [] ∨ ∃ k, push = [k] ∧ R k.level) ∧ R .call ∧ a.AtStart control

namespace Act

/-- Every move that the act gives is as it should be. -/
def Moves (Q : Move → Prop) (p : Act Move) : Prop := ∀ c m d, p c = .ok m d → Q m

namespace Moves

variable {Q T : Move → Prop} {α : Type}

theorem pure {m : Move} (hm : Q m) : Moves Q (Pure.pure m) := by
  intro c m d hok
  cases hok
  exact hm

theorem throw (x : Abrupt) : Moves Q (throw x) := by
  intro c m d hok
  cases hok

theorem raise (kind message : String) : Moves Q (Act.raise kind message) := by
  intro c m d hok
  cases hok

theorem bind {p : Act α} {q : α → Act Move} (hq : ∀ a, Moves Q (q a)) : Moves Q (p >>= q) := by
  intro c m d hok
  simp only [Bind.bind, EStateM.bind] at hok
  cases hr : p c with
  | ok a c' =>
    rw [hr] at hok
    exact hq a c' m d hok
  | error x c' =>
    rw [hr] at hok
    cases hok

theorem map {p : Act Move} {f : Move → Move} (hp : Moves Q p) (hf : ∀ m, Q m → T (f m)) :
    Moves T (do return f (← p)) := by
  intro c m d hok
  simp only [Bind.bind, EStateM.bind] at hok
  cases hr : p c with
  | ok a c' =>
    rw [hr] at hok
    cases hok
    exact hf a (hp c a d hr)
  | error x c' =>
    rw [hr] at hok
    cases hok

end Moves

/-! ### Calls -/

theorem openFrame_calls {f : Frame} (hf : f.Named) (b : Boundary) (body : List Stmt) :
    Moves Move.Calls (openFrame f b body) := by
  intro c m d hok
  have hends := openFrame_ends (K := (· = c)) f b body c rfl
  rw [hok] at hends
  cases hends with
  | ok hm =>
    obtain ⟨g, hg, rfl⟩ := hm
    obtain ⟨r, hr, hname⟩ := hf
    refine ⟨rfl, ⟨r, ?_, hg.name.trans hname⟩, body, rfl, rfl⟩
    rw [hg.unit, hg.record]
    exact hr

/-- The frame of a compiled unit has the name of the record of the top level. -/
theorem named_unitFrame {u : CodeUnit} (hu : u.Compiled) (scope : ScopeId) :
    (unitFrame u scope).Named := by
  obtain ⟨p, outer, hp⟩ := hu.madeFrom
  obtain ⟨r, hr, -⟩ := hp.top
  refine ⟨r, hr, ?_⟩
  unfold unitFrame
  rw [hr]

theorem openUnit_calls {u : CodeUnit} (hu : u.Compiled) (scope : ScopeId) :
    Moves Move.Calls (openUnit u scope) :=
  openFrame_calls (named_unitFrame hu scope) _ _

theorem callUnit_calls {u : CodeUnit} (hu : u.Compiled) (depth : Nat) (scope : ScopeId) :
    Moves Move.Calls (callUnit depth u scope) :=
  .bind fun _ => openUnit_calls hu scope

theorem callClosure_calls (depth : Nat) (id : ClosureId) (this : Value) (args : List Value) :
    Moves Move.Calls (callClosure depth id this args) := by
  refine .bind fun _ => .bind fun c => ?_
  dsimp only
  split
  · exact .throw _
  · split
    · exact .throw _
    · rename_i r hr
      exact .bind fun _ => openFrame_calls ⟨r, hr, rfl⟩ _ _

theorem evalCode_calls (depth : Nat) (scope : ScopeId) (code : Value) :
    Moves Move.Calls (evalCode depth scope code) := by
  unfold evalCode
  split
  · refine .bind fun names => ?_
    split
    · rename_i u hu
      exact callUnit_calls ⟨_, _, hu⟩ depth scope
    · exact .raise _ _
  · exact .pure ⟨rfl, _, rfl⟩

theorem callValue_calls (depth : Nat) (scope : ScopeId) (callee this : Value) (args : List Value) :
    Moves Move.Calls (callValue depth scope callee this args) := by
  unfold callValue
  split
  · exact callClosure_calls depth _ this args
  · refine .bind fun c => ?_
    split
    · exact evalCode_calls depth scope _
    · exact .bind fun _ => .bind fun _ => .pure ⟨rfl, _, rfl⟩
  · exact .raise _ _

end Act

/-- A call that hands its value to a continuation. -/
theorem Move.Calls.needs {R : Level → Prop} {f : Frame} {m : Move} {k : Cont} (hm : m.Calls)
    (hk : R k.level) (hcall : R .call) (hany : R .any) : (m.pushing [k]).Needs R f := by
  cases m with
  | go push control =>
    obtain ⟨rfl, v, rfl⟩ := hm
    exact ⟨.inr ⟨k, rfl, hk⟩, hany⟩
  | linked => exact hm.elim
  | enter push a control =>
    obtain ⟨rfl, hstart⟩ := hm
    exact ⟨.inr ⟨k, rfl, hk⟩, hcall, hstart⟩

namespace Act

variable {R : Level → Prop} {f : Frame} {s : Site}

/-- The act needs no more than `R` says. -/
abbrev Needs (R : Level → Prop) (f : Frame) (p : Act Move) : Prop := Moves (Move.Needs R f) p

/-! ### Expressions -/

theorem give_needs (h : R .expr) (v : Value) : Needs R f (give v) := .pure ⟨.inl rfl, h⟩

theorem yields_needs (h : R .any) (v : Value) : Needs R f (yields v) := .pure ⟨.inl rfl, h⟩

theorem evalFor_needs {l : Level} {k : Cont} (hR : Level.Grants R) (h : R l) (e : Expr)
    (hk : k.level = l) (hany : decide (l = .any) = false) : Needs R f (evalFor k e) :=
  .pure ⟨.inr ⟨k, rfl, hk ▸ h⟩, hR.node h (of_decide_eq_false hany)⟩

theorem useReference_needs (hR : Level.Grants R) {use : ReferenceUse} (h : R use.level)
    (ref : Reference) : Needs R f (useReference s use ref) := by
  unfold useReference
  cases use with
  | update op before => exact .bind fun _ => .pure ⟨.inr ⟨_, rfl, h⟩, h⟩
  | assign op value =>
    cases op with
    | plain => exact evalFor_needs hR h value rfl rfl
    | compound op => exact .bind fun _ => .pure ⟨.inr ⟨_, rfl, h⟩, h⟩
    | logical op => exact .bind fun _ => .pure ⟨.inr ⟨_, rfl, h⟩, h⟩
  | delete =>
    cases ref with
    | binding name => exact give_needs h _
    | property => exact .bind fun _ => give_needs h _
  | loopItem loop item => exact .bind fun _ => .pure ⟨.inr ⟨_, rfl, h⟩, hR.any⟩

theorem useMember_needs (hR : Level.Grants R) {use : MemberUse} (h : R use.level) (target : Value)
    (key : String) : Needs R f (useMember s use target key) := by
  unfold useMember
  cases use with
  | read => exact .bind fun _ => give_needs h _
  | callee implicit args =>
    exact .bind fun _ => .pure ⟨.inr ⟨_, rfl, h⟩, hR.call (hR.member h)⟩
  | probe arg =>
    refine .bind fun _ => ?_
    split
    · exact give_needs h _
    · exact evalFor_needs hR h arg rfl rfl
  | refer _ use => exact useReference_needs hR h _

theorem startKey_needs (hR : Level.Grants R) {use : MemberUse} (h : R use.level) (target : Value)
    (key : MemberKey) : Needs R f (startKey s use target key) := by
  cases key with
  | named name => exact useMember_needs hR h _ _
  | computed e => exact evalFor_needs hR h e rfl use.level_ne

theorem startReference_needs (hR : Level.Grants R) (use : ReferenceUse) (h : R use.level)
    (target : Expr) : Needs R f (startReference s use target) := by
  unfold startReference
  split
  · exact useReference_needs hR h _
  · exact evalFor_needs hR h _ rfl use.level_ne
  · exact .raise _ _

theorem useList_needs (hR : Level.Grants R) {use : ListUse} (h : R use.level) (values : List Value) :
    Needs R f (useList s use values) := by
  unfold useList
  cases use with
  | array => exact .bind fun _ => give_needs h _
  | call callee this =>
    dsimp only
    split
    · exact (callValue_calls _ _ _ _ _).map fun m hm => hm.needs (hR.call h) h hR.any
    · exact .raise _ _
  | construct callee => exact evalFor_needs hR h callee rfl rfl

theorem startList_needs (hR : Level.Grants R) (use : ListUse) (h : R use.level) (before : List Value)
    (es : List Expr) : Needs R f (startList s use before es) := by
  cases es with
  | nil => exact useList_needs hR h _
  | cons e rest => exact evalFor_needs hR h e rfl (by cases use <;> rfl)

theorem startProperties_needs (hR : Level.Grants R) (h : R .expr) (object : ObjectId)
    (ps : List PropertyDef) : Needs R f (startProperties object ps) := by
  cases ps with
  | nil => exact give_needs h _
  | cons p rest => exact evalFor_needs hR h _ rfl rfl

theorem startSequence_needs (hR : Level.Grants R) (h : R .expr) (last : Value) (es : List Expr) :
    Needs R f (startSequence last es) := by
  cases es with
  | nil => exact give_needs h _
  | cons e rest => exact evalFor_needs hR h e rfl rfl

theorem startDelete_needs (hR : Level.Grants R) (h : R .expr) (arg : Expr) :
    Needs R f (startDelete s arg) := by
  unfold startDelete
  split
  · exact startReference_needs hR .delete h _
  · exact give_needs h _
  · exact evalFor_needs hR h _ rfl rfl

theorem startTypeOf_needs (hR : Level.Grants R) (h : R .expr) (arg : Expr) :
    Needs R f (startTypeOf arg) := by
  unfold startTypeOf
  split <;> exact evalFor_needs hR h _ rfl rfl

/-- Linking a literal leaves the activation where it is. -/
theorem instantiate_location {g g' : Frame} {node : Nat} {c d : Core} {id : ClosureId}
    (h : instantiate g node c = .ok (id, g') d) : g'.location = g.location := by
  rw [Law.instantiate_eq] at h
  split at h
  · cases h
  · split at h
    · cases h
    · split at h
      · cases h
        rfl
      · cases h

theorem startExpr_needs (hR : Level.Grants R) {e : Expr} (h : R e.level) :
    Needs R s.frame (startExpr s e) := by
  have hexpr : R .expr := by
    cases e with
    | call span callee args =>
      cases callee with
      | member => exact hR.call (hR.member h)
      | _ => exact hR.call h
    | construct => exact hR.call h
    | _ => exact h
  unfold startExpr
  cases e with
  | number | string | bool | null => exact give_needs h _
  | array span es => exact startList_needs hR .array h _ _
  | object span ps => exact .bind fun _ => startProperties_needs hR h _ _
  | ident | this => exact .bind fun _ => give_needs h _
  | function span fn =>
    intro c m d hok
    dsimp only at hok
    simp only [Bind.bind, EStateM.bind] at hok
    cases hr : instantiate s.frame fn.id c with
    | ok r c' =>
      rw [hr] at hok
      cases hok
      exact ⟨h, instantiate_location hr⟩
    | error x c' =>
      rw [hr] at hok
      cases hok
  | member => exact evalFor_needs hR h _ rfl rfl
  | call span callee args =>
    cases callee with
    | member => exact evalFor_needs hR h _ rfl rfl
    | _ => exact evalFor_needs hR h _ rfl rfl
  | construct span callee args => exact startList_needs hR (.construct callee) h _ _
  | unary span op arg =>
    cases op with
    | typeOf => exact startTypeOf_needs hR h arg
    | delete => exact startDelete_needs hR h arg
    | _ => exact evalFor_needs hR h arg rfl rfl
  | update span op before target => exact startReference_needs hR (.update op before) h target
  | assign span op target value => exact startReference_needs hR (.assign op value) h target
  | binary | logical | conditional => exact evalFor_needs hR h _ rfl rfl
  | sequence span es => exact startSequence_needs hR h _ _

/-! ### Statements -/

theorem enterBody_needs (hR : Level.Grants R) (h : R .stmt) (l : Loop) : Needs R f l.enterBody :=
  .pure ⟨.inr ⟨_, rfl, h⟩, hR.any⟩

theorem round_needs (hR : Level.Grants R) (h : R .stmt) (l : Loop) : Needs R f (l.round s) := by
  unfold Loop.round
  split
  case h_6 =>
    dsimp only
    split
    · exact .bind fun _ => enterBody_needs hR h _
    · exact startReference_needs hR (.loopItem _ _) h _
  case h_5 => exact yields_needs hR.any _
  case h_1 | h_3 => exact evalFor_needs hR h _ rfl rfl
  all_goals exact enterBody_needs hR h l

theorem afterTest_needs (hR : Level.Grants R) (h : R .stmt) (l : Loop) (v : Value) :
    Needs R f (l.afterTest s v) := by
  unfold Loop.afterTest
  split
  · exact yields_needs hR.any _
  · split
    · exact round_needs hR h _
    · exact enterBody_needs hR h _

theorem afterBody_needs (hR : Level.Grants R) (h : R .stmt) (l : Loop) :
    Needs R f (l.afterBody s) := by
  unfold Loop.afterBody
  split
  · exact evalFor_needs hR h _ rfl rfl
  · exact evalFor_needs hR h _ rfl rfl
  · exact round_needs hR h _

theorem startDeclarations_needs (hR : Level.Grants R) (h : R .stmt) (after : DeclareEnd)
    (ds : List VarDecl) : Needs R f (startDeclarations s after ds) := by
  induction ds with
  | nil =>
    cases after with
    | done => exact yields_needs hR.any _
    | loop l => exact round_needs hR h l
  | cons d rest ih =>
    unfold startDeclarations
    split
    · exact evalFor_needs hR h _ rfl rfl
    · exact ih

theorem startStatements_needs (hR : Level.Grants R) (last : Value) (ts : List Stmt) :
    Needs R f (startStatements last ts) := by
  cases ts with
  | nil => exact yields_needs hR.any _
  | cons t rest => exact .pure ⟨.inr ⟨_, rfl, hR.any⟩, hR.any⟩

theorem startFor_needs (hR : Level.Grants R) (h : R .stmt) (init : Option ForInit) (l : Loop) :
    Needs R f (startFor s init l) := by
  unfold startFor
  split
  · exact startDeclarations_needs hR h _ _
  · exact evalFor_needs hR h _ rfl rfl
  · exact round_needs hR h l

theorem startStmt_needs (hR : Level.Grants R) (h : R .stmt) (t : Stmt) (labels : List String) :
    Needs R f (startStmt s t labels) := by
  cases t with
  | expression => exact .pure ⟨.inl rfl, hR.stmt h⟩
  | declare => exact startDeclarations_needs hR h _ _
  | function | empty => exact yields_needs hR.any _
  | ret span e =>
    cases e with
    | none => exact .throw _
    | some e => exact evalFor_needs hR h e rfl rfl
  | cond span test yes no => exact evalFor_needs hR h test rfl rfl
  | whileLoop span test body => exact round_needs (s := s) hR h ⟨.whileLoop test, body, labels, .undefined⟩
  | doLoop span body test => exact round_needs (s := s) hR h ⟨.doLoop test, body, labels, .undefined⟩
  | forLoop => exact startFor_needs hR h _ _
  | forEach => exact evalFor_needs hR h _ rfl rfl
  | raise => exact evalFor_needs hR h _ rfl rfl
  | leave | next | guarded => exact .throw _
  | labeled => exact .pure ⟨.inr ⟨_, rfl, h⟩, hR.any⟩
  | block => exact startStatements_needs hR _ _

/-! ### Continuations -/

theorem assign_needs (h : R .expr) (ref : Reference) (v : Value) : Needs R f (assign s ref v) :=
  .bind fun _ => give_needs h v

theorem construct_needs (hR : Level.Grants R) (h : R .call) (depth : Nat) (callee : Value)
    (args : List Value) : Needs R f (construct depth callee args) := by
  unfold construct
  cases callee with
  | function id =>
    refine .bind fun proto => .bind fun object => ?_
    exact (callClosure_calls depth id (.object object) args).map fun m hm =>
      hm.needs (hR.call h) h hR.any
  | native id =>
    refine .bind fun n => ?_
    split
    · exact .bind fun _ => .pure ⟨.inl rfl, hR.call h⟩
    · exact .bind fun _ => .raise _ _
  | _ => exact .bind fun _ => .raise _ _

theorem receive_needs (hR : Level.Grants R) {k : Cont} (h : R k.demand) (v : Value) :
    Needs R f (receive s k v) := by
  unfold receive
  cases k with
  | settle | made | typeOf | instead => exact give_needs h _
  | element use before rest => exact startList_needs hR use h _ _
  | property object key rest => exact .bind fun _ => startProperties_needs hR h _ _
  | memberTarget key use => exact startKey_needs hR h _ _
  | memberKey target use => exact .bind fun _ => useMember_needs hR h _ _
  | callee args => exact startList_needs hR (.call v .undefined) h _ _
  | method receiver args => exact startList_needs hR (.call v receiver) h _ _
  | constructed args => exact construct_needs hR h _ v args
  | unary | binaryRight => exact .bind fun _ => give_needs h _
  | binaryLeft op right => exact evalFor_needs hR h right rfl rfl
  | choose => exact evalFor_needs hR h _ rfl rfl
  | compoundOld ref op value => exact evalFor_needs hR h value rfl rfl
  | logicalLeft op right =>
    dsimp only
    split
    · exact give_needs h _
    · exact evalFor_needs hR h right rfl rfl
  | logicalOld ref op value =>
    dsimp only
    split
    · exact give_needs h _
    · exact evalFor_needs hR h value rfl rfl
  | sequence rest => exact startSequence_needs hR h _ _
  | updateOld => exact .bind fun _ => .bind fun _ => give_needs h _
  | assignValue ref => exact assign_needs h ref v
  | compoundValue ref op old => exact .bind fun _ => assign_needs h ref _
  | body rest => exact startStatements_needs hR _ _
  | declare => exact .bind fun _ => startDeclarations_needs hR h _ _
  | ret | raise => exact .throw _
  | cond yes no =>
    dsimp only
    split
    · exact .pure ⟨.inl rfl, hR.any⟩
    · cases no with
      | none => exact yields_needs hR.any _
      | some t => exact .pure ⟨.inl rfl, hR.any⟩
  | loopInit l | loopUpdate l => exact round_needs hR h l
  | loopTest l => exact afterTest_needs hR h l v
  | loopBody l => exact afterBody_needs hR h _
  | eachSource => exact .bind fun _ => round_needs hR h _
  | labeled => exact yields_needs hR.any _

/-- Only loops and labels stop a transfer. -/
theorem intercept_needs (hR : Level.Grants R) {k : Cont} (h : k.level = .stmt → R .stmt) (x : Abrupt) :
    Needs R f (intercept s k x) := by
  unfold intercept
  split
  · have hstmt := h rfl
    unfold Loop.absorb
    split
    · split
      · exact yields_needs hR.any _
      · exact .throw _
    · split
      · exact afterBody_needs hR hstmt _
      · exact .throw _
    · exact .throw _
  · split
    · exact yields_needs hR.any _
    · exact .throw _
  · exact .throw _

end Act

end Fermata
