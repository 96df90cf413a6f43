import Fermata.Proofs.Frame.Balance

/-!
# Strands

An act knows of its site the scope of the innermost activation and how many activations are live; only a
function literal is linked to the frame itself. So two sites that are alike in these make the same moves,
whatever the continuations that wait below.

What an activation evaluates therefore happens in the activation and above it, and does not depend on what
it has left to do, on what it is called by, or on where it stands in the source. A `Strand` is what is left
of a machine without all that, and the steps of a strand are those of the machine in all surroundings alike.

* `Site.Alike`: sites that acts cannot tell apart.
* `Strand.Steps`, `Strand.Parks`: a step in all surroundings.
* `Strand.steps_eval`, `Strand.steps_exec`, `Strand.steps_receive`, `Strand.steps_intercept`,
  `Strand.steps_checkpoint`: the steps of the activation itself, given by its acts.
* `Strand.steps_or_parks`: a strand goes on until it is back where it began.
* `Strand.Steps.push`: what is put behind its continuations stays there.
-/

namespace Fermata

/-- The scopes are the same, and as many activations are live. -/
structure Site.Alike (s t : Site) : Prop where
  scope : s.scope = t.scope
  depth : s.depth = t.depth

namespace Site.Alike

open Act

variable {s t : Site}

theorem readReference (h : s.Alike t) (ref : Reference) :
    Act.readReference s ref = Act.readReference t ref := by
  cases ref with
  | binding name => rw [Act.readReference, h.scope, Act.readReference]
  | property object key implicit => rfl

theorem writeReference (h : s.Alike t) (ref : Reference) (v : Value) :
    Act.writeReference s ref v = Act.writeReference t ref v := by
  cases ref with
  | binding name => rw [Act.writeReference, h.scope, Act.writeReference]
  | property object key implicit => rfl

theorem assign (h : s.Alike t) (ref : Reference) (v : Value) :
    Act.assign s ref v = Act.assign t ref v := by
  rw [Act.assign, h.writeReference, Act.assign]

theorem useReference (h : s.Alike t) (use : ReferenceUse) (ref : Reference) :
    Act.useReference s use ref = Act.useReference t use ref := by
  have hwrite : Act.writeReference s ref = Act.writeReference t ref := funext (h.writeReference ref)
  unfold Act.useReference
  rw [h.readReference, hwrite]

theorem useMember (h : s.Alike t) (use : MemberUse) (target : Value) (key : String) :
    Act.useMember s use target key = Act.useMember t use target key := by
  cases use with
  | refer implicit use => exact h.useReference use _
  | _ => rfl

theorem startKey (h : s.Alike t) (use : MemberUse) (target : Value) (key : MemberKey) :
    Act.startKey s use target key = Act.startKey t use target key := by
  cases key with
  | named name => exact h.useMember use target name
  | computed e => rfl

theorem startReference (h : s.Alike t) (use : ReferenceUse) (target : Expr) :
    Act.startReference s use target = Act.startReference t use target := by
  cases target with
  | ident span name => exact h.useReference use _
  | _ => rfl

theorem useList (h : s.Alike t) (use : ListUse) (values : List Value) :
    Act.useList s use values = Act.useList t use values := by
  unfold Act.useList
  rw [h.scope, h.depth]

theorem startList (h : s.Alike t) (use : ListUse) (before : List Value) (es : List Expr) :
    Act.startList s use before es = Act.startList t use before es := by
  cases es with
  | nil => exact h.useList use _
  | cons e es => rfl

theorem startDelete (h : s.Alike t) (arg : Expr) : Act.startDelete s arg = Act.startDelete t arg := by
  cases arg with
  | member span object key implicit => exact h.startReference .delete (.member span object key implicit)
  | _ => rfl

/-- An expression other than a function literal begins alike. -/
theorem startExpr (h : s.Alike t) {e : Expr} (he : ∀ span fn, e ≠ .function span fn) :
    Act.startExpr s e = Act.startExpr t e := by
  cases e with
  | array span elements => exact h.startList _ _ _
  | ident span name => rw [Act.startExpr, h.scope, Act.startExpr]
  | this span =>
    rw [Act.startExpr, h.scope, Act.startExpr]
  | function span fn => exact absurd rfl (he span fn)
  | construct span callee args => exact h.startList _ _ _
  | call span callee args => cases callee <;> rfl
  | unary span op arg =>
    cases op with
    | delete => exact h.startDelete arg
    | _ => rfl
  | update span op before target => exact h.startReference _ _
  | assign span op target value => exact h.startReference _ _
  | _ => rfl

/-! ## Statements -/

theorem round (h : s.Alike t) (l : Loop) : l.round s = l.round t := by
  obtain ⟨kind, body, labels, last⟩ := l
  cases kind with
  | forEach target items =>
    cases items with
    | nil => rfl
    | cons item items =>
      cases target with
      | declare span name =>
        unfold Loop.round
        rw [h.scope]
      | expression e => exact h.startReference _ _
  | forLoop test update => cases test <;> rfl
  | _ => rfl

theorem afterTest (h : s.Alike t) (l : Loop) (v : Value) : l.afterTest s v = l.afterTest t v := by
  unfold Loop.afterTest
  rw [h.round]

theorem afterBody (h : s.Alike t) (l : Loop) : l.afterBody s = l.afterBody t := by
  unfold Loop.afterBody
  rw [h.round]

theorem absorb (h : s.Alike t) (l : Loop) (x : Abrupt) : l.absorb s x = l.absorb t x := by
  unfold Loop.absorb
  rw [h.afterBody]

theorem startDeclarations (h : s.Alike t) (after : DeclareEnd) (ds : List VarDecl) :
    Act.startDeclarations s after ds = Act.startDeclarations t after ds := by
  induction ds with
  | nil =>
    cases after with
    | done => rfl
    | loop l => exact h.round l
  | cons d ds ih =>
    unfold Act.startDeclarations
    rw [ih]

theorem startFor (h : s.Alike t) (init : Option ForInit) (l : Loop) :
    Act.startFor s init l = Act.startFor t init l := by
  unfold Act.startFor
  rw [h.round]
  cases init with
  | none => rfl
  | some init =>
    cases init with
    | declare decls => exact h.startDeclarations _ _
    | expression e => rfl

/-- Every statement begins alike. -/
theorem startStmt (h : s.Alike t) (stmt : Stmt) (labels : List String) :
    Act.startStmt s stmt labels = Act.startStmt t stmt labels := by
  cases stmt with
  | declare span decls => exact h.startDeclarations _ _
  | whileLoop span test body => exact h.round ⟨.whileLoop test, body, labels, .undefined⟩
  | doLoop span body test => exact h.round ⟨.doLoop test, body, labels, .undefined⟩
  | forLoop span init test update body =>
    exact h.startFor init ⟨.forLoop test update, body, labels, .undefined⟩
  | ret span arg => cases arg <;> rfl
  | _ => rfl

/-! ## Continuations -/

/-- A value is received alike. -/
theorem receive (h : s.Alike t) (k : Cont) (v : Value) : Act.receive s k v = Act.receive t k v := by
  cases k with
  | element use before rest => exact h.startList _ _ _
  | memberTarget key use => exact h.startKey _ _ _
  | memberKey target use => 
    unfold Act.receive
    simp only [h.useMember]
  | callee args => exact h.startList _ _ _
  | method receiver args => exact h.startList _ _ _
  | constructed args => rw [Act.receive, h.depth, Act.receive]
  | updateOld ref op before =>
    unfold Act.receive
    simp only [h.writeReference]
  | assignValue ref => exact h.assign ref v
  | compoundValue ref op old =>
    unfold Act.receive
    simp only [h.assign]
  | declare name rest after =>
    unfold Act.receive
    simp only [h.scope, h.startDeclarations]
  | loopInit l => exact h.round l
  | loopTest l => exact h.afterTest l v
  | loopBody l => exact h.afterBody _
  | loopUpdate l => exact h.round l
  | eachSource kind target body labels =>
    unfold Act.receive
    simp only [h.round]
  | _ => rfl

/-- A transfer of control is met alike. -/
theorem intercept (h : s.Alike t) (k : Cont) (x : Abrupt) :
    Act.intercept s k x = Act.intercept t k x := by
  cases k with
  | loopBody l => exact h.absorb l x
  | labeled label =>
    cases x with
    | leave l => cases l <;> rfl
    | _ => rfl
  | _ => rfl

end Site.Alike

/-! ## Checkpoints -/

/-- The checkpoint of a pending value looks at the value and at the watch. -/
theorem Act.pass_pending (id : PendingId) (c : Core) :
    pass (.pending id) c =
      match (c.heap.pendings.get id).settlement? with
      | some (.fulfilled w) => .ok (.checkpoint w) c
      | some (.rejected reason) => .error (.thrown reason) c
      | none =>
        match c.engine.watch.touch.1 with
        | .suspended => .ok (.waiting id) (c.watching c.engine.watch.touch.2)
        | .unwatched => .ok (.value (.pending id)) (c.watching c.engine.watch.touch.2)
        | .double => .error (.fault .doubleSuspension) (c.watching c.engine.watch.touch.2) := by
  unfold pass
  dsimp only
  rw [reads_bind]
  cases (c.heap.pendings.get id).settlement? with
  | some s => cases s <;> rfl
  | none =>
    dsimp only
    rw [touch_bind]
    cases c.engine.watch <;> rfl

/-- What goes on in an activation and above it, as far as it is not what the activation had to do before:
how many children of its record it has passed, and the continuations that were put in front. -/
structure Strand where
  control : Control
  above : List Activation
  nextChild : Nat
  conts : List Cont

/-- What was there before: the activation is one of a function or a unit, it has something left to do, and
as many activations have called it. -/
structure Surroundings (depth : Nat) where
  boundary : Boundary
  rest : List Cont
  callers : List Activation
  length : callers.length = depth

namespace Strand

open Act

variable {f : Frame} {n : Nat} {k : Surroundings n} {w w' : Strand} {m : Machine} {c c' : Core}

/-- The activation. Where it stands in the source does not matter. -/
def base (f : Frame) (k : Surroundings n) (nextChild : Nat) (location : Span) (conts : List Cont) :
    Activation :=
  ⟨{ f with nextChild, location }, k.boundary, conts ++ k.rest⟩

/-- The machine stands where the strand says. -/
def In (f : Frame) (k : Surroundings n) (w : Strand) (m : Machine) : Prop :=
  ∃ location, m = ⟨w.control, w.above ++ base f k w.nextChild location w.conts :: k.callers⟩

/-- A step, whatever the surroundings. -/
def Steps (f : Frame) (n : Nat) (w : Strand) (c : Core) (w' : Strand) (c' : Core) : Prop :=
  ∀ (k : Surroundings n) m, w.In f k m → ∃ m', m.step c = (.running m', c') ∧ w'.In f k m'

/-- A step that touches a value that is not settled. -/
def Parks (f : Frame) (n : Nat) (w : Strand) (c : Core) (w' : Strand) (p : PendingId) (c' : Core) :
    Prop :=
  ∀ (k : Surroundings n) m, w.In f k m → ∃ m', m.step c = (.parked m' p, c') ∧ w'.In f k m'

/-- The strand is back where it began, with a value or a transfer of control. -/
def Back (w : Strand) : Prop :=
  w.above = [] ∧ w.conts = [] ∧ ((∃ v, w.control = .value v) ∨ ∃ x, w.control = .abrupt x)

/-! ## Moves -/

/-- Where a move of the activation itself leads. -/
def moved (nextChild : Nat) (conts : List Cont) : Move → Strand
  | .go push control => ⟨control, [], nextChild, push ++ conts⟩
  | .linked g v => ⟨.checkpoint v, [], g.nextChild, conts⟩
  | .enter push inner control => ⟨control, [inner], nextChild, push ++ conts⟩

/-- Where the act of the activation itself leads. -/
def performed (nextChild : Nat) (conts : List Cont) :
    EStateM.Result Abrupt Core Move → Strand × Core
  | .ok move d => (moved nextChild conts move, d)
  | .error x d => (⟨.abrupt x, [], nextChild, conts⟩, d)

/-- Where the act of an activation above leads. -/
def performedAbove (b : Activation) (bs : List Activation) (nextChild : Nat) (conts : List Cont) :
    EStateM.Result Abrupt Core Move → Strand × Core
  | .ok move d =>
    (⟨(Machine.apply b bs move).control, (Machine.apply b bs move).stack, nextChild, conts⟩, d)
  | .error x d => (⟨.abrupt x, b :: bs, nextChild, conts⟩, d)

theorem in_moved {i : Nat} {conts : List Cont} {location : Span} {move : Move}
    (hmove : move.Keeps { f with nextChild := i, location }) :
    (moved i conts move).In f k (Machine.apply (base f k i location conts) k.callers move) := by
  cases move with
  | go push control =>
    refine ⟨location, ?_⟩
    simp only [Machine.apply, moved, base, Activation.pushing, List.nil_append, List.append_assoc]
  | linked g v =>
    refine ⟨g.location, ?_⟩
    obtain ⟨hname, hscope, hunit, hrecord, -⟩ := hmove
    obtain ⟨name, scope, unit, record, nextChild, location'⟩ := g
    dsimp only at hname hscope hunit hrecord
    subst hname hscope hunit hrecord
    rfl
  | enter push inner control =>
    refine ⟨location, ?_⟩
    simp only [Machine.apply, moved, base, Activation.pushing, List.singleton_append,
      List.append_assoc]

theorem perform_in {i : Nat} {conts : List Cont} {location : Span} {act : Act Move}
    (hact : Keeping { f with nextChild := i, location } act) :
    ∃ m, Machine.perform (base f k i location conts) k.callers act c =
        (.running m, (performed i conts (act c)).2) ∧ (performed i conts (act c)).1.In f k m := by
  have hends := hact c trivial
  unfold Machine.perform
  generalize act c = r at hends
  cases hends with
  | ok hmove => exact ⟨_, rfl, in_moved hmove⟩
  | error _ => exact ⟨_, rfl, location, rfl⟩

theorem apply_append (b : Activation) (bs callers : List Activation) (move : Move) :
    Machine.apply b (bs ++ callers) move =
      ⟨(Machine.apply b bs move).control, (Machine.apply b bs move).stack ++ callers⟩ := by
  cases move <;> rfl

theorem perform_above {b : Activation} {bs : List Activation} {i : Nat} {conts : List Cont}
    {location : Span} {act : Act Move} :
    ∃ m, Machine.perform b (bs ++ base f k i location conts :: k.callers) act c =
        (.running m, (performedAbove b bs i conts (act c)).2) ∧
      (performedAbove b bs i conts (act c)).1.In f k m := by
  unfold Machine.perform
  cases act c with
  | ok move d => exact ⟨_, rfl, location, apply_append ..⟩
  | error x d => exact ⟨_, rfl, location, rfl⟩

/-! ## Steps of the activation itself -/

/-- A site of the activation. -/
def site (f : Frame) (n i : Nat) : Site := ⟨{ f with nextChild := i }, List.replicate n ⟨default, default, []⟩⟩

theorem alike_site (f : Frame) (k : Surroundings n) (i : Nat) (location : Span) :
    Site.Alike ⟨{ f with nextChild := i, location }, k.callers⟩ (site f n i) :=
  ⟨rfl, by simp only [Site.depth, site, List.length_replicate, k.length]⟩

variable {i : Nat} {conts : List Cont}

/-- A function literal is linked to the frame, wherever that stands. -/
theorem performed_instantiate (span : Span) (fn : FunctionNode) (location : Span) (callers : List Activation) :
    performed i conts (startExpr ⟨{ f with nextChild := i, location }, callers⟩ (.function span fn) c) =
      performed i conts (startExpr (site f n i) (.function span fn) c) := by
  have hlinked : ∀ s : Site, startExpr s (.function span fn) c =
      match Act.instantiate s.frame fn.id c with
      | .ok (id, g) d => .ok (.linked g (.function id)) d
      | .error x d => .error x d := by
    intro s
    unfold startExpr
    simp only [Bind.bind, EStateM.bind]
    cases Act.instantiate s.frame fn.id c <;> rfl
  rw [hlinked, hlinked, Law.instantiate_eq, Law.instantiate_eq]
  dsimp only [site]
  cases f.unit.function? fn.id with
  | none => rfl
  | some g =>
    dsimp only
    cases f.unit.record? f.record with
    | none => rfl
    | some r =>
      dsimp only
      cases nextChildAfter? r.children i g.id <;> rfl

theorem steps_eval (e : Expr) : Steps f n ⟨.eval e, [], i, conts⟩ c
    (performed i conts (startExpr (site f n i) e c)).1 (performed i conts (startExpr (site f n i) e c)).2 := by
  rintro k m ⟨location, rfl⟩
  have hact : performed i conts (startExpr ⟨{ f with nextChild := i, location := e.span }, k.callers⟩ e c) =
      performed i conts (startExpr (site f n i) e c) := by
    by_cases he : ∀ span fn, e ≠ .function span fn
    · rw [(alike_site f k i e.span).startExpr he]
    · push Not at he
      obtain ⟨span, fn, rfl⟩ := he
      exact performed_instantiate span fn _ _
  rw [← hact]
  exact perform_in (startExpr_keeping (s := ⟨{ f with nextChild := i, location := e.span }, k.callers⟩) e)

theorem steps_exec (t : Stmt) (labels : List String) : Steps f n ⟨.exec t labels, [], i, conts⟩ c
    (performed i conts (startStmt (site f n i) t labels c)).1
    (performed i conts (startStmt (site f n i) t labels c)).2 := by
  rintro k m ⟨location, rfl⟩
  rw [← (alike_site f k i t.span).startStmt t labels]
  exact perform_in (startStmt_keeping (s := ⟨{ f with nextChild := i, location := t.span }, k.callers⟩) t labels)

theorem steps_receive (cont : Cont) (v : Value) : Steps f n ⟨.value v, [], i, cont :: conts⟩ c
    (performed i conts (receive (site f n i) cont v c)).1
    (performed i conts (receive (site f n i) cont v c)).2 := by
  rintro k m ⟨location, rfl⟩
  rw [← (alike_site f k i location).receive cont v]
  exact perform_in (receive_keeping (s := ⟨{ f with nextChild := i, location }, k.callers⟩) cont v)

theorem steps_intercept (cont : Cont) (x : Abrupt) : Steps f n ⟨.abrupt x, [], i, cont :: conts⟩ c
    (performed i conts (intercept (site f n i) cont x c)).1
    (performed i conts (intercept (site f n i) cont x c)).2 := by
  rintro k m ⟨location, rfl⟩
  rw [← (alike_site f k i location).intercept cont x]
  exact perform_in (intercept_keeping (s := ⟨{ f with nextChild := i, location }, k.callers⟩) cont x)

/-! ## Checkpoints -/

/-- Where a checkpoint leads that does not stop. -/
def passed (x : EStateM.Result Abrupt Core Control) : Control × Core :=
  match x with
  | .ok control d => (control, d)
  | .error x d => (.abrupt x, d)

theorem steps_checkpoint {v : Value} {above : List Activation}
    (hv : ∀ p d, pass v c ≠ .ok (.waiting p) d) :
    Steps f n ⟨.checkpoint v, above, i, conts⟩ c ⟨(passed (pass v c)).1, above, i, conts⟩
      (passed (pass v c)).2 := by
  rintro k m ⟨location, rfl⟩
  have htop : ∃ a callers, above ++ base f k i location conts :: k.callers = a :: callers := by
    cases above with
    | nil => exact ⟨_, _, rfl⟩
    | cons b bs => exact ⟨_, _, rfl⟩
  obtain ⟨a, callers, heq⟩ := htop
  refine ⟨⟨(passed (pass v c)).1, above ++ base f k i location conts :: k.callers⟩, ?_, location, rfl⟩
  dsimp only
  rw [heq]
  unfold Machine.step
  dsimp only
  cases hp : pass v c with
  | error x d => rfl
  | ok control d =>
    cases control with
    | waiting p => exact absurd hp (hv p d)
    | _ => rfl

theorem parks_checkpoint {v : Value} {above : List Activation} {p : PendingId}
    (hv : pass v c = .ok (.waiting p) c') :
    Parks f n ⟨.checkpoint v, above, i, conts⟩ c ⟨.waiting p, above, i, conts⟩ p c' := by
  rintro k m ⟨location, rfl⟩
  refine ⟨⟨.waiting p, above ++ base f k i location conts :: k.callers⟩, ?_, location, rfl⟩
  cases above with
  | nil => simp only [Machine.step, hv, List.nil_append]
  | cons b bs => simp only [Machine.step, hv, List.cons_append]

/-! ## Steps of activations above -/

/-- A site of an activation above. -/
def siteAbove (n : Nat) (frame : Frame) (bs : List Activation) : Site :=
  ⟨frame, bs ++ List.replicate (n + 1) ⟨default, default, []⟩⟩

theorem alike_siteAbove (frame : Frame) (bs : List Activation) (a : Activation) (k : Surroundings n) :
    Site.Alike ⟨frame, bs ++ a :: k.callers⟩ (siteAbove n frame bs) :=
  ⟨rfl, by simp only [Site.depth, siteAbove, List.length_append, List.length_replicate, List.length_cons,
    k.length]⟩

/-- An activation above performs an act. -/
theorem steps_above {control : Control} {b a : Activation} {bs : List Activation} (act : Site → Act Move)
    (hact : ∀ s t : Site, s.Alike t → s.frame = t.frame → act s = act t)
    (heq : ∀ callers, Machine.step ⟨control, b :: callers⟩ c =
      Machine.perform a callers (act ⟨a.frame, callers⟩) c) :
    Steps f n ⟨control, b :: bs, i, conts⟩ c
      (performedAbove a bs i conts (act (siteAbove n a.frame bs) c)).1
      (performedAbove a bs i conts (act (siteAbove n a.frame bs) c)).2 := by
  rintro k m ⟨l, rfl⟩
  dsimp only
  rw [List.cons_append, heq, hact _ _ (alike_siteAbove a.frame bs (base f k i l conts) k) rfl]
  exact perform_above

/-- An activation above that is at its end is left. -/
theorem steps_close {control : Control} {b : Activation} {bs : List Activation} {o : Outcome}
    (heq : ∀ callers, Machine.step ⟨control, b :: callers⟩ c =
      (.running ⟨Machine.close b.boundary o, callers⟩, c)) :
    Steps f n ⟨control, b :: bs, i, conts⟩ c ⟨Machine.close b.boundary o, bs, i, conts⟩ c := by
  rintro k m ⟨l, rfl⟩
  exact ⟨_, heq _, l, rfl⟩

/-- An activation above goes on as it would anywhere at this depth. -/
theorem exists_steps_above (b : Activation) (bs : List Activation) {control : Control}
    (hcheck : ∀ v, control ≠ .checkpoint v) (hwait : ∀ p, control ≠ .waiting p) :
    ∃ w' c', Steps f n ⟨control, b :: bs, i, conts⟩ c w' c' := by
  cases control with
  | checkpoint v => exact absurd rfl (hcheck v)
  | waiting p => exact absurd rfl (hwait p)
  | eval e =>
    refine ⟨_, _, steps_above (a := b.mark e.span) (fun s => startExpr s e) (fun s t h hframe => ?_)
      fun _ => rfl⟩
    by_cases he : ∀ span fn, e ≠ .function span fn
    · exact h.startExpr he
    · push Not at he
      obtain ⟨span, fn, rfl⟩ := he
      unfold startExpr
      rw [hframe]
  | exec t labels =>
    exact ⟨_, _, steps_above (a := b.mark t.span) (fun s => startStmt s t labels)
      (fun s s' h _ => h.startStmt t labels) fun _ => rfl⟩
  | value v =>
    obtain ⟨frame, boundary, ks⟩ := b
    cases ks with
    | nil => exact ⟨_, _, steps_close (o := .ok v) fun _ => rfl⟩
    | cons cont ks =>
      exact ⟨_, _, steps_above (a := ⟨frame, boundary, ks⟩) (fun s => receive s cont v)
        (fun s s' h _ => h.receive cont v) fun _ => rfl⟩
  | abrupt x =>
    obtain ⟨frame, boundary, ks⟩ := b
    cases ks with
    | nil => exact ⟨_, _, steps_close (o := .error x) fun _ => rfl⟩
    | cons cont ks =>
      exact ⟨_, _, steps_above (a := ⟨frame, boundary, ks⟩) (fun s => intercept s cont x)
        (fun s s' h _ => h.intercept cont x) fun _ => rfl⟩

/-! ## Every step -/

/-- **A strand that is not back goes on**, in all surroundings alike. -/
theorem steps_or_parks (hw : ¬w.Back) (c : Core) :
    (∃ w' c', Steps f n w c w' c') ∨ ∃ p w' c', w'.control = .waiting p ∧ Parks f n w c w' p c' := by
  obtain ⟨control, above, i, conts⟩ := w
  cases control with
  | checkpoint v =>
    by_cases hv : ∃ p d, pass v c = .ok (.waiting p) d
    · obtain ⟨p, d, hv⟩ := hv
      exact .inr ⟨p, _, d, rfl, parks_checkpoint hv⟩
    · exact .inl ⟨_, _, steps_checkpoint fun p d heq => hv ⟨p, d, heq⟩⟩
  | waiting p =>
    refine .inr ⟨p, ⟨.waiting p, above, i, conts⟩, c, rfl, ?_⟩
    rintro k m ⟨location, rfl⟩
    refine ⟨_, ?_, location, rfl⟩
    cases above <;> rfl
  | eval e =>
    cases above with
    | nil => exact .inl ⟨_, _, steps_eval e⟩
    | cons b bs => exact .inl (exists_steps_above b bs nofun nofun)
  | exec t labels =>
    cases above with
    | nil => exact .inl ⟨_, _, steps_exec t labels⟩
    | cons b bs => exact .inl (exists_steps_above b bs nofun nofun)
  | value v =>
    cases above with
    | nil =>
      cases conts with
      | nil => exact absurd ⟨rfl, rfl, .inl ⟨v, rfl⟩⟩ hw
      | cons cont conts => exact .inl ⟨_, _, steps_receive cont v⟩
    | cons b bs => exact .inl (exists_steps_above b bs nofun nofun)
  | abrupt x =>
    cases above with
    | nil =>
      cases conts with
      | nil => exact absurd ⟨rfl, rfl, .inr ⟨x, rfl⟩⟩ hw
      | cons cont conts => exact .inl ⟨_, _, steps_intercept cont x⟩
    | cons b bs => exact .inl (exists_steps_above b bs nofun nofun)

/-! ## Surroundings -/

/-- Surroundings of a unit with nothing left to do. -/
def bare (n : Nat) : Surroundings n :=
  ⟨.unit, [], List.replicate n ⟨default, default, []⟩, List.length_replicate⟩

theorem exists_in (f : Frame) (k : Surroundings n) (w : Strand) : ∃ m, w.In f k m := ⟨_, {}, rfl⟩

/-- The machine tells where the strand is. -/
theorem In.unique (h : w.In f k m) (h' : w'.In f k m) : w = w' := by
  obtain ⟨control, above, i, conts⟩ := w
  obtain ⟨control', above', i', conts'⟩ := w'
  obtain ⟨l, rfl⟩ := h
  obtain ⟨l', heq⟩ := h'
  obtain ⟨rfl, hstack⟩ := Machine.mk.inj heq
  obtain ⟨rfl, hbelow⟩ := List.append_inj' hstack (by simp only [List.length_cons])
  obtain ⟨hframe, -, hconts⟩ := Activation.mk.inj (List.cons.inj hbelow).1
  obtain rfl : i = i' := congrArg Frame.nextChild hframe
  obtain rfl := List.append_cancel_right hconts
  rfl

variable {p q : PendingId} {w₁ w₂ : Strand} {c₁ c₂ : Core}

theorem Steps.unique (h : Steps f n w c w₁ c₁) (h' : Steps f n w c w₂ c₂) : w₁ = w₂ ∧ c₁ = c₂ := by
  obtain ⟨m, hm⟩ := exists_in f (bare n) w
  obtain ⟨m₁, heq, h₁⟩ := h _ m hm
  obtain ⟨m₂, heq', h₂⟩ := h' _ m hm
  cases heq.symm.trans heq'
  exact ⟨h₁.unique h₂, rfl⟩

theorem Parks.unique (h : Parks f n w c w₁ p c₁) (h' : Parks f n w c w₂ q c₂) :
    w₁ = w₂ ∧ p = q ∧ c₁ = c₂ := by
  obtain ⟨m, hm⟩ := exists_in f (bare n) w
  obtain ⟨m₁, heq, h₁⟩ := h _ m hm
  obtain ⟨m₂, heq', h₂⟩ := h' _ m hm
  cases heq.symm.trans heq'
  exact ⟨h₁.unique h₂, rfl, rfl⟩

theorem Steps.not_parks (h : Steps f n w c w₁ c₁) : ¬Parks f n w c w₂ p c₂ := by
  intro h'
  obtain ⟨m, hm⟩ := exists_in f (bare n) w
  obtain ⟨m₁, heq, -⟩ := h _ m hm
  obtain ⟨m₂, heq', -⟩ := h' _ m hm
  cases heq.symm.trans heq'

/-- A unit with nothing left to do is left when a strand is back. -/
theorem Back.step (h : w.Back) (hm : w.In f (bare n) m) (c : Core) :
    ∃ control, m.step c = (.running ⟨control, (bare n).callers⟩, c) := by
  obtain ⟨control, above, i, conts⟩ := w
  obtain ⟨rfl, rfl, ⟨v, rfl⟩ | ⟨x, rfl⟩⟩ := h <;> obtain ⟨l, rfl⟩ := hm <;> exact ⟨_, rfl⟩

theorem In.length_le (h : w.In f k m) : n + 1 ≤ m.stack.length := by
  obtain ⟨l, rfl⟩ := h
  simp only [List.length_append, List.length_cons, k.length]
  omega

/-- What follows a strand that is back is not the same in all surroundings. -/
theorem Back.not_steps (h : w.Back) : ¬Steps f n w c w' c' := by
  intro hstep
  obtain ⟨m, hm⟩ := exists_in f (bare n) w
  obtain ⟨m', heq, hm'⟩ := hstep _ m hm
  obtain ⟨control, heq'⟩ := h.step hm c
  cases heq.symm.trans heq'
  have hle := hm'.length_le
  rw [(bare n).length] at hle
  omega

theorem Back.not_parks (h : w.Back) : ¬Parks f n w c w' p c' := by
  intro hpark
  obtain ⟨m, hm⟩ := exists_in f (bare n) w
  obtain ⟨m', heq, -⟩ := hpark _ m hm
  obtain ⟨control, heq'⟩ := h.step hm c
  cases heq.symm.trans heq'

/-! ## Continuations further down -/

/-- More continuations behind those of the strand. -/
def push (w : Strand) (ks : List Cont) : Strand := { w with conts := w.conts ++ ks }

theorem in_push {ks : List Cont} : (w.push ks).In f k m ↔ w.In f { k with rest := ks ++ k.rest } m := by
  unfold In base push
  simp only [List.append_assoc]

theorem Steps.push (h : Steps f n w c w' c') (ks : List Cont) :
    Steps f n (w.push ks) c (w'.push ks) c' := by
  intro k m hm
  obtain ⟨m', heq, hm'⟩ := h _ m (in_push.mp hm)
  exact ⟨m', heq, in_push.mpr hm'⟩

theorem Parks.push (h : Parks f n w c w' p c') (ks : List Cont) :
    Parks f n (w.push ks) c (w'.push ks) p c' := by
  intro k m hm
  obtain ⟨m', heq, hm'⟩ := h _ m (in_push.mp hm)
  exact ⟨m', heq, in_push.mpr hm'⟩

end Strand

end Fermata
