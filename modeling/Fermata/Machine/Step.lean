import Fermata.Machine.Statement

/-!
# Steps

`Machine.step` is one step of an evaluation. It goes on, stands at an unsettled pending value, or is
done with an outcome.

* `Act.receive` is what a continuation does with a value,
* `Act.intercept` what it does with a transfer of control: only loop bodies and labels stop one.
* `Act.pass` and `Act.touch` (`Runtime::resolve`) are the checkpoint: a settled pending value is
  replaced by its value or throws its reason, an unsettled one touches the watch.
* `Machine.close` ends an activation with the value or the transfer that its body ended with.
* `Machine.resume` hands a settlement to a machine that waits for one.

A step is the longest piece of an evaluation between two values; nothing is said about time.
-/

namespace Fermata

namespace Act

/-- Write a reference and go on with the value. -/
def assign (s : Site) (ref : Reference) (v : Value) : Act Move := do
  writeReference s ref v
  give v

/-- A continuation receives a value. -/
def receive (s : Site) (k : Cont) (v : Value) : Act Move := do
  match k with
  | .settle => give v
  | .element use before rest => startList s use (v :: before) rest
  | .property object key rest =>
    changes (·.set object key v)
    startProperties object rest
  | .memberTarget key use => startKey s use v key
  | .memberKey target use => useMember s use target (← reads (·.key v))
  | .callee args => startList s (.call v .undefined) [] args
  | .method receiver args => startList s (.call v receiver) [] args
  | .constructed args => construct s.depth v args
  | .made object => give (if v.isObjectLike then v else .object object)
  | .typeOf => give (.string v.typeName)
  | .instead result => give result
  | .unary op => give (← reads (unary · op v))
  | .binaryLeft op right => evalFor (.binaryRight op v) right
  | .binaryRight op left => give (← binary op left v)
  | .logicalLeft op right => if shortCircuits op v then give v else evalFor .settle right
  | .choose consequent alternate => evalFor .settle (if v.truthy then consequent else alternate)
  | .sequence rest => startSequence v rest
  | .updateOld ref op before =>
    let old ← reads (·.number v)
    let new := match op with
      | .inc => old + 1
      | .dec => old - 1
    writeReference s ref (.number new)
    give (.number (if before then new else old))
  | .assignValue ref => assign s ref v
  | .compoundOld ref op value => evalFor (.compoundValue ref op v) value
  | .compoundValue ref op old => assign s ref (← binary op old v)
  | .logicalOld ref op value =>
    if shortCircuits op v then give v else evalFor (.assignValue ref) value
  | .body rest => startStatements v rest
  | .declare name rest after =>
    setName s.scope name v
    startDeclarations s after rest
  | .ret => throw (.ret v)
  | .raise => throw (.thrown v)
  | .cond thenBranch elseBranch =>
    if v.truthy then return .go [] (.exec thenBranch [])
    else
      match elseBranch with
      | some t => return .go [] (.exec t [])
      | none => yields .undefined
  | .loopInit l => Loop.round s l
  | .loopTest l => Loop.afterTest s l v
  | .loopBody l => Loop.afterBody s { l with last := v }
  | .loopUpdate l => Loop.round s l
  | .eachSource kind target body labels =>
    let items ← loopItems kind v
    Loop.round s ⟨.forEach target items, body, labels, .undefined⟩
  | .labeled _ => yields v

/-- A continuation meets a transfer of control. -/
def intercept (s : Site) (k : Cont) (a : Abrupt) : Act Move :=
  match k, a with
  | .loopBody l, _ => Loop.absorb s l a
  | .labeled label, .leave (some l) => if l = label then yields .undefined else throw a
  | _, _ => throw a

/-- Report a touch of an unsettled pending value. -/
def touch : Act Touch :=
  modifyGet fun ⟨heap, engine⟩ =>
    let (t, watch) := engine.watch.touch
    (t, ⟨heap, { engine with watch }⟩)

/-- The checkpoint: a settled pending value gives way to its settlement, an unsettled one stops the
evaluation as long as somebody watches. -/
def pass (v : Value) : Act Control := do
  match v with
  | .pending id =>
    match (← reads (·.pendings.get id)).settlement? with
    | some (.fulfilled w) => return .checkpoint w
    | some (.rejected reason) => throw (.thrown reason)
    | none =>
      match ← touch with
      | .suspended => return .waiting id
      | .unwatched => return .value v
      | .double => faulty .doubleSuspension
  | _ => return .value v

end Act

/-- How an evaluation ends. -/
abbrev Outcome := Except Abrupt Value

/-- What a step leads to. -/
inductive Progress where
  | running (machine : Machine)
  /-- The machine touched an unsettled pending value. -/
  | parked (machine : Machine) (pending : PendingId)
  | done (outcome : Outcome)

namespace Machine

/-- Carry out a move in an activation. -/
def apply (a : Activation) (callers : List Activation) : Move → Machine
  | .go push control => ⟨control, a.pushing push :: callers⟩
  | .linked frame v => ⟨.checkpoint v, { a with frame } :: callers⟩
  | .enter push inner control => ⟨control, inner :: a.pushing push :: callers⟩

/-- Perform an act in an activation; a transfer of control stays in it. -/
def perform (a : Activation) (callers : List Activation) (act : Act Move) (c : Core) :
    Progress × Core :=
  match act c with
  | .ok move c => (.running (apply a callers move), c)
  | .error x c => (.running ⟨.abrupt x, a :: callers⟩, c)

/-- Leave an activation whose body ended: a function has the value that it returned. -/
def close (b : Boundary) (end_ : Outcome) : Control :=
  match b, end_ with
  | .unit, .ok v => .value v
  | .unit, .error x => .abrupt x
  | .function _, .ok _ => .value .undefined
  | .function _, .error (.ret v) => .value v
  | .function name, .error (.leave _) | .function name, .error (.next _) =>
    .abrupt (.fault (.stack (.loopEscaped name)))
  | .function _, .error x => .abrupt x

/-- One step. -/
def step (m : Machine) (c : Core) : Progress × Core :=
  match m.stack with
  | [] =>
    match m.control with
    | .value v => (.done (.ok v), c)
    | .abrupt x => (.done (.error x), c)
    | _ => (.done (.error (.fault (.stack .noFrame))), c)
  | a :: callers =>
    match m.control with
    | .eval e =>
      let a := a.mark e.span
      perform a callers (Act.startExpr ⟨a.frame, callers⟩ e) c
    | .exec t labels =>
      let a := a.mark t.span
      perform a callers (Act.startStmt ⟨a.frame, callers⟩ t labels) c
    | .checkpoint v =>
      match Act.pass v c with
      | .ok (.waiting p) c => (.parked ⟨.waiting p, a :: callers⟩ p, c)
      | .ok control c => (.running ⟨control, a :: callers⟩, c)
      | .error x c => (.running ⟨.abrupt x, a :: callers⟩, c)
    | .waiting p => (.parked m p, c)
    | .value v =>
      match a.conts with
      | [] => (.running ⟨close a.boundary (.ok v), callers⟩, c)
      | k :: conts => perform { a with conts } callers (Act.receive ⟨a.frame, callers⟩ k v) c
    | .abrupt x =>
      match a.conts with
      | [] => (.running ⟨close a.boundary (.error x), callers⟩, c)
      | k :: conts => perform { a with conts } callers (Act.intercept ⟨a.frame, callers⟩ k x) c

/-- Hand a settlement to a machine that waits. -/
def resume (m : Machine) (s : Settlement) : Except Fault Machine :=
  match m.control, s with
  | .waiting _, .fulfilled v => .ok { m with control := .checkpoint v }
  | .waiting _, .rejected reason => .ok { m with control := .abrupt (.thrown reason) }
  | _, _ => .error .suspensionLost

/-- The machine that an act on an empty stack starts. -/
def start (act : Act Move) (c : Core) : Machine × Core :=
  match act c with
  | .ok (.go _ control) c => (⟨control, []⟩, c)
  | .ok (.linked _ v) c => (⟨.value v, []⟩, c)
  | .ok (.enter _ a control) c => (⟨control, [a]⟩, c)
  | .error x c => (⟨.abrupt x, []⟩, c)

end Machine

end Fermata
