import Fermata.Session.Basic

/-!
# Evaluating in a session

Running code, calling functions and going on with a parked evaluation. An engine does one
evaluation at a time: while one has begun and was not left, a further one is refused, and nothing else
changes. What is wrong with the request itself is found first: code that does not compile, a value
that cannot be called, a scope of another engine.

* `Session.run`, `Session.runUnit`, `Session.evalIn`, `Session.call` are the evaluating methods of
  `Engine`. The arguments of a call belong to it; the function, and the scope of code that is evaluated
  in one, the host only lends.
* `Session.evaluate` begins a drive (`Engine::drive`), `Session.poll` goes on with it, and
  `Session.abandon` drops it where it waits.
* `Session.settleStop` is what a drive leaves where it stops. A drive that waits takes along what will
  settle the value (`PendingValue::take_future`), and that is lost when the drive is dropped.
* `Session.arrive` is what was taken along running to its end (`PendingValue::settled`).
* `Session.settle` is a settler of the host, `Session.link` is `Scope::link`.

Left out: wakers. A host finds out by polling whether an evaluation can go on.
-/

namespace Fermata

/-- The answer to an evaluating request. -/
inductive Answer where
  | finished (result : Except EngineError Value)
  | suspended (suspension : Suspension) (count : Nat)
  | outOfFuel
deriving Inhabited

namespace Session

/-! ## Units -/

/-- Add a unit. -/
def addUnit (s : Session) (u : CodeUnit) : Nat × Session :=
  (s.units.size, { s with units := s.units.push u })

/-- The unit of a source for an engine, the earlier one if the source was compiled before. -/
def compile (s : Session) (i : Nat) (source : String) : Except CompileError (Nat × Session) :=
  let hash := Digest.ofText source
  match (s.station i).units.lookup hash with
  | some id => .ok (id, s)
  | none => do
    let (id, s) := s.addUnit (← CodeUnit.compile source [])
    return (id, s.modifyStation i fun t => { t with units := (hash, id) :: t.units })

/-- A new unit of a source for a place where the names `outer` are bound. -/
def compileIn (s : Session) (source : String) (outer : List String) :
    Except CompileError (Nat × Session) := do
  return s.addUnit (← CodeUnit.compile source outer)

/-- A unit. -/
def unit (s : Session) (id : Nat) : CodeUnit := s.units[id]?.getD default

/-! ## Driving -/

/-- Take what a drive of engine `i` left and say where it stopped. -/
def settleStop (s : Session) (i : Nat) (loan : Loan) (stop : Core.Stop) (c : Core) :
    Answer × Session :=
  match stop with
  | .done outcome =>
    let (result, c) := c.finish outcome (loan.lent ++ s.roots i)
    (.finished result,
      { s with heap := c.heap }.modifyStation i fun t => { t.left with engine := c.engine })
  | .parked machine pending =>
    let last := c.engine.lastSuspension.getD ⟨pending, []⟩
    let (taken, heap) := c.heap.take pending
    (.suspended last c.engine.suspensionCount,
      { s with heap }.modifyStation i fun t =>
        { t with
          engine := c.engine
          busy := true
          stack := machine.frames ++ t.base
          flight := some ⟨machine, pending, taken, loan, t.base.length⟩ })
  | .outOfFuel _ =>
    (.outOfFuel, { s with heap := c.heap }.modifyStation i fun t => { t with engine := c.engine })

/-- The core of an engine. -/
def core (s : Session) (i : Nat) : Core := ⟨s.heap, s.engine i⟩

/-- The core of an engine that begins to evaluate, or goes on: somebody watches, and there are the
activations below. -/
def armed (s : Session) (i : Nat) : Core :=
  (s.core i).starting ((s.station i).base.map Frame.position)

/-- Start an evaluation, unless one has begun. -/
def evaluate (s : Session) (i : Nat) (act : Act Move) (loan : Loan) : Answer × Session :=
  if (s.station i).isBusy then (.finished (.error .busy), s)
  else
    let (m, c) := Machine.start act (s.armed i)
    let (stop, c) := c.drive s.fuel m
    s.settleStop i loan stop c

/-! ## Requests -/

/-- Run a unit at the top level of an engine. -/
def runUnit (s : Session) (i : Nat) (u : CodeUnit) : Answer × Session :=
  s.evaluate i (Act.openUnit u (s.engine i).root) {}

/-- Run a source at the top level of an engine. -/
def run (s : Session) (i : Nat) (source : String) : Answer × Session :=
  match s.compile i source with
  | .error e => (.finished (.error (.compile e)), s)
  | .ok (id, s) => s.runUnit i (s.unit id)

/-- Evaluate code in a scope. -/
def evalIn (s : Session) (i : Nat) (scope : ScopeId) (code : String) : Answer × Session :=
  if scope.region ≠ (s.engine i).region then (.finished (.error .foreignScope), s)
  else
    match CodeUnit.compile code (s.heap.visibleNames scope) with
    | .error e => (.finished (.error (.compile e)), s)
    | .ok u => s.evaluate i (Act.callUnit 0 u scope) { lent := [.scope scope] }

/-- Call a function. The host may keep hold of values while the call runs; by default it does of all that
it passes. -/
def call (s : Session) (i : Nat) (fn this : Value) (args : List Value)
    (kept : List Value := this :: args) : Answer × Session :=
  if !fn.isCallable then (.finished (.error (.notCallable fn.typeName)), s)
  else
    s.evaluate i (Act.callValue 0 (s.engine i).root fn this args) (.ofCall fn this args kept)

/-- What the parked evaluation took along settles the value that it waits for, once it is ready. -/
def arrive (s : Session) (i : Nat) : Session :=
  match (s.station i).flight with
  | none => s
  | some f =>
    match f.taken with
    | none => s
    | some settlement =>
      if s.heap.process.ripe f.pending then
        { s with heap := (s.heap.settle f.pending settlement).2 }
      else s

/-- Go on with the parked evaluation, if its pending value is settled; nothing if none is parked. -/
def goOn (s : Session) (i : Nat) : Option Answer × Session :=
  match (s.station i).flight with
  | none => (none, s)
  | some f =>
    match (s.heap.pendings.get f.pending).settlement? with
    | none =>
      let e := s.engine i
      (some (.suspended (e.lastSuspension.getD ⟨f.pending, []⟩) e.suspensionCount), s)
    | some settlement =>
      let c := s.armed i
      let (stop, c) := match f.machine.resume settlement with
        | .ok m => c.drive s.fuel m
        | .error fault => (.done (.error (.fault fault)), c)
      let (answer, s) := s.settleStop i f.loan stop c
      (some answer, s)

/-- Go on with the parked evaluation, if its pending value is settled by now; nothing if none is
parked. -/
def poll (s : Session) (i : Nat) : Option Answer × Session := (s.arrive i).goOn i

/-- Drop the parked evaluation, with what it took along; whether there was one. -/
def abandon (s : Session) (i : Nat) : Bool × Session :=
  match (s.station i).flight with
  | none => (false, s)
  | some _ => (true, s.modifyStation i Station.left)

/-- Settle a pending value of the host; whether this was the first settlement. -/
def settle (s : Session) (id : PendingId) (settlement : Settlement) : Bool × Session :=
  let (first, heap) := s.heap.settle id settlement
  (first, { s with heap })

/-! ## Functions -/

/-- The scope in which a function was made, as an engine knows it. -/
def scopeOf? (s : Session) (i : Nat) (fn : Value) : Option ScopeId :=
  match fn with
  | .function id => (s.engine i).links.scope? (s.heap.closures.get id).serial
  | _ => none

/-- The record that an engine linked a function to. -/
def recordOf? (s : Session) (i : Nat) (fn : Value) : Option ScopeRecord :=
  match fn with
  | .function id =>
    let c := s.heap.closures.get id
    match (s.engine i).links.record? c.serial with
    | some node => c.unit.record? node
    | none => none
  | _ => none

/-- The source text of a function. -/
def sourceOf? (s : Session) (fn : Value) : Option String :=
  match fn with
  | .function id => some (s.heap.closures.get id).sourceText
  | _ => none

/-- Associate a function with a scope in the engine that the scope belongs to; whether it was not
associated before. -/
def link (s : Session) (scope : ScopeId) (id : ClosureId) : Bool × Session :=
  let i := scope.region - 1
  let c := s.heap.closures.get id
  let (first, links) := (s.engine i).links.associate c.serial ⟨id, scope, c.node.id⟩
  (first, s.modifyStation i fun t => { t with engine := { t.engine with links } })

end Session

end Fermata
