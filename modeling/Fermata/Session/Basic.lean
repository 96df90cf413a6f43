import Fermata.Engine.Drive
import Fermata.Machine.Basic

/-!
# Sessions

A host works with several engines on one heap. It holds values in named slots, scopes, and pending
values that it has named, keeps compiled units, and may leave one evaluation of each engine parked.

* `Session.addEngine` (`EngineBuilder::build`), `Session.addPending` (the constructors of
  `PendingValue`) set a session up.
* `Station` is an engine with what lasts from one evaluation to the next: the compiled units, the busy
  flag and the call stack.
* `Station.left` is what the guards of an evaluation (`BusyGuard`, `FrameGuard`) leave when they are
  dropped, at its end or before.
* `Session.roots` is what is held from outside when an engine prunes its associations.

Left out: what a host does with its own threads and timers. `Session.elsewhere` stands for all of it: the
process made other pending values, and time went by.
-/

namespace Fermata

/-- What the host passes to an evaluation. -/
structure Loan where
  /-- It belongs to the evaluation and goes when that ends. -/
  given : List Cell := []
  /-- The host holds it as long as the evaluation lasts. -/
  lent : List Cell := []

/-- All of it. -/
def Loan.held (loan : Loan) : List Cell := loan.given ++ loan.lent

/-- What the host passes to a call. Receiver and arguments belong to it; the host keeps the function, and
whatever else it wants to. -/
def Loan.ofCall (fn this : Value) (args kept : List Value) : Loan where
  given := Cell.ofValues (this :: args)
  lent := Cell.ofValues (fn :: kept)

/-- A parked evaluation. -/
structure Flight where
  machine : Machine
  pending : PendingId
  /-- What it took along from the pending value, and will settle it with. -/
  taken : Option Settlement
  loan : Loan
  /-- The depth of the call stack to which its guards cut it back. -/
  depth : Nat

/-- An engine with its parked evaluation. -/
structure Station where
  engine : Engine
  flight : Option Flight := none
  /-- The units that were compiled for it, by hash. -/
  units : List (String × Nat) := []
  /-- An evaluation has begun and was not left. -/
  busy : Bool := false
  /-- The call stack, innermost first. -/
  stack : List Frame := []

instance : Inhabited Station := ⟨{ engine := default }⟩

namespace Station

/-- An evaluation has begun and was not left. -/
def isBusy (s : Station) : Bool := s.busy

/-- The number of live activations. -/
def depth (s : Station) : Nat := s.stack.length

/-- The call stack without the activations of the parked evaluation. -/
def base (s : Station) : List Frame :=
  match s.flight with
  | some f => s.stack.drop (s.stack.length - f.depth)
  | none => s.stack

/-- The evaluation is dropped, and its guards with it. -/
def left (s : Station) : Station := { s with flight := none, busy := false, stack := s.base }

/-- The engine as a report shows it. -/
def inspect (s : Station) : String := s.engine.inspect s.depth s.isBusy

/-- What the engine holds whether it evaluates or not. -/
def own (s : Station) : List Cell :=
  [.object s.engine.global, .scope s.engine.root, .object s.engine.arrayMethods,
   .native s.engine.evalFunction]

/-- What the parked evaluation holds, and what is held for it. -/
def inFlight (s : Station) : List Cell :=
  match s.flight with
  | some f => f.machine.held ++ Cell.ofValues (f.taken.map (·.value)).toList ++ f.loan.held
  | none => []

end Station

/-- A host with its engines. -/
structure Session where
  heap : Heap := {}
  stations : Array Station := #[]
  /-- Every compiled unit. -/
  units : Array CodeUnit := #[]
  /-- Values that the host holds, by name. -/
  slots : List (String × Value) := []
  /-- Pending values that the host holds, by name. -/
  pendings : List (String × PendingId) := []
  /-- Scopes that the host holds. -/
  scopes : List ScopeId := []
  /-- The greatest number of steps between two stops of an evaluation. -/
  fuel : Nat := 1000000000000

/-- The region of the heap for what the host makes. -/
def hostRegion : Nat := 0

/-- The region of an engine. -/
def engineRegion (i : Nat) : Nat := i + 1

/-- The ways to make a pending value. -/
inductive PendingKind where
  /-- The host settles it later. -/
  | channel
  | resolved (value : Value)
  | rejected (reason : Value)
  /-- It is settled by itself when somebody waits for it. -/
  | scheduled (settlement : Settlement)

/-- The state of a new pending value. -/
def PendingKind.state : PendingKind → Pending
  | .channel => .unsettled
  | .resolved v => .settled (.fulfilled v)
  | .rejected v => .settled (.rejected v)
  | .scheduled s => .scheduled s

namespace Session

/-- A station. -/
def station (s : Session) (i : Nat) : Station := s.stations[i]?.getD default

/-- An engine. -/
def engine (s : Session) (i : Nat) : Engine := (s.station i).engine

/-- Change a station. -/
def modifyStation (s : Session) (i : Nat) (f : Station → Station) : Session :=
  { s with stations := s.stations.modify i f }

/-- Add a pending value. -/
def addPending (s : Session) (name : String) (kind : PendingKind) : Session :=
  let (id, heap) := s.heap.newPending hostRegion kind.state
  { s with heap, pendings := s.pendings ++ [(name, id)] }

/-- The name of a pending value. -/
def pendingName? (s : Session) (id : PendingId) : Option String :=
  (s.pendings.find? (·.2 == id)).map (·.1)

/-- Add an engine. Its name is the given one, or that of its settings, or made up. -/
def addEngine (s : Session) (name : Option String) (settings : Settings) (host : Option ObjectId)
    (defines : List (String × Value)) : Session :=
  let region := engineRegion s.stations.size
  let name := (name.or settings.name).getD ("engine-" ++ toString region)
  let (engine, heap) := Engine.create s.heap region name settings host defines
  { s with heap, stations := s.stations.push { engine } }

/-- Keep a value in a slot. -/
def keep (s : Session) (name : String) (v : Value) : Session :=
  { s with slots := (name, v) :: s.slots.filter (·.1 != name) }

/-- Let go of the value in a slot; whether there was one. -/
def forget (s : Session) (name : String) : Bool × Session :=
  (s.slots.any (·.1 == name), { s with slots := s.slots.filter (·.1 != name) })

/-- Hold a scope. -/
def hold (s : Session) (scope : ScopeId) : Session := { s with scopes := scope :: s.scopes }

/-- Let go of a scope; whether it was held. -/
def release (s : Session) (scope : ScopeId) : Bool × Session :=
  (s.scopes.contains scope, { s with scopes := s.scopes.erase scope })

/-- The process went on elsewhere: the next pending value will have this number, and these are ready to
settle by themselves. -/
def elsewhere (s : Session) (process : Process) : Session := { s with heap := { s.heap with process } }

/-- What an engine other than the one that prunes holds. -/
def foreignRoots (s : Session) (i : Nat) : List Cell :=
  s.stations.toList.zipIdx.flatMap fun (t, j) =>
    if j = i then [] else Heap.tableScopes t.engine.links ++ t.inFlight

/-- What is held from outside when engine `i` prunes its associations. -/
def roots (s : Session) (i : Nat) : List Cell :=
  Cell.ofValues (s.slots.map (·.2)) ++ s.pendings.map (Cell.pending ·.2) ++ s.scopes.map Cell.scope
    ++ s.stations.toList.flatMap Station.own ++ s.foreignRoots i

/-- Take the lines that the guest of an engine wrote. -/
def takeConsole (s : Session) (i : Nat) : List String × Session :=
  ((s.engine i).console.toList,
    s.modifyStation i fun t => { t with engine := { t.engine with console := #[] } })

end Session

end Fermata
