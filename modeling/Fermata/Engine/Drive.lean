import Fermata.Builtin.Basic
import Fermata.Link.Prune
import Fermata.Machine.Step

/-!
# Driving an evaluation

An engine arms its watch and lets the machine run. When the machine touches an unsettled pending
value, the suspension is recorded. If what settles it comes with it and is ready, it is settled right
there, the watch is armed again and the machine goes on with the settlement. Any other value leaves
the evaluation parked.

* `Engine.create` (`EngineBuilder::build`) makes an engine with its global object and standard
  functions.
* `Core.starting` (`Engine::arm`), `Core.suspension` (`Runtime::resolve`), `Core.record`
  (`Engine::record`) are the steps of a drive.
* `Core.drive` (`Engine::drive`) runs a machine until it is done or parked. `fuel` bounds its steps.
* `Core.finish` (the end of `Engine::drive`, `Engine::settle`) ends an evaluation: the watch is disarmed
  and the associations are pruned.

Left out: log lines, and the channel on which a suspension comes to the drive that awaits it. There is
one outstanding suspension at most, so it is recorded where it comes up.
-/

namespace Fermata

/-- Make an engine in a region. The global object inherits from `host`. -/
def Engine.create (h : Heap) (region : Nat) (name : String) (settings : Settings)
    (host : Option ObjectId) (defines : List (String × Value)) : Engine × Heap :=
  let (global, h) := h.newObject region (.empty host)
  let (root, h) := h.newScope region ⟨none, programName, .global global, .object global⟩
  let (arrayMethods, h) := h.newObject region (.empty none)
  let (bag, h) := h.newObject region .ofFunction
  let (evalFunction, h) := h.newNative region ⟨evalName, .eval, false, bag⟩
  let h := if settings.installStdlib then Builtin.install region global arrayMethods evalFunction h
    else h
  let h := defines.foldl (fun h (k, v) => h.set global k v) h
  ({ name, region, settings, global, root, arrayMethods, evalFunction }, h)

/-- An engine as a report shows it. -/
def Engine.inspect (e : Engine) (depth : Nat) (busy : Bool) : String :=
  "Engine \x7b runtime: Runtime \x7b name: " ++ Text.quoted e.name ++ ", depth: " ++ toString depth
    ++ ", links: " ++ toString e.links.size ++ " \x7d, busy: " ++ (if busy then "true" else "false")
    ++ ", suspensions: " ++ toString e.suspensionCount ++ " \x7d"

namespace Core

/-- Set the watch. -/
def watching (c : Core) (watch : Watch) : Core := { c with engine := { c.engine with watch } }

/-- Set the watch for an evaluation above these activations. -/
def starting (c : Core) (below : List StackPosition) : Core :=
  { c with engine := { c.engine with watch := .armed, below } }

/-- The suspension of a machine at a pending value. -/
def suspension (c : Core) (m : Machine) (p : PendingId) : Suspension :=
  let limit := c.engine.settings.stackTraceLimit
  ⟨p, (m.positions limit ++ c.engine.below).take limit⟩

/-- Record a suspension. -/
def record (c : Core) (s : Suspension) : Core :=
  { c with engine := { c.engine with
      suspensionCount := c.engine.suspensionCount + 1
      lastSuspension := some s } }

/-- Settle a pending value. -/
def settle (c : Core) (p : PendingId) (s : Settlement) : Core :=
  { c with heap := (c.heap.settle p s).2 }

/-- Where a drive ends. -/
inductive Stop where
  | done (outcome : Outcome)
  | parked (machine : Machine) (pending : PendingId)
  | outOfFuel (machine : Machine)

/-- Run a machine until it is done or parked, at most `fuel` steps. -/
def drive : Nat → Machine → Core → Stop × Core
  | 0, m, c => (.outOfFuel m, c)
  | fuel + 1, m, c =>
    match m.step c with
    | (.running m, c) => drive fuel m c
    | (.done outcome, c) => (.done outcome, c)
    | (.parked m p, c) =>
      let c := c.record (c.suspension m p)
      match c.heap.pendings.get p with
      | .scheduled s =>
        if c.heap.process.ripe p then
          let c := (c.settle p s).watching .armed
          match m.resume s with
          | .ok m => drive fuel m c
          | .error f => (.done (.error (.fault f)), c)
        else (.parked m p, c)
      | _ => (.parked m p, c)

/-- What an outcome is for the host. -/
def report (h : Heap) : Outcome → Except EngineError Value
  | .ok v => .ok v
  | .error (.thrown v) => .error (.uncaught (.ofThrown h v))
  | .error (.fault f) => .error (.fault f)
  | .error (.ret _) | .error (.leave _) | .error (.next _) =>
    .error (.fault (.stack .transferEscaped))

/-- What an outcome holds. -/
def heldByOutcome : Outcome → List Value
  | .ok v | .error (.thrown v) | .error (.ret v) => [v]
  | .error _ => []

/-- End an evaluation: disarm the watch and prune the associations. `roots` is what is held from
outside besides the outcome. -/
def finish (c : Core) (outcome : Outcome) (roots : List Cell) : Except EngineError Value × Core :=
  let held := Cell.ofValues (heldByOutcome outcome) ++ roots
  let (links, heap) := c.heap.prune c.engine.links held
  (report heap outcome, { heap, engine := { c.engine with links, watch := .disarmed } })

end Core

end Fermata
