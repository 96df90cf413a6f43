import Fermata.Heap.Basic

/-!
# The broker

The broker (`SuspensionBroker`) watches for pending values that are touched before they are settled. It
can be armed for one touch. That touch suspends the evaluation and leaves the broker triggered, and a
further touch is an error until somebody arms the broker again. A broker that is not armed lets values
pass.

* `Watch` is the state of the watch alone; an engine needs no more. `Watch.touch` is what a touch does to
  it, `Touch` what the toucher is told.
* `Broker` adds the one-shot hand-off between whoever settles the value and the evaluation that
  waits: a sender that can be used once, and a receiver that gets one settlement.
* `Broker.arm`, `Broker.disarm`, `Broker.isArmed`, `Broker.touch` are its methods of the same names;
  `Broker.resume`, `Broker.receive` and `Broker.abandon` are the two ends of the hand-off.

Left out: how a receiver that finds nothing yet is woken.
-/

namespace Fermata

/-- The state of a watch. -/
inductive Watch where
  | disarmed
  | armed
  | triggered
deriving DecidableEq, Repr, Inhabited

/-- What becomes of an evaluation that touches an unsettled pending value. -/
inductive Touch where
  /-- It waits. -/
  | suspended
  /-- Nobody watches, and it goes on with the pending value itself. -/
  | unwatched
  /-- It touched a second time. -/
  | double
deriving DecidableEq, Repr, Inhabited

/-- Report a touch. -/
def Watch.touch : Watch → Touch × Watch
  | .armed => (.suspended, .triggered)
  | .disarmed => (.unwatched, .disarmed)
  | .triggered => (.double, .triggered)

/-- What lies at a receiver. -/
inductive Mailbox where
  | empty
  | delivered (settlement : Settlement)
  | emptied
deriving Inhabited

/-- A watch with the hand-off of its last suspension. -/
structure Broker where
  watch : Watch := .disarmed
  /-- How often the watch fired. -/
  fired : Nat := 0
  /-- The sender of the last suspension was not used yet. -/
  sender : Bool := false
  receiver : Option Mailbox := none
deriving Inhabited

namespace Broker

/-- Arm the watch, whatever its state. -/
def arm (b : Broker) : Broker := { b with watch := .armed }

/-- Disarm the watch. -/
def disarm (b : Broker) : Broker := { b with watch := .disarmed }

/-- The next touch suspends. -/
def isArmed (b : Broker) : Bool := b.watch == .armed

/-- Report a touch; a suspension makes a new hand-off. -/
def touch (b : Broker) : Touch × Broker :=
  match b.watch.touch with
  | (.suspended, watch) =>
    (.suspended, { watch, fired := b.fired + 1, sender := true, receiver := some .empty })
  | (other, watch) => (other, { b with watch })

/-- Use the sender: whether the receiver still exists, or nothing if the sender is gone. -/
def resume (b : Broker) (s : Settlement) : Option Bool × Broker :=
  if b.sender then
    match b.receiver with
    | some _ => (some true, { b with sender := false, receiver := some (.delivered s) })
    | none => (some false, { b with sender := false })
  else (none, b)

/-- Look at the receiver, if there is one, and take what lies there. -/
def receive (b : Broker) : Option (Option Settlement) × Broker :=
  match b.receiver with
  | none => (none, b)
  | some (.delivered s) => (some (some s), { b with receiver := some .emptied })
  | some _ => (some none, b)

/-- Drop the receiver. -/
def abandon (b : Broker) : Broker := { b with receiver := none }

end Broker

end Fermata
