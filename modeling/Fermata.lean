import Fermata.Main
import Fermata.Proofs.Act.Awaiting
import Fermata.Proofs.Act.Law
import Fermata.Proofs.Act.Quiet
import Fermata.Proofs.Act.Open
import Fermata.Proofs.Act.Step
import Fermata.Proofs.Prune.Reach
import Fermata.Proofs.Prune.Effect
import Fermata.Proofs.Suspension.Lockstep
import Fermata.Proofs.Act.Ends
import Fermata.Proofs.Machine.Parts
import Fermata.Proofs.Machine.Placed
import Fermata.Proofs.Suspension.Host
import Fermata.Proofs.Suspension.Transparent
import Fermata.Proofs.Resolve.Pass
import Fermata.Proofs.Jump.Check
import Fermata.Proofs.Act.Invariant
import Fermata.Proofs.Session.Life
import Fermata.Proofs.Session.Regime
import Fermata.Proofs.Session.Create
import Fermata.Proofs.Jump.Absorbed
import Fermata.Proofs.Name.Context
import Fermata.Proofs.Name.Walk
import Fermata.Proofs.Name.Tree
import Fermata.Proofs.Grammar.Numbering
import Fermata.Proofs.Custody.Basic
import Fermata.Proofs.Custody.Quiet
import Fermata.Proofs.Custody.Open
import Fermata.Proofs.Custody.Step
import Fermata.Proofs.Custody.Tolerance
import Fermata.Proofs.Suspension.Protocol
import Fermata.Proofs.Prune.Living
import Fermata.Proofs.Prune.Tended
import Fermata.Proofs.Grammar.Expression
import Fermata.Proofs.Grammar.Statement
import Fermata.Proofs.Name.Unit
import Fermata.Proofs.Link.Literal
import Fermata.Proofs.Lexical.Chain
import Fermata.Proofs.Lexical.Resolution
import Fermata.Proofs.Link.Own
import Fermata.Proofs.Lexical.Hygiene
import Fermata.Proofs.Lexical.Cell
import Fermata.Proofs.Array.Native
import Fermata.Proofs.Frame.Balance
import Fermata.Proofs.Frame.Depth
import Fermata.Proofs.Frame.Invocation
import Fermata.Proofs.Frame.Limit
import Fermata.Proofs.Name.Mirror
import Fermata.Proofs.Session.Turn
import Fermata.Proofs.Suspension.Agreement
import Fermata.Proofs.Suspension.Native
import Fermata.Proofs.Walk.Chain
import Fermata.Proofs.Walk.Text
import Fermata.Proofs.Walk.Endless
import Fermata.Proofs.Realm.Sight
import Fermata.Proofs.Realm.Basic
import Fermata.Proofs.Realm.Quiet
import Fermata.Proofs.Realm.Open
import Fermata.Proofs.Realm.Step
import Fermata.Proofs.Realm.Clean
import Fermata.Proofs.Suspension.Checkpoint
import Fermata.Proofs.Realm.Drive
import Fermata.Proofs.Zone.Isolation
import Fermata.Proofs.Layout.Program
import Fermata.Proofs.Resolve.Spans
import Fermata.Proofs.Backing.ReadThrough
import Fermata.Proofs.Tree.Bare
import Fermata.Proofs.Grammar.Precedence
import Fermata.Proofs.Course.Assignment
import Fermata.Proofs.Course.While
import Fermata.Proofs.Position.Stack
import Fermata.Proofs.Json.Literal
import Fermata.Proofs.Zone.Whole
import Fermata.Proofs.Grammar.Refusal
import Fermata.Proofs.Value.Equality
import Fermata.Proofs.Number.Leading
import Fermata.Proofs.Grammar.Identifier
import Fermata.Proofs.Capture.This
import Fermata.Proofs.Capture.Veil
import Fermata.Proofs.Capture.Plan
import Fermata.Proofs.Capture.Step
import Fermata.Proofs.Capture.Turn
