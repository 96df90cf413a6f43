import Fermata.Heap.Basic
import Fermata.Scope.Basic
import Std.Data.TreeMap
import Std.Data.TreeSet

/-!
# Associations of functions with scopes

An engine remembers for each closure the scope in which it was made (`LinkTable`). The table is keyed by
the closure's serial number, so a closure of another engine with the same number meets the same entry.

* `Links.associate` adds an entry, unless the number is taken; `Links.scope?` and `Links.record?`
  (`scope_of`, `record_of`) look one up.
* `Heap.prune` (`LinkTable::prune`) takes entries out again.
-/

namespace Fermata

/-- Where a closure was made. -/
structure Association where
  closure : ClosureId
  scope : ScopeId
  /-- The record of the literal. -/
  record : Nat
deriving Inhabited

/-- The associations of an engine, by serial number. -/
abbrev Links := Std.TreeMap Nat Association

namespace Links

/-- Associate a closure with a scope, unless its number is taken; whether it was free. -/
def associate (links : Links) (serial : Nat) (a : Association) : Bool × Links :=
  if links.contains serial then (false, links) else (true, links.insert serial a)

/-- The scope associated with a serial number. -/
def scope? (links : Links) (serial : Nat) : Option ScopeId := (links[serial]?).map (·.scope)

/-- The record associated with a serial number. -/
def record? (links : Links) (serial : Nat) : Option Nat := (links[serial]?).map (·.record)

/-- The scope in which this very closure was made. -/
def definingScope? (links : Links) (h : Heap) (id : ClosureId) : Option ScopeId :=
  match links[(h.closures.get id).serial]? with
  | some a => if a.closure = id then some a.scope else none
  | none => none

/-- The first association of a number stays, and other numbers are not touched. -/
theorem getElem?_associate (links : Links) (serial n : Nat) (a : Association) :
    (links.associate serial a).2[n]? =
      if n = serial ∧ ¬links.contains serial then some a else links[n]? := by
  unfold associate
  split
  next h => simp [h]
  next h =>
    rw [Std.TreeMap.getElem?_insert]
    by_cases hn : n = serial
    · simp [hn, h]
    · simp [hn, Ne.symm hn]

end Links

/-!
## Pruning associations

`LinkTable::prune`. An association keeps a scope alive, and the scope may keep the closure: such a
circle would stay for ever. After an evaluation the table is therefore pruned by trial deletion: the
cells behind the table are gathered into a graph, each cell of it that is counted more often than the
graph explains is a root, and what no root leads to is unlinked, its scopes cleared.

A count is not stored here. A cell is counted from outside of the graph exactly if a root of the host
is this cell, or a cell that is there and not in the graph holds it.

* `Cell` is anything on the heap, `Heap.heldBy` what it holds. A closure holds its defining scope.
* `Heap.leaked` are the cells that nobody reaches and that still have a count, `Heap.present` all
  cells that have one.
* `Heap.graph` (`Graph::expand`) is what stands behind the table. It has no native functions and no
  pending values: what they hold counts as held from outside.
* `Heap.outside` is what holds from outside of the graph (`Graph::is_root`). What is behind that is kept
  (`Graph::reachable`).

The addresses that tell nodes apart, the order of the search, and the number of associations that were
dropped are left out. No engine asks for them.
-/

/-- Something on the heap. -/
inductive Cell where
  | object (id : ObjectId)
  | closure (id : ClosureId)
  | native (id : NativeId)
  | scope (id : ScopeId)
  | pending (id : PendingId)
deriving DecidableEq, Repr, Hashable, Inhabited

namespace Cell

/-- The cell that a value refers to. -/
def ofValue? : Value → Option Cell
  | .object id => some (.object id)
  | .function id => some (.closure id)
  | .native id => some (.native id)
  | .pending id => some (.pending id)
  | _ => none

/-- The cells that values refer to. -/
def ofValues (vs : List Value) : List Cell := vs.filterMap ofValue?

/-- A native function or a pending value. -/
def isSealed : Cell → Bool
  | .native _ | .pending _ => true
  | _ => false

/-- A scope. -/
def isScope : Cell → Bool
  | .scope _ => true
  | _ => false

/-- The place of a cell in the order of cells: its kind, its region and its index. -/
def place : Cell → Nat × Nat × Nat
  | .object id => (0, id.region, id.index)
  | .closure id => (1, id.region, id.index)
  | .native id => (2, id.region, id.index)
  | .scope id => (3, id.region, id.index)
  | .pending id => (4, id.region, id.index)

/-- The order of cells. -/
def order : Cell → Cell → Ordering :=
  compareLex (compareOn fun c => c.place.1)
    (compareLex (compareOn fun c => c.place.2.1) (compareOn fun c => c.place.2.2))

theorem place_injective : Function.Injective place := by
  rintro (⟨r, i⟩ | ⟨r, i⟩ | ⟨r, i⟩ | ⟨r, i⟩ | ⟨r, i⟩) (⟨q, j⟩ | ⟨q, j⟩ | ⟨q, j⟩ | ⟨q, j⟩ | ⟨q, j⟩) h <;>
    simp_all [place]

instance : Std.TransCmp order := by
  unfold order
  infer_instance

instance : Std.LawfulEqCmp order where
  compare_self := by simp [order, compareLex, compareOn]
  eq_of_compare h := by
    simp only [order, compareLex, compareOn, Ordering.then_eq_eq, Nat.compare_eq_eq] at h
    exact place_injective (Prod.ext h.1 (Prod.ext h.2.1 h.2.2))

end Cell

/-- A set of cells. -/
abbrev Cells := Std.TreeSet Cell Cell.order

namespace Cell

/-- Visit the cells of a worklist and all that follows from them; at most `fuel` new ones. -/
def visit (next : Cell → List Cell) : Nat → List Cell → Cells → Cells
  | 0, _, seen => seen
  | fuel + 1, work, seen =>
    match work.dropWhile seen.contains with
    | [] => seen
    | c :: work => visit next fuel (next c ++ work) (seen.insert c)

end Cell

namespace Scope

/-- The values a scope holds. -/
def held (s : Scope) : List Value :=
  s.thisValue ::
    match s.storage with
    | .locals bindings => bindings.map (·.value)
    | .global o => [.object o]

end Scope

namespace Heap

/-- How many cells there are. -/
def cellCount (h : Heap) : Nat :=
  h.objects.size + h.closures.size + h.natives.size + h.scopes.size + h.pendings.size

/-- What a cell holds. -/
def heldBy (h : Heap) (links : Links) : Cell → List Cell
  | .object id => Cell.ofValues (h.objects.get id).held
  | .closure id =>
    .object (h.closures.get id).object :: ((links.definingScope? h id).map Cell.scope).toList
  | .native id => [.object (h.natives.get id).object]
  | .scope id =>
    let s := h.scopes.get id
    (s.parent.map Cell.scope).toList ++ Cell.ofValues s.held
  | .pending id => Cell.ofValues (h.pendings.get id).held

/-- The cell is there. -/
def contains (h : Heap) : Cell → Bool
  | .object id => (h.objects.get? id).isSome
  | .closure id => (h.closures.get? id).isSome
  | .native id => (h.natives.get? id).isSome
  | .scope id => (h.scopes.get? id).isSome
  | .pending id => (h.pendings.get? id).isSome

/-- Every cell of the heap. -/
def cells (h : Heap) : List Cell :=
  h.objects.addresses.map .object ++ h.closures.addresses.map .closure
    ++ h.natives.addresses.map .native ++ h.scopes.addresses.map .scope
    ++ h.pendings.addresses.map .pending

/-- What a cell leads to: what it holds and is there. -/
def leads (h : Heap) (links : Links) (c : Cell) : List Cell := (h.heldBy links c).filter h.contains

/-- All cells that these reach. -/
def reach (h : Heap) (links : Links) (roots : List Cell) : Cells :=
  Cell.visit (h.leads links) h.cellCount (roots.filter h.contains) {}

/-- A cell of each association of a table. -/
def tableCells (links : Links) (f : Association → Cell) : List Cell :=
  links.foldl (fun cells _ a => f a :: cells) []

/-- The scopes of a table. -/
def tableScopes (links : Links) : List Cell := tableCells links (Cell.scope ·.scope)

/-- The closures of a table. -/
def tableClosures (links : Links) : List Cell := tableCells links (Cell.closure ·.closure)

/-- The cells on circles beyond those that are reached. Each is counted by the one before it, so
nothing ever frees them. No scope is among them: it is held by scopes below it and by tables only. -/
def leaked (h : Heap) (links : Links) (reached : Cells) : List Cell :=
  h.cells.filter fun c => !c.isScope && !reached.contains c &&
    (Cell.visit (h.leads links) h.cellCount (h.leads links c) reached).contains c

/-- The cells that are there: whatever is reached from the roots or the table, and what leaked, with
all that it holds. -/
def present (h : Heap) (links : Links) (roots : List Cell) : Cells :=
  let reached := h.reach links (roots ++ tableScopes links)
  Cell.visit (h.leads links) h.cellCount (h.leaked links reached) reached

/-- The cells behind a table: its scopes, those of its closures that are there, and what these lead to
without native functions and pending values. -/
def graph (h : Heap) (links : Links) (present : Cells) : Cells :=
  Cell.visit (fun c => (h.leads links c).filter (!·.isSealed)) h.cellCount
    ((tableScopes links).filter h.contains ++ (tableClosures links).filter present.contains) {}

/-- What counts as held from outside: the roots, and what is there but not in the graph. -/
def outside (roots : List Cell) (present graph : Cells) : List Cell :=
  roots ++ present.toList.filter (!graph.contains ·)

/-- Keep the associations of the closures that are held from outside, and clear the scopes of the
graph that are not. -/
def prune (h : Heap) (links : Links) (roots : List Cell) : Links × Heap :=
  let present := h.present links roots
  let graph := h.graph links present
  let kept := h.reach links (outside roots present graph)
  (links.filter fun _ a => kept.contains (.closure a.closure),
    graph.toList.foldl (fun h c =>
      match c with
      | .scope id => if kept.contains c then h else h.clearBindings id
      | _ => h) h)

end Heap

end Fermata
