import Fermata.Proofs.Prune.Effect
import Fermata.Proofs.Session.Create
import Fermata.Proofs.Session.Regime

/-!
# Where code comes from

Frames and closures of a session run code of units that the host or the engine compiled, so what holds
of all such units holds of everything that runs.

* `Provenance`: a kind of unit.
* `Provenance.invariant`: all frames and closures belong to units of the kind.
-/

namespace Fermata

/-- A kind of unit that has everything that is compiled, and in which a number finds the function
with that number. -/
structure Provenance where
  units : CodeUnit → Prop
  compiled {source outer u} : CodeUnit.compile source outer = .ok u → units u
  numbered {u id fn} : units u → u.function? id = some fn → fn.id = id

/-- A closure with a record is on the heap. -/
theorem Heap.get?_of_record {h : Heap} {id : ClosureId} {r : ScopeRecord}
    (hr : (h.closures.get id).unit.record? (h.closures.get id).node.id = some r) :
    h.closures.get? id = some (h.closures.get id) := by
  unfold Store.get at hr ⊢
  cases hk : h.closures.get? id with
  | some k => rfl
  | none =>
    rw [hk] at hr
    cases hr

namespace Provenance

variable (O : Provenance)

/-- The closure is a function of a unit of the kind. -/
def OfClosure (k : Closure) : Prop := O.units k.unit ∧ k.unit.function? k.node.id = some k.node

/-- All frames and closures belong to units of the kind. -/
def Holds (fs : List Frame) (h : Heap) : Prop :=
  (∀ f ∈ fs, O.units f.unit) ∧ ∀ id k, h.closures.get? id = some k → O.OfClosure k

variable {O} {f : Frame} {fs : List Frame} {c : Core}

theorem Holds.cons {h : Heap} (hf : O.units f.unit) (hfs : O.Holds fs h) : O.Holds (f :: fs) h := by
  refine ⟨fun g hg => ?_, hfs.2⟩
  rcases List.mem_cons.mp hg with rfl | hg
  · exact hf
  · exact hfs.1 g hg

/-- Only the unit of a frame matters. -/
theorem Holds.same {g : Frame} {h : Heap} (hg : g.unit = f.unit) (hfs : O.Holds (f :: fs) h) :
    O.Holds (g :: fs) h :=
  Holds.cons (hg ▸ hfs.1 f List.mem_cons_self)
    ⟨fun f' hf' => hfs.1 f' (List.mem_cons_of_mem f hf'), hfs.2⟩

theorem Holds.tail {h : Heap} (hfs : O.Holds (f :: fs) h) : O.Holds fs h :=
  ⟨fun g hg => hfs.1 g (List.mem_cons_of_mem f hg), hfs.2⟩

theorem Holds.idle {h : Heap} (hfs : O.Holds fs h) : O.Holds [] h :=
  ⟨fun _ hf => absurd hf List.not_mem_nil, hfs.2⟩

/-- A heap without closures. -/
theorem Holds.unused {h : Heap} (hnone : ∀ id, h.closures.get? id = none) : O.Holds [] h := by
  refine ⟨fun _ hf => absurd hf List.not_mem_nil, fun id k hk => ?_⟩
  rw [hnone id] at hk
  cases hk

/-- A function literal becomes a closure of its frame's unit. -/
theorem Holds.bearing {node : Nat} {fn : FunctionNode} (h : O.Holds (f :: fs) c.heap)
    (hfn : f.unit.function? node = some fn) : O.Holds (f :: fs) (c.bearing fn f.unit).heap := by
  refine ⟨h.1, fun id k hk => ?_⟩
  have hunit := h.1 f List.mem_cons_self
  change (c.heap.closures.push _ _).get? id = some k at hk
  rw [Store.get?_push] at hk
  split at hk
  · cases hk
    refine ⟨hunit, ?_⟩
    change f.unit.function? fn.id = some fn
    rw [O.numbered hunit hfn]
    exact hfn
  · exact h.2 id k hk

/-- A call enters a function of the kind. -/
theorem Holds.entering {id : ClosureId} {r : ScopeRecord} {h : Heap} (hfs : O.Holds fs h)
    (hr : (h.closures.get id).unit.record? (h.closures.get id).node.id = some r) (scope : ScopeId) :
    O.Holds ((h.closures.get id).frame r scope :: fs) h :=
  Holds.cons (f := (h.closures.get id).frame r scope) (hfs.2 id _ (Heap.get?_of_record hr)).1 hfs

variable (O) in
/-- **All code belongs to units of the kind.** -/
def invariant : Invariant where
  holds fs c := O.Holds fs c.heap
  quiet h _ := h
  binding h _ _ _ := h
  birth h hfn := h.bearing hfn
  link {f} _ _ _ _ _ _ h hfn _ _ := (h.bearing hfn).same (f := f) rfl
  capture _ h _ hr _ _ := h.entering hr _
  share _ h _ hr _ := h.entering hr _
  code h hunit := h.cons (O.compiled hunit)
  mark {f} _ _ h _ := h.same (f := f) rfl
  close h := h.tail

/-- The closures of a core show what their units show. -/
theorem covers {A : Atlas} (hA : ∀ u, O.units u → ∀ id fn, u.function? id = some fn →
    ∀ t ∈ fn.body, (A.ofFunction u id).stmt ⟨[], [], t⟩) (h : O.Holds fs c.heap) : A.Covers c := by
  intro id
  unfold Store.get
  cases hk : c.heap.closures.get? id with
  | some k =>
    obtain ⟨hunit, hfn⟩ := h.2 id k hk
    exact hA k.unit hunit k.node.id k.node hfn
  | none => exact nofun

/-- A new engine has no code yet. -/
theorem Holds.create {h : Heap} (hfs : O.Holds fs h) (region : Nat) (name : String)
    (settings : Settings) (host : Option ObjectId) (defines : List (String × Value)) :
    O.Holds fs (Engine.create h region name settings host defines).2 := by
  refine ⟨hfs.1, ?_⟩
  rw [(Engine.create_heap h region name settings host defines).closures]
  exact hfs.2

/-- Pruning keeps all closures. -/
theorem Holds.ended (h : O.Holds [] c.heap) (held : List Cell) :
    O.Holds [] (c.ended held).heap := by
  refine ⟨h.1, ?_⟩
  change ∀ id k, (c.heap.prune c.engine.links held).2.closures.get? id = some k → O.OfClosure k
  rw [Heap.closures_prune]
  exact h.2

end Provenance

end Fermata
