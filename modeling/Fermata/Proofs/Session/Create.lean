import Fermata.Engine.Drive
import Fermata.Proofs.Walk.Lineage

/-!
# What a new engine adds to a heap

Objects and native functions, and one scope: its root. Closures and pending values stay as they are, and
no object gets another prototype. Only the new global object inherits from another one.

* `Engine.create_furnished`: what else is there besides the new global object and the root.
* `Engine.create_heap`: what is new, seen from the heap before.
-/

namespace Fermata

namespace Heap

/-- Only objects and native functions were added or changed. -/
structure Enlarged (h k : Heap) : Prop where
  closures : k.closures = h.closures
  scopes : k.scopes = h.scopes
  pendings : k.pendings = h.pendings
  /-- No object is gone, or has another prototype. -/
  objects : h.KeepsProtos k

/-- Besides, no new object inherits from another one. -/
structure Furnished (h k : Heap) : Prop extends h.Enlarged k where
  founded : h.Founded → k.Founded

variable {h k : Heap}

theorem Furnished.refl (h : Heap) : h.Furnished h := ⟨⟨rfl, rfl, rfl, .refl h⟩, id⟩

theorem Furnished.write (hk : h.Furnished k) (id : ObjectId) (key : String) (v : Value) (b : Bool) :
    h.Furnished (k.write id key v b) :=
  ⟨⟨hk.closures, hk.scopes, hk.pendings,
      hk.objects.trans (.modify k id fun o => Object.proto_put o key v _ b)⟩,
    fun hf => (hk.founded hf).modify id fun o => Object.proto_put o key v _ b⟩

theorem Furnished.newObject (hk : h.Furnished k) (region : Nat) {new : Object} (hnew : new.proto = none) :
    h.Furnished (k.newObject region new).2 :=
  ⟨⟨hk.closures, hk.scopes, hk.pendings, hk.objects.trans (.push k region new)⟩,
    fun hf => (hk.founded hf).push (fun p hp => by cases hnew.symm.trans hp) region⟩

theorem Furnished.newNative (hk : h.Furnished k) (region : Nat) (n : Native) :
    h.Furnished (k.newNative region n).2 :=
  ⟨⟨hk.closures, hk.scopes, hk.pendings, hk.objects⟩, fun hf => (hk.founded hf).of_objects rfl⟩

theorem Furnished.foldl {α : Type} {f : Heap → α → Heap}
    (hf : ∀ (k : Heap) a, h.Furnished k → h.Furnished (f k a)) (as : List α) (hk : h.Furnished k) :
    h.Furnished (as.foldl f k) := by
  induction as generalizing k with
  | nil => exact hk
  | cons a as ih => exact ih (hf k a hk)

theorem Furnished.addMethod (hk : h.Furnished k) (region : Nat) (object : ObjectId)
    (constructible : Bool) (m : String × Builtin) :
    h.Furnished (Builtin.addMethod region object constructible k m) :=
  ((hk.newObject region rfl).newNative region _).write object m.1 _ false

theorem Furnished.addNamespace (hk : h.Furnished k) (region : Nat) (object : ObjectId)
    (name : String) (constants : List (String × Float)) (methods : List (String × Builtin)) :
    h.Furnished (Builtin.addNamespace region object name constants methods k) := by
  refine Furnished.write ?_ object name _ false
  refine .foldl (fun k m hk => hk.addMethod region _ false m) methods ?_
  exact .foldl (fun k c hk => hk.write _ c.1 _ false) constants (hk.newObject region rfl)

/-- The standard functions are objects and native functions. -/
theorem Furnished.install (hk : h.Furnished k) (region : Nat) (global methods : ObjectId)
    (evalFunction : NativeId) :
    h.Furnished (Builtin.install region global methods evalFunction k) := by
  unfold Builtin.install
  refine .foldl (fun k m hk => hk.addMethod region _ false m) _ ?_
  refine .foldl (fun k m hk => hk.addMethod region _ true m) _ ?_
  refine Furnished.write ?_ global evalName _ false
  refine .foldl (fun k m hk => hk.addMethod region _ false m) _ ?_
  refine Furnished.addNamespace (Furnished.addNamespace ?_ ..) ..
  refine Furnished.addNamespace (Furnished.addNamespace ?_ ..) ..
  exact (hk.addNamespace ..).write global "Infinity" _ false

/-- Values under names on one object. -/
theorem Furnished.defines (hk : h.Furnished k) (id : ObjectId) (vs : List (String × Value)) :
    h.Furnished (vs.foldl (fun h (name, v) => h.set id name v) k) :=
  .foldl (fun _ d hk => hk.write id d.1 d.2 true) vs hk

/-- The scope at the root of the next engine of a region. -/
def nextRoot (h : Heap) (region : Nat) : Scope :=
  ⟨none, programName, .global (h.objects.next region), .object (h.objects.next region)⟩

end Heap

/-- The heap with the global object and the root of a new engine. -/
def Heap.nextGlobal (h : Heap) (region : Nat) (host : Option ObjectId) : Heap :=
  { h with
    objects := h.objects.push region (.empty host)
    scopes := h.scopes.push region (h.nextRoot region) }

/-- **A new engine has a global object and a root**, and besides them objects and native functions. -/
theorem Engine.create_furnished (h : Heap) (region : Nat) (name : String) (settings : Settings)
    (host : Option ObjectId) (defines : List (String × Value)) :
    (h.nextGlobal region host).Furnished (Engine.create h region name settings host defines).2 := by
  simp only [Engine.create]
  refine Heap.Furnished.defines ?_ _ defines
  have hbare := Heap.Furnished.refl (h.nextGlobal region host)
  by_cases hlib : settings.installStdlib = true
  · rw [if_pos hlib]
    refine Heap.Furnished.install ?_ ..
    exact ((hbare.newObject region rfl).newObject region rfl).newNative region _
  · rw [if_neg hlib]
    exact ((hbare.newObject region rfl).newObject region rfl).newNative region _

/-- **A new engine adds one scope**, and neither closures nor pending values. -/
theorem Engine.create_heap (h : Heap) (region : Nat) (name : String) (settings : Settings)
    (host : Option ObjectId) (defines : List (String × Value)) :
    Heap.Enlarged { h with scopes := h.scopes.push region (h.nextRoot region) }
      (Engine.create h region name settings host defines).2 := by
  have hmade := Engine.create_furnished h region name settings host defines
  exact ⟨hmade.closures, hmade.scopes, hmade.pendings, .trans (.push h region (.empty host)) hmade.objects⟩

/-- **A new engine leaves every object a lineage**, if its host object exists. -/
theorem Engine.create_founded {h : Heap} (hf : h.Founded) (region : Nat) (name : String)
    (settings : Settings) {host : Option ObjectId} (hhost : ∀ p, host = some p → (h.objects.get? p).isSome)
    (defines : List (String × Value)) :
    (Engine.create h region name settings host defines).2.Founded :=
  (create_furnished h region name settings host defines).founded
    ((hf.push (o := .empty host) hhost region).of_objects rfl)

end Fermata
