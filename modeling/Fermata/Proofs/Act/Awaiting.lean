import Fermata.Proofs.Walk.Depth
import Fermata.Session.Evaluate

/-!
# What does not look at pending values

Reading and writing objects, scopes and texts never opens a pending value: `Heap.awaiting` puts other
pending values into a heap, and every function here gives on it what it gives on the heap itself.
The recursive ones (`alongChain`, `textWithin`, `toJsonWithin`, `placeWithin`, `visibleWithin`,
`ofJson`) are inductions, the others follow by unfolding.

* `Heap.Shows`: texts and JSON do not look at scopes either.
* `Heap.Spares`: a change to objects alone.
-/

namespace Fermata

namespace Heap

variable (h : Heap) (P : Store .pending Pending)

/-- The heap with other pending values. -/
def awaiting : Heap := { h with pendings := P }

@[simp]
theorem objects_awaiting : (h.awaiting P).objects = h.objects := rfl

@[simp]
theorem closures_awaiting : (h.awaiting P).closures = h.closures := rfl

@[simp]
theorem natives_awaiting : (h.awaiting P).natives = h.natives := rfl

@[simp]
theorem scopes_awaiting : (h.awaiting P).scopes = h.scopes := rfl

@[simp]
theorem pendings_awaiting : (h.awaiting P).pendings = P := rfl

@[simp]
theorem objectCount_awaiting : (h.awaiting P).objectCount = h.objectCount := rfl

@[simp]
theorem numbers_awaiting : (h.awaiting P).numbers = h.numbers := rfl

/-- Two heaps have the same objects and functions, and number their pending values alike. -/
structure Shows (h k : Heap) : Prop where
  objects : k.objects = h.objects
  closures : k.closures = h.closures
  natives : k.natives = h.natives
  numbers : k.numbers = h.numbers

theorem shows_awaiting : h.Shows (h.awaiting P) := ⟨rfl, rfl, rfl, rfl⟩

/-! ## Prototype chains -/

theorem Shows.alongChain {h k : Heap} {α : Type} (hk : h.Shows k) (f : Object → Option α) (fuel : Nat)
    (id : ObjectId) : k.alongChain f fuel id = h.alongChain f fuel id := by
  induction fuel generalizing id with
  | zero => rfl
  | succ fuel ih => simp only [Heap.alongChain, hk.objects, ih]

theorem Shows.lookup? {h k : Heap} (hk : h.Shows k) (id : ObjectId) (key : String) :
    k.lookup? id key = h.lookup? id key := by
  simp only [Heap.lookup?, objectCount, hk.objects, hk.alongChain]

@[simp]
theorem alongChain_awaiting {α : Type} (f : Object → Option α) (fuel : Nat) (id : ObjectId) :
    (h.awaiting P).alongChain f fuel id = h.alongChain f fuel id :=
  (h.shows_awaiting P).alongChain f fuel id

@[simp]
theorem lookup?_awaiting (id : ObjectId) (key : String) :
    (h.awaiting P).lookup? id key = h.lookup? id key :=
  (h.shows_awaiting P).lookup? id key

@[simp]
theorem has_awaiting (id : ObjectId) (key : String) : (h.awaiting P).has id key = h.has id key := by
  simp only [has, alongChain_awaiting, objectCount_awaiting]

theorem collectKeys_awaiting (fuel : Nat) (id : ObjectId) (keys : List String) :
    (h.awaiting P).collectKeys fuel id keys = h.collectKeys fuel id keys := by
  induction fuel generalizing id keys with
  | zero => rfl
  | succ fuel ih => simp only [collectKeys, objects_awaiting, ih]

@[simp]
theorem enumerableKeys_awaiting (id : ObjectId) :
    (h.awaiting P).enumerableKeys id = h.enumerableKeys id := by
  simp only [enumerableKeys, collectKeys_awaiting, objects_awaiting, objectCount_awaiting]

theorem inherits_go_awaiting (proto : ObjectId) (fuel : Nat) (id : ObjectId) :
    inherits.go (h.awaiting P) proto fuel id = inherits.go h proto fuel id := by
  induction fuel generalizing id with
  | zero => rfl
  | succ fuel ih => simp only [inherits.go, objects_awaiting, ih]

@[simp]
theorem inherits_awaiting (id proto : ObjectId) :
    (h.awaiting P).inherits id proto = h.inherits id proto := by
  simp only [inherits, inherits_go_awaiting, objects_awaiting, objectCount_awaiting]

@[simp]
theorem holder?_awaiting (v : Value) : (h.awaiting P).holder? v = h.holder? v := rfl

@[simp]
theorem array?_awaiting (v : Value) : (h.awaiting P).array? v = h.array? v := rfl

/-! ## Conversions -/

theorem Shows.textWithin {h k : Heap} (hk : h.Shows k) (fuel : Nat) (seen : List ObjectId)
    (v : Value) : k.textWithin fuel seen v = h.textWithin fuel seen v := by
  induction fuel generalizing seen v with
  | zero => cases v <;> simp only [Heap.textWithin, hk.closures, hk.natives, hk.numbers]
  | succ fuel ih =>
    cases v <;>
      simp only [Heap.textWithin, hk.closures, hk.natives, hk.numbers, hk.objects, hk.lookup?, ih]

theorem Shows.text {h k : Heap} (hk : h.Shows k) (v : Value) : k.text v = h.text v := by
  unfold Heap.text
  rw [textFrom_congr fun n => hk.textWithin n [] v]

@[simp]
theorem text_awaiting (v : Value) : (h.awaiting P).text v = h.text v :=
  (h.shows_awaiting P).text v

@[simp]
theorem primitive_awaiting (v : Value) : (h.awaiting P).primitive v = h.primitive v := by
  simp only [primitive, text_awaiting]

@[simp]
theorem number_awaiting (v : Value) : (h.awaiting P).number v = h.number v := by
  simp only [number, text_awaiting]

@[simp]
theorem key_awaiting (v : Value) : (h.awaiting P).key v = h.key v := by
  simp only [key, text_awaiting]

@[simp]
theorem looseEquals_awaiting (a b : Value) :
    (h.awaiting P).looseEquals a b = h.looseEquals a b := by
  simp only [looseEquals, primitive_awaiting]

@[simp]
theorem order?_awaiting (a b : Value) : (h.awaiting P).order? a b = h.order? a b := by
  simp only [order?, primitive_awaiting, number_awaiting]

theorem Shows.toJsonWithin {h k : Heap} (hk : h.Shows k) (fuel : Nat) (path : List ObjectId)
    (v : Value) : k.toJsonWithin fuel path v = h.toJsonWithin fuel path v := by
  induction fuel generalizing path v with
  | zero => cases v <;> rfl
  | succ fuel ih =>
    have ih' : k.toJsonWithin fuel = h.toJsonWithin fuel := by
      funext path v
      exact ih path v
    cases v with
    | object id => simp only [Heap.toJsonWithin, hk.objects, hk.lookup?, ih']
    | _ => rfl

theorem Shows.toJson {h k : Heap} (hk : h.Shows k) (v : Value) : k.toJson v = h.toJson v := by
  simp only [Heap.toJson, hk.toJsonWithin, objectCount, hk.objects]

@[simp]
theorem toJson_awaiting (v : Value) : (h.awaiting P).toJson v = h.toJson v :=
  (h.shows_awaiting P).toJson v

/-- A failure is the same on heaps with the same objects and functions. -/
theorem Shows.ofThrown {h k : Heap} (hk : h.Shows k) (v : Value) :
    Failure.ofThrown k v = Failure.ofThrown h v := by
  simp only [Failure.ofThrown, hk.objects, hk.lookup?, hk.text, hk.toJson]

/-! ## Scopes -/

@[simp]
theorem placeWithin_awaiting (name : String) (fuel : Nat) (id : ScopeId) :
    (h.awaiting P).placeWithin name fuel id = h.placeWithin name fuel id := by
  induction fuel generalizing id with
  | zero => rfl
  | succ fuel ih => simp only [placeWithin, scopes_awaiting, ih]

@[simp]
theorem place_awaiting (id : ScopeId) (name : String) :
    (h.awaiting P).place id name = h.place id name :=
  placeWithin_awaiting h P name _ id

@[simp]
theorem getName_awaiting (id : ScopeId) (name : String) :
    (h.awaiting P).getName id name = h.getName id name := by
  simp only [getName, place_awaiting, scopes_awaiting, globalValue?, lookup?_awaiting]

@[simp]
theorem target_awaiting (id : ScopeId) (name : String) :
    (h.awaiting P).target id name = h.target id name := by
  simp only [target, place_awaiting]

@[simp]
theorem declares_awaiting (id : ScopeId) (name : String) :
    (h.awaiting P).declares id name = h.declares id name := by
  simp only [declares, scopes_awaiting, has_awaiting]

theorem visibleWithin_awaiting (fuel : Nat) (id : ScopeId) (names : List String) :
    (h.awaiting P).visibleWithin fuel id names = h.visibleWithin fuel id names := by
  induction fuel generalizing id names with
  | zero => rfl
  | succ fuel ih => simp only [visibleWithin, scopes_awaiting, ih]

@[simp]
theorem visibleNames_awaiting (id : ScopeId) :
    (h.awaiting P).visibleNames id = h.visibleNames id :=
  visibleWithin_awaiting h P _ id []

/-! ## Changes to objects

Each of these changes objects alone, and changes them in the same way whatever is pending. -/

/-- Everything but the objects is as it was. -/
def Spares (h k : Heap) : Prop := k = { h with objects := k.objects }

theorem spares_refl (h : Heap) : h.Spares h := rfl

theorem Spares.trans {h k l : Heap} (hk : h.Spares k) (kl : k.Spares l) : h.Spares l := by
  unfold Spares at *
  rw [kl, hk]

@[simp]
theorem newObject_awaiting (region : Nat) (o : Object) :
    (h.awaiting P).newObject region o =
      ((h.newObject region o).1, (h.newObject region o).2.awaiting P) := rfl

theorem spares_newObject (region : Nat) (o : Object) : h.Spares (h.newObject region o).2 := rfl

@[simp]
theorem write_awaiting (id : ObjectId) (key : String) (v : Value) (enumerable : Bool) :
    (h.awaiting P).write id key v enumerable = (h.write id key v enumerable).awaiting P := by
  simp only [write, number_awaiting, objects_awaiting]
  rfl

@[simp]
theorem set_awaiting (id : ObjectId) (key : String) (v : Value) :
    (h.awaiting P).set id key v = (h.set id key v).awaiting P :=
  write_awaiting h P id key v true

theorem spares_set (id : ObjectId) (key : String) (v : Value) : h.Spares (h.set id key v) := rfl

@[simp]
theorem erase_awaiting (id : ObjectId) (key : String) :
    (h.awaiting P).erase id key = (h.erase id key).awaiting P := rfl

@[simp]
theorem prototypeOf_awaiting (region : Nat) (id : ClosureId) :
    (h.awaiting P).prototypeOf region id =
      ((h.prototypeOf region id).1, (h.prototypeOf region id).2.awaiting P) := by
  simp only [prototypeOf, closures_awaiting, objects_awaiting, newObject_awaiting]
  split
  · rfl
  · simp only [hide, write_awaiting]

theorem spares_prototypeOf (region : Nat) (id : ClosureId) :
    h.Spares (h.prototypeOf region id).2 := by
  simp only [prototypeOf]
  split <;> rfl

mutual

theorem ofJson_awaiting (h : Heap) (P : Store .pending Pending) (region : Nat) (j : Json) :
    (h.awaiting P).ofJson region j =
      ((h.ofJson region j).1, (h.ofJson region j).2.awaiting P) := by
  match j with
  | .null | .bool _ | .number _ | .string _ => rfl
  | .array items => simp only [ofJson, ofJsonItems_awaiting h P region items, newObject_awaiting]
  | .object members =>
    simp only [ofJson, newObject_awaiting, ofJsonMembers_awaiting _ P region _ members]

theorem ofJsonItems_awaiting (h : Heap) (P : Store .pending Pending) (region : Nat)
    (js : List Json) :
    (h.awaiting P).ofJsonItems region js =
      ((h.ofJsonItems region js).1, (h.ofJsonItems region js).2.awaiting P) := by
  match js with
  | [] => rfl
  | j :: js =>
    simp only [ofJsonItems, ofJson_awaiting h P region j, ofJsonItems_awaiting _ P region js]

theorem ofJsonMembers_awaiting (h : Heap) (P : Store .pending Pending) (region : Nat)
    (id : ObjectId) (ms : List (String × Json)) :
    (h.awaiting P).ofJsonMembers region id ms = (h.ofJsonMembers region id ms).awaiting P := by
  match ms with
  | [] => rfl
  | (k, j) :: ms =>
    simp only [ofJsonMembers, ofJson_awaiting h P region j, set_awaiting,
      ofJsonMembers_awaiting _ P region id ms]

end

mutual

theorem spares_ofJson (h : Heap) (region : Nat) (j : Json) : h.Spares (h.ofJson region j).2 := by
  match j with
  | .null | .bool _ | .number _ | .string _ => rfl
  | .array items =>
    exact (spares_ofJsonItems h region items).trans (spares_newObject _ region _)
  | .object members =>
    exact (spares_newObject h region _).trans (spares_ofJsonMembers _ region _ members)

theorem spares_ofJsonItems (h : Heap) (region : Nat) (js : List Json) :
    h.Spares (h.ofJsonItems region js).2 := by
  match js with
  | [] => rfl
  | j :: js => exact (spares_ofJson h region j).trans (spares_ofJsonItems _ region js)

theorem spares_ofJsonMembers (h : Heap) (region : Nat) (id : ObjectId) (ms : List (String × Json)) :
    h.Spares (h.ofJsonMembers region id ms) := by
  match ms with
  | [] => rfl
  | (k, j) :: ms =>
    exact ((spares_ofJson h region j).trans (spares_set _ id k _)).trans
      (spares_ofJsonMembers _ region id ms)

end

end Heap

end Fermata
