import Fermata.Machine.Property
import Fermata.Proofs.Custody.Content
import Fermata.Proofs.Walk.Text

/-!
# Heaps that agree on what an evaluation sees

An evaluation sees the cells that it holds and those behind them. Two heaps agree on that (`Heap.Agree`)
if these cells are the same on both and lead nowhere else. Then everything that an evaluation reads is
the same on both heaps, however many other cells there are: the walks along prototypes are bounded by the
number of objects, but the bound decides nothing (`Heap.alongChain_eq`).

* `Sight`: the cells that may be held, the values that may be met, the objects that may be looked into.
* `Heap.Agree.lookup?`, `Heap.Agree.text`, `Heap.Agree.toJson`: what is read from objects.
* `Heap.Agree.getName`, `Heap.Agree.target`: what is read from scopes.
-/

namespace Fermata

/-- What an evaluation may see. -/
structure Sight where
  /-- The cell may be held. -/
  held : Cell → Prop
  /-- A value that refers to the cell may be put into a cell. -/
  stored : Cell → Prop
  /-- A value that refers to the cell may be an item of a loop. -/
  listed : Cell → Prop
  /-- A value that refers to the cell may be met. -/
  met : Cell → Prop
  /-- The object may be looked into. -/
  shown : ObjectId → Prop
  stored_of_held {x} : held x → stored x
  listed_of_stored {x} : stored x → listed x
  met_of_listed {x} : listed x → met x
  /-- Nothing but a pending value is met and not held. -/
  held_of_met {x} : met x → (∀ p, x ≠ .pending p) → held x
  shown_of_held {id} : held (.object id) → shown id

/-- The heaps have the same in sight, and nothing in sight leads out of sight. -/
structure Heap.Agree (S : Sight) (h k : Heap) : Prop where
  object {id} : S.shown id → h.objects.get? id = k.objects.get? id
  closure {id} : S.held (.closure id) → h.closures.get? id = k.closures.get? id
  native {id} : S.held (.native id) → h.natives.get? id = k.natives.get? id
  scope {id} : S.held (.scope id) → h.scopes.get? id = k.scopes.get? id
  pending {id} : S.met (.pending id) → h.pendings.get? id = k.pendings.get? id
  numbering {id} : S.met (.pending id) → h.numbers.get? id = k.numbers.get? id
  stores {id} : S.shown id → (h.objects.get id).Stores S.met
  proto {id p} : S.shown id → (h.objects.get id).proto = some p → S.shown p
  closureBag {id} : S.held (.closure id) → S.held (.object (h.closures.get id).object)
  nativeBag {id} : S.held (.native id) → S.held (.object (h.natives.get id).object)
  parent {id p} : S.held (.scope id) → (h.scopes.get id).parent = some p → S.held (.scope p)
  values {id} : S.held (.scope id) → ∀ v ∈ (h.scopes.get id).held, v.Within S.met
  settlement {id} : S.met (.pending id) → ∀ v ∈ (h.pendings.get id).held, v.Within S.met

namespace Sight

variable {S : Sight} {v : Value}

/-- What the value refers to may be met. -/
abbrev Meets (S : Sight) (v : Value) : Prop := v.Within S.met

/-- What the value refers to may be held. -/
abbrev Has (S : Sight) (v : Value) : Prop := v.Within S.held

theorem met_of_stored {x : Cell} (hx : S.stored x) : S.met x := S.met_of_listed (S.listed_of_stored hx)

theorem met_of_held {x : Cell} (hx : S.held x) : S.met x := S.met_of_stored (S.stored_of_held hx)

theorem meets_of_has (hv : S.Has v) : S.Meets v := hv.mono fun _ => S.met_of_held

/-- A value that is met and not pending may be held. -/
theorem has_of_meets (hv : S.Meets v) (hplain : ∀ p, v ≠ .pending p) : S.Has v := by
  intro x hx
  refine S.held_of_met (hv x hx) ?_
  rintro p rfl
  cases v <;> cases hx
  exact hplain _ rfl

theorem object_of_meets {id : ObjectId} (hv : S.Meets (.object id)) : S.held (.object id) :=
  (Value.within_object id).mp (has_of_meets hv nofun)

theorem closure_of_meets {id : ClosureId} (hv : S.Meets (.function id)) : S.held (.closure id) :=
  (Value.within_function id).mp (has_of_meets hv nofun)

theorem native_of_meets {id : NativeId} (hv : S.Meets (.native id)) : S.held (.native id) :=
  (Value.within_native id).mp (has_of_meets hv nofun)

/-- The place of a name is in sight. -/
def HasPlace (S : Sight) : Heap.Place → Prop
  | .binding s => S.held (.scope s)
  | .global o => S.held (.object o)
  | .nowhere => True

end Sight

namespace Heap.Agree

variable {S : Sight} {h k : Heap} {α : Type} {id : ObjectId} {v w : Value}

theorem get_object (hA : h.Agree S k) (hid : S.shown id) : h.objects.get id = k.objects.get id := by
  rw [Store.get, Store.get, hA.object hid]

theorem get_closure {id : ClosureId} (hA : h.Agree S k) (hid : S.held (.closure id)) :
    h.closures.get id = k.closures.get id := by
  rw [Store.get, Store.get, hA.closure hid]

theorem get_native {id : NativeId} (hA : h.Agree S k) (hid : S.held (.native id)) :
    h.natives.get id = k.natives.get id := by
  rw [Store.get, Store.get, hA.native hid]

theorem get_scope {id : ScopeId} (hA : h.Agree S k) (hid : S.held (.scope id)) :
    h.scopes.get id = k.scopes.get id := by
  rw [Store.get, Store.get, hA.scope hid]

theorem get_pending {id : PendingId} (hA : h.Agree S k) (hid : S.met (.pending id)) :
    h.pendings.get id = k.pendings.get id := by
  rw [Store.get, Store.get, hA.pending hid]

theorem get_numbering {id : PendingId} (hA : h.Agree S k) (hid : S.met (.pending id)) :
    h.numbers.get id = k.numbers.get id := by
  rw [Store.get, Store.get, hA.numbering hid]

/-- The object that carries the properties of a value may be held. -/
theorem held_of_holder? (hA : h.Agree S k) (hv : S.Meets v) (hid : h.holder? v = some id) :
    S.held (.object id) := by
  cases v with
  | object o =>
    cases hid
    exact Sight.object_of_meets hv
  | function f =>
    cases hid
    exact hA.closureBag (Sight.closure_of_meets hv)
  | native n =>
    cases hid
    exact hA.nativeBag (Sight.native_of_meets hv)
  | _ => cases hid

theorem held_of_array? (hv : S.Meets v) (hid : h.array? v = some id) : S.held (.object id) := by
  cases v with
  | object o =>
    simp only [Heap.array?, Option.ite_none_right_eq_some, Option.some.injEq] at hid
    exact hid.2 ▸ Sight.object_of_meets hv
  | _ => cases hid

theorem holder? (hA : h.Agree S k) (hv : S.Meets v) : h.holder? v = k.holder? v := by
  cases v with
  | function f => exact congrArg (some ·.object) (hA.get_closure (Sight.closure_of_meets hv))
  | native n => exact congrArg (some ·.object) (hA.get_native (Sight.native_of_meets hv))
  | _ => rfl

theorem array? (hA : h.Agree S k) (hv : S.Meets v) : h.array? v = k.array? v := by
  cases v with
  | object id =>
    unfold Heap.array?
    dsimp only
    rw [hA.get_object (S.shown_of_held (Sight.object_of_meets hv))]
  | _ => rfl

/-! ## Prototypes -/

theorem alongChain_at (hA : h.Agree S k) (f : Object → Option α) (n : Nat) (hid : S.shown id) :
    h.alongChain f n id = k.alongChain f n id := by
  induction n generalizing id with
  | zero => rfl
  | succ n ih =>
    unfold Heap.alongChain
    dsimp only
    rw [← hA.get_object hid]
    split
    · rfl
    · split
      · exact ih (hA.proto hid ‹_›)
      · rfl

/-- The first answer on a chain does not depend on what else there is. -/
theorem alongChain (hA : h.Agree S k) {f : Object → Option α} (hf : f default = none)
    (hid : S.shown id) :
    h.alongChain f h.objectCount id = k.alongChain f k.objectCount id := by
  rw [← alongChain_eq hf (Nat.le_max_left h.objectCount k.objectCount),
    ← alongChain_eq hf (Nat.le_max_right h.objectCount k.objectCount)]
  exact hA.alongChain_at f _ hid

theorem lookup? (hA : h.Agree S k) (hid : S.shown id) (key : String) :
    h.lookup? id key = k.lookup? id key :=
  hA.alongChain rfl hid

theorem has (hA : h.Agree S k) (hid : S.shown id) (key : String) : h.has id key = k.has id key :=
  congrArg Option.isSome (hA.alongChain rfl hid)

/-- What stands on a chain in sight may be met. -/
theorem meets_lookup? (hA : h.Agree S k) {key : String} (hid : S.shown id)
    (hv : h.lookup? id key = some v) : S.Meets v := by
  unfold Heap.lookup? at hv
  generalize h.objectCount = n at hv
  induction n generalizing id with
  | zero => cases hv
  | succ n ih =>
    unfold Heap.alongChain at hv
    dsimp only at hv
    split at hv
    · cases hv
      exact (hA.stores hid).find? ‹_›
    · split at hv
      · exact ih (hA.proto hid ‹_›) hv
      · cases hv

theorem collectKeys_at (hA : h.Agree S k) (n : Nat) (keys : List String) (hid : S.shown id) :
    h.collectKeys n id keys = k.collectKeys n id keys := by
  induction n generalizing id keys with
  | zero => rfl
  | succ n ih =>
    unfold Heap.collectKeys
    dsimp only
    rw [← hA.get_object hid]
    split
    · exact ih _ (hA.proto hid ‹_›)
    · rfl

theorem enumerableKeys (hA : h.Agree S k) (hid : S.shown id) :
    h.enumerableKeys id = k.enumerableKeys id := by
  have hkeys : h.collectKeys h.objectCount id [] = k.collectKeys k.objectCount id [] := by
    rw [← collectKeys_eq (Nat.le_max_left h.objectCount k.objectCount),
      ← collectKeys_eq (Nat.le_max_right h.objectCount k.objectCount)]
    exact hA.collectKeys_at _ _ hid
  unfold Heap.enumerableKeys
  rw [← hA.get_object hid, hkeys]

theorem inherits_at (hA : h.Agree S k) (n : Nat) (proto : ObjectId) (hid : S.shown id) :
    h.inheritsWithin n id proto = true ↔ k.inheritsWithin n id proto = true := by
  induction n generalizing id with
  | zero => simp only [inheritsWithin_zero]
  | succ n ih =>
    simp only [inheritsWithin_succ, ← hA.get_object hid]
    exact exists_congr fun p => and_congr_right fun hp => or_congr_right (ih (hA.proto hid hp))

theorem inherits (hA : h.Agree S k) (hid : S.shown id) (proto : ObjectId) :
    h.inherits id proto = k.inherits id proto := by
  rw [← inheritsWithin_eq (Nat.le_max_left h.objectCount k.objectCount),
    ← inheritsWithin_eq (Nat.le_max_right h.objectCount k.objectCount), Bool.eq_iff_iff]
  exact hA.inherits_at _ proto hid

/-! ## Texts and numbers -/

theorem mapM_congr {α β : Type} {f g : α → Option β} {as : List α} (hfg : ∀ a ∈ as, f a = g a) :
    as.mapM f = as.mapM g := by
  induction as with
  | nil => rfl
  | cons a as ih =>
    rw [List.mapM_cons, List.mapM_cons, hfg a List.mem_cons_self,
      ih fun b hb => hfg b (List.mem_cons_of_mem a hb)]

theorem textWithin (hA : h.Agree S k) (n : Nat) (seen : List ObjectId) (hv : S.Meets v) :
    h.textWithin n seen v = k.textWithin n seen v := by
  induction n generalizing seen v with
  | zero =>
    cases v with
    | object id => rw [textWithin_zero, textWithin_zero]
    | function id =>
      unfold Heap.textWithin
      rw [hA.get_closure (Sight.closure_of_meets hv)]
    | native id =>
      unfold Heap.textWithin
      rw [hA.get_native (Sight.native_of_meets hv)]
    | pending id =>
      unfold Heap.textWithin
      rw [hA.get_numbering ((Value.within_pending id).mp hv)]
    | _ =>
      unfold Heap.textWithin
      rfl
  | succ n ih =>
    cases v with
    | object id =>
      have hid := S.shown_of_held (Sight.object_of_meets hv)
      have hfield : ∀ (key : String) (other : Option String),
          (h.lookup? id key).elim other (h.textWithin n []) =
            (k.lookup? id key).elim other (k.textWithin n []) := by
        intro key other
        rw [← hA.lookup? hid]
        cases hw : h.lookup? id key with
        | none => rfl
        | some w => exact ih [] (hA.meets_lookup? hid hw)
      have hparts : ((h.objects.get id).values.mapM fun e =>
            if e.isNullish then some "" else h.textWithin n (id :: seen) e) =
          (h.objects.get id).values.mapM fun e =>
            if e.isNullish then some "" else k.textWithin n (id :: seen) e := by
        refine mapM_congr fun e he => ?_
        rw [ih (id :: seen) ((hA.stores hid).values e he)]
      rw [textWithin_succ, textWithin_succ]
      unfold objectText
      rw [hparts, hfield, hfield, hA.get_object hid]
    | function id =>
      unfold Heap.textWithin
      rw [hA.get_closure (Sight.closure_of_meets hv)]
    | native id =>
      unfold Heap.textWithin
      rw [hA.get_native (Sight.native_of_meets hv)]
    | pending id =>
      unfold Heap.textWithin
      rw [hA.get_numbering ((Value.within_pending id).mp hv)]
    | _ =>
      unfold Heap.textWithin
      rfl

/-- The text of a value does not depend on what else there is. -/
theorem text (hA : h.Agree S k) (hv : S.Meets v) : h.text v = k.text v := by
  unfold Heap.text
  rw [textFrom_congr fun n => hA.textWithin n [] hv]

theorem primitive (hA : h.Agree S k) (hv : S.Meets v) : h.primitive v = k.primitive v := by
  unfold Heap.primitive
  rw [hA.text hv]

theorem meets_primitive (hv : S.Meets v) : S.Meets (h.primitive v) := by
  unfold Heap.primitive
  split
  · exact Value.within_string _
  · exact Value.within_string _
  · exact Value.within_string _
  · exact Value.within_string _
  · exact hv

theorem number (hA : h.Agree S k) (hv : S.Meets v) : h.number v = k.number v := by
  unfold Heap.number
  rw [hA.text hv]

theorem key (hA : h.Agree S k) (hv : S.Meets v) : h.key v = k.key v := by
  unfold Heap.key
  rw [hA.text hv]

theorem meets_unbool (hv : S.Meets v) : S.Meets (unbool v) := by
  unfold unbool
  split
  · exact Value.within_number _
  · exact hv

theorem looseEquals (hA : h.Agree S k) (hv : S.Meets v) (hw : S.Meets w) :
    h.looseEquals v w = k.looseEquals v w := by
  unfold Heap.looseEquals
  dsimp only
  rw [hA.primitive (meets_unbool hv), hA.primitive (meets_unbool hw)]

theorem order? (hA : h.Agree S k) (hv : S.Meets v) (hw : S.Meets w) :
    h.order? v w = k.order? v w := by
  unfold Heap.order?
  rw [← hA.primitive hv, ← hA.primitive hw]
  have hx := hA.number (meets_primitive (h := h) hv)
  have hy := hA.number (meets_primitive (h := h) hw)
  generalize h.primitive v = x at hx ⊢
  generalize h.primitive w = y at hy ⊢
  split
  · rfl
  · dsimp only
    rw [hx, hy]

/-! ## JSON -/

theorem objectJson (hA : h.Agree S k) {part more : Value → Json}
    (hpart : ∀ v, S.Meets v → part v = more v) (hid : S.shown id) :
    h.objectJson part id = k.objectJson more id := by
  unfold Heap.objectJson
  rw [← hA.get_object hid]
  cases (h.objects.get id).class_ with
  | array => exact congrArg Json.array (List.map_congr_left fun v hv =>
      hpart v ((hA.stores hid).values v hv))
  | error =>
    refine congrArg Json.ofMembers (List.filterMap_congr fun key _ => ?_)
    rw [← hA.lookup? hid]
    cases hv : h.lookup? id key with
    | none => rfl
    | some v => exact congrArg (fun j => some (key, j)) (hpart v (hA.meets_lookup? hid hv))
  | _ =>
    refine congrArg Json.ofMembers (List.map_congr_left fun e he => ?_)
    exact congrArg (e.1, ·) (hpart e.2 ((hA.stores hid).entries e (List.mem_filter.mp he).1))

theorem toJsonWithin (hA : h.Agree S k) (n : Nat) (path : List ObjectId) (hv : S.Meets v) :
    h.toJsonWithin n path v = k.toJsonWithin n path v := by
  induction n generalizing path v with
  | zero =>
    unfold Heap.toJsonWithin
    rfl
  | succ n ih =>
    cases v with
    | object id =>
      rw [toJsonWithin_succ, toJsonWithin_succ, hA.objectJson (fun _ => ih (id :: path))
        (S.shown_of_held (Sight.object_of_meets hv))]
    | _ =>
      unfold Heap.toJsonWithin
      rfl

/-- The JSON of a value does not depend on what else there is. -/
theorem toJson (hA : h.Agree S k) (hv : S.Meets v) : h.toJson v = k.toJson v := by
  rw [← toJson_eq (Nat.le_max_left (h.objectCount + 1) (k.objectCount + 1)),
    ← toJson_eq (Nat.le_max_right (h.objectCount + 1) (k.objectCount + 1))]
  exact hA.toJsonWithin _ _ hv

/-! ## Scopes -/

variable {scope : ScopeId} {name : String}

theorem held_global (hA : h.Agree S k) {o : ObjectId} (hs : S.held (.scope scope))
    (ho : (h.scopes.get scope).storage = .global o) : S.held (.object o) := by
  refine Sight.object_of_meets (hA.values hs (.object o) ?_)
  simp [Scope.held, ho]

theorem meets_this (hA : h.Agree S k) (hs : S.held (.scope scope)) :
    S.Meets (h.scopes.get scope).thisValue :=
  hA.values hs _ List.mem_cons_self

theorem has_placeWithin (hA : h.Agree S k) (name : String) (n : Nat) (hs : S.held (.scope scope)) :
    S.HasPlace (h.placeWithin name n scope) := by
  induction n generalizing scope with
  | zero => exact trivial
  | succ n ih =>
    unfold Heap.placeWithin
    dsimp only
    cases hst : (h.scopes.get scope).storage with
    | global o => exact hA.held_global hs hst
    | locals bindings =>
      dsimp only
      split
      · exact hs
      · cases hp : (h.scopes.get scope).parent with
        | none => exact trivial
        | some p => exact ih (hA.parent hs hp)

theorem has_place (hA : h.Agree S k) (hs : S.held (.scope scope)) (name : String) :
    S.HasPlace (h.place scope name) :=
  hA.has_placeWithin name _ hs

theorem placeWithin (hA : h.Agree S k) (name : String) (n : Nat) (hs : S.held (.scope scope)) :
    h.placeWithin name n scope = k.placeWithin name n scope := by
  induction n generalizing scope with
  | zero => rfl
  | succ n ih =>
    unfold Heap.placeWithin
    dsimp only
    rw [← hA.get_scope hs]
    split
    · rfl
    · split
      · rfl
      · cases hp : (h.scopes.get scope).parent with
        | none => rfl
        | some p => exact ih (hA.parent hs hp)

theorem place (hA : h.Agree S k) (hs : S.held (.scope scope)) (name : String) :
    h.place scope name = k.place scope name :=
  hA.placeWithin name _ hs

theorem meets_localValue? (hA : h.Agree S k) (hs : S.held (.scope scope))
    (hv : (h.scopes.get scope).storage.localValue? name = some v) : S.Meets v := by
  refine hA.values hs v ?_
  unfold Storage.localValue? at hv
  cases hst : (h.scopes.get scope).storage with
  | global o =>
    rw [hst] at hv
    cases hv
  | locals bindings =>
    rw [hst] at hv
    obtain ⟨b, hb, rfl⟩ := Option.map_eq_some_iff.mp hv
    simp only [Scope.held, hst]
    exact List.mem_cons_of_mem _ (List.mem_map_of_mem (List.mem_of_find?_eq_some hb))

theorem meets_globalValue? (hA : h.Agree S k) {o : ObjectId} (ho : S.held (.object o))
    (hv : h.globalValue? o name = some v) : S.Meets v := by
  unfold Heap.globalValue? at hv
  split at hv
  · cases hv
    exact Sight.meets_of_has ((Value.within_object o).mpr ho)
  · split at hv
    · cases hv
      exact Value.within_undefined
    · split at hv
      · cases hv
        exact Value.within_number _
      · exact hA.meets_lookup? (S.shown_of_held ho) hv

theorem globalValue? (hA : h.Agree S k) {o : ObjectId} (ho : S.held (.object o)) (name : String) :
    h.globalValue? o name = k.globalValue? o name := by
  unfold Heap.globalValue?
  rw [hA.lookup? (S.shown_of_held ho)]

/-- A name has one value on both heaps. -/
theorem getName (hA : h.Agree S k) (hs : S.held (.scope scope)) (name : String) :
    h.getName scope name = k.getName scope name := by
  unfold Heap.getName
  rw [← hA.place hs]
  have hplace := hA.has_place hs name
  cases hp : h.place scope name with
  | binding s =>
    rw [hp] at hplace
    dsimp only
    rw [hA.get_scope hplace]
  | global o =>
    rw [hp] at hplace
    dsimp only
    rw [hA.globalValue? hplace]
  | nowhere => rfl

theorem meets_getName (hA : h.Agree S k) (hs : S.held (.scope scope))
    (hv : h.getName scope name = .ok v) : S.Meets v := by
  have hplace := hA.has_place hs name
  unfold Heap.getName at hv
  split at hv
  · cases hv
  · cases hp : h.place scope name with
    | binding s =>
      rw [hp] at hv hplace
      dsimp only at hv
      split at hv
      · cases hv
        exact hA.meets_localValue? hplace ‹_›
      · cases hv
    | global o =>
      rw [hp] at hv hplace
      dsimp only at hv
      split at hv
      · cases hv
        exact hA.meets_globalValue? hplace ‹_›
      · cases hv
    | nowhere =>
      rw [hp] at hv
      cases hv

/-- A name is written at one place on both heaps, and that place is in sight. -/
theorem target (hA : h.Agree S k) (hs : S.held (.scope scope)) (name : String) :
    h.target scope name = k.target scope name := by
  unfold Heap.target
  rw [hA.place hs]

theorem has_target (hA : h.Agree S k) (hs : S.held (.scope scope)) {p : Heap.Place}
    (hp : h.target scope name = .ok p) : S.HasPlace p := by
  have hplace := hA.has_place hs name
  unfold Heap.target at hp
  split at hp
  · cases hp
  · split at hp
    · cases hp
    · cases hp
      exact hplace

theorem declares (hA : h.Agree S k) (hs : S.held (.scope scope)) (name : String) :
    h.declares scope name = k.declares scope name := by
  unfold Heap.declares
  rw [← hA.get_scope hs]
  cases hst : (h.scopes.get scope).storage with
  | global o => exact hA.has (S.shown_of_held (hA.held_global hs hst)) name
  | locals bindings => rfl

theorem visibleWithin (hA : h.Agree S k) (n : Nat) (names : List String)
    (hs : S.held (.scope scope)) :
    h.visibleWithin n scope names = k.visibleWithin n scope names := by
  induction n generalizing scope names with
  | zero => rfl
  | succ n ih =>
    unfold Heap.visibleWithin
    dsimp only
    rw [← hA.get_scope hs]
    cases hp : (h.scopes.get scope).parent with
    | none => rfl
    | some p => exact ih _ (hA.parent hs hp)

theorem visibleNames (hA : h.Agree S k) (hs : S.held (.scope scope)) :
    h.visibleNames scope = k.visibleNames scope :=
  hA.visibleWithin _ [] hs

end Heap.Agree

end Fermata
