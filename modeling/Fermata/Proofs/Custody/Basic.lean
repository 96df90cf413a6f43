import Fermata.Proofs.Act.Ends
import Fermata.Proofs.Custody.Content

/-!
# Custody

An evaluation gets hold of cells in few ways: it reads them from cells that it holds already, or it
makes them. A `Custody` names the cells that may be held (`Custody.held`), says of each change that an
act can make to a core that it keeps the core in order (`Custody.good`), and which faults may occur.

* `Custody.Delivers`: an act leaves the core in order, lets go of no cell, and what it gives or throws
  is in custody. It passes through `>>=` (`Delivers.bind`).
* `Custody.lookup?`, `Custody.localValue?`: what is read from cells in custody is in custody.
-/

namespace Fermata

open Act

namespace Core

/-- Add an object. -/
def adding (c : Core) (o : Object) : Core :=
  c.withObjects (c.heap.objects.push c.engine.region o)

/-- Change an object. -/
def editing (c : Core) (id : ObjectId) (f : Object → Object) : Core :=
  c.withObjects (c.heap.objects.modify id f)

end Core

/-- Every cell of the first core is one of the second. -/
def Grows (held : Core → Cell → Prop) (c d : Core) : Prop := ∀ x, held c x → held d x

/-- The cells that an evaluation may hold, and the faults that may occur in it. -/
structure Custody where
  /-- The cell is in custody. -/
  held : Core → Cell → Prop
  /-- The core is in order while these frames are live, innermost first. -/
  good : List Frame → Core → Prop
  fault : Fault → Prop
  /-- Activations of this record of a unit may evaluate the literal with this number. -/
  literal : CodeUnit → Nat → Nat → Prop
  content {fs c x} : good fs c → held c x → ∀ y ∈ c.heap.heldBy c.engine.links x, held c y
  methods {fs c} : good fs c → held c (.object c.engine.arrayMethods)
  scope {f fs c} : good (f :: fs) c → held c (.scope f.scope)
  defining {fs c id s} : good fs c → held c (.closure id) →
    c.engine.links.scope? (c.heap.closures.get id).serial = some s → held c (.scope s)
  object {fs c o} : good fs c → o.Within (held c) →
    good fs (c.adding o) ∧ Grows held c (c.adding o) ∧
      held (c.adding o) (.object (c.heap.objects.next c.engine.region))
  edit {fs c f} : good fs c → (∀ o : Object, o.Within (held c) → (f o).Within (held c)) → ∀ id,
    good fs (c.editing id f) ∧ Grows held c (c.editing id f)
  console {fs c} : good fs c → ∀ lines,
    good fs (c.withConsole lines) ∧ Grows held c (c.withConsole lines)
  pending {fs c s} : good fs c → s.value.Within (held c) →
    good fs (c.expecting (.scheduled s)) ∧ Grows held c (c.expecting (.scheduled s)) ∧
      held (c.expecting (.scheduled s)) (.pending (c.heap.pendings.next c.engine.region))
  binding {fs c v} : good fs c → v.Within (held c) → ∀ scope name,
    good fs (c.storing scope name v) ∧ Grows held c (c.storing scope name v)
  /-- A closure that could not be linked. -/
  birth {f fs c node fn} : good (f :: fs) c → f.unit.function? node = some fn →
    good (f :: fs) (c.bearing fn f.unit) ∧ Grows held c (c.bearing fn f.unit)
  /-- A closure that is a child of the frame's record. -/
  link {f fs c node fn r next} : good (f :: fs) c → f.unit.function? node = some fn →
    f.unit.record? f.record = some r → nextChildAfter? r.children f.nextChild fn.id = some next →
    good ({ f with nextChild := next } :: fs) (c.linking fn f.unit f.scope) ∧
      Grows held c (c.linking fn f.unit f.scope) ∧
      held (c.linking fn f.unit f.scope) (.closure (c.heap.closures.next c.engine.region))
  /-- An activation with a scope of its own. -/
  capture {fs c id r defining bindings this} : good fs c → held c (.closure id) →
    c.engine.links.scope? (c.heap.closures.get id).serial = some defining →
    (c.heap.closures.get id).unit.record? (c.heap.closures.get id).node.id = some r →
    r.requiresCapture = true → bindings.map Binding.name = r.bindings →
    (∀ b ∈ bindings, b.value.Within (held c)) → this.Within (held c) →
    good ((c.heap.closures.get id).frame r (c.heap.scopes.next defining.region) :: fs)
      (c.under defining r.name bindings this) ∧
      Grows held c (c.under defining r.name bindings this)
  /-- An activation in the scope in which its closure was made. -/
  share {fs c id r defining} : good fs c → held c (.closure id) →
    c.engine.links.scope? (c.heap.closures.get id).serial = some defining →
    (c.heap.closures.get id).unit.record? (c.heap.closures.get id).node.id = some r →
    r.requiresCapture = false → good ((c.heap.closures.get id).frame r defining :: fs) c
  /-- An activation of code that is evaluated where it is met. -/
  code {f fs c source unit} : good (f :: fs) c →
    CodeUnit.compile source (c.heap.visibleNames f.scope) = .ok unit →
    good (unitFrame unit f.scope :: f :: fs) c
  mark {f fs c} : good (f :: fs) c → ∀ span, good ({ f with location := span } :: fs) c
  close {f fs c} : good (f :: fs) c → good fs c
  /-- Whether somebody watches, and how often somebody waited. -/
  apart {fs c} : good fs c → ∀ w n l,
    good fs (c.apart c.heap.pendings w n l) ∧ Grows held c (c.apart c.heap.pendings w n l)
  /-- An evaluation begins, or goes on. -/
  starting {fs c} : good fs c → ∀ below,
    good fs (c.starting below) ∧ Grows held c (c.starting below)
  /-- A value that settles by itself. -/
  settle {fs c p s} : good fs c → c.heap.pendings.get p = .scheduled s →
    good fs (c.settle p s) ∧ Grows held c (c.settle p s)
  /-- A value that can not settle by itself any more. -/
  take {fs c} : good fs c → ∀ p, good fs (c.taken p) ∧ Grows held c (c.taken p)
  /-- A literal in its place can be linked, unless faults of links may occur. -/
  linked {f fs c node} : good (f :: fs) c → literal f.unit f.record node →
    (∀ name id cause, fault (.link name id cause)) ∨
      ∃ fn r next, f.unit.function? node = some fn ∧ f.unit.record? f.record = some r ∧
        nextChildAfter? r.children f.nextChild fn.id = some next
  hoisted {f fs c r} : good (f :: fs) c → f.unit.record? f.record = some r →
    ∀ node ∈ r.hoisted, literal f.unit f.record node
  /-- A closure in custody has a defining scope, unless the fault of a missing one may occur. -/
  called {fs c id} : good fs c → held c (.closure id) →
    (∀ name, fault (.stack (.neverLinked name))) ∨
      ∃ s, c.engine.links.scope? (c.heap.closures.get id).serial = some s
  recorded {fs c id s} : good fs c → held c (.closure id) →
    c.engine.links.scope? (c.heap.closures.get id).serial = some s →
    (∀ name node cause, fault (.link name node cause)) ∨
      ∃ r, (c.heap.closures.get id).unit.record? (c.heap.closures.get id).node.id = some r
  unsupported (line : Nat) : fault (.unsupportedTry line)
  escaped (name : String) : fault (.stack (.loopEscaped name))
  transferred : fault (.stack .transferEscaped)
  stranded : fault (.stack .noFrame)

namespace Custody

variable {α β : Type} {K : Custody} {c d e : Core} {fs err : List Frame}

/-- What the value refers to is in custody. -/
abbrev Has (K : Custody) (c : Core) (v : Value) : Prop := v.Within (K.held c)

/-- What a transfer carries is in custody, and a fault is one that may occur. -/
def Bears (K : Custody) (c : Core) : Abrupt → Prop
  | .thrown v | .ret v => K.Has c v
  | .fault f => K.fault f
  | .leave _ | .next _ => True

/-- No cell is lost, and nobody waited. -/
structure Later (K : Custody) (c d : Core) : Prop where
  held : Grows K.held c d
  watch : d.engine.watch = c.engine.watch
  count : d.engine.suspensionCount = c.engine.suspensionCount
  last : d.engine.lastSuspension = c.engine.lastSuspension

namespace Later

theorem refl (c : Core) : K.Later c c := ⟨fun _ h => h, rfl, rfl, rfl⟩

theorem trans (h : K.Later c d) (h' : K.Later d e) : K.Later c e :=
  ⟨fun x hx => h'.held x (h.held x hx), h'.watch.trans h.watch, h'.count.trans h.count,
    h'.last.trans h.last⟩

theorem has {v : Value} (h : K.Later c d) (hv : K.Has c v) : K.Has d v := hv.mono h.held

theorem all {vs : List Value} (h : K.Later c d) (hvs : ∀ v ∈ vs, K.Has c v) :
    ∀ v ∈ vs, K.Has d v :=
  fun v hv => h.has (hvs v hv)

end Later

/-- The core is in order afterwards and no cell is lost. What is given has `Q`, and a transfer of
control bears what it may. `post` are the frames after a value, `err` those after a transfer. -/
inductive Delivers (K : Custody) (post : α → List Frame) (err : List Frame)
    (Q : Core → α → Prop) (c : Core) : EStateM.Result Abrupt Core α → Prop
  | ok {a d} : K.good (post a) d → K.Later c d → Q d a → Delivers K post err Q c (.ok a d)
  | error {x d} : K.good err d → K.Later c d → K.Bears d x → Delivers K post err Q c (.error x d)

/-- The act leaves the frames as they are. -/
abbrev Gives (K : Custody) (fs : List Frame) (Q : Core → α → Prop) (p : Act α) (c : Core) : Prop :=
  K.Delivers (fun _ => fs) fs Q c (p c)

/-! ## Composition -/

variable {Q : Core → α → Prop} {T : Core → β → Prop} {post : α → List Frame}

theorem Delivers.pure {a : α} (h : K.good (post a) c) (hQ : Q c a) :
    K.Delivers post err Q c ((Pure.pure a : Act α) c) :=
  .ok h (.refl c) hQ

theorem Delivers.throw {x : Abrupt} (h : K.good err c) (hx : K.Bears c x) :
    K.Delivers post err Q c ((throw x : Act α) c) :=
  .error h (.refl c) hx

theorem Delivers.since {r : EStateM.Result Abrupt Core α} (hcd : K.Later c d)
    (hr : K.Delivers post err Q d r) : K.Delivers post err Q c r := by
  cases hr with
  | ok h hl hQ => exact .ok h (hcd.trans hl) hQ
  | error h hl hx => exact .error h (hcd.trans hl) hx

theorem Delivers.bind {p : Act α} {q : α → Act β} {mid : α → List Frame} {post : β → List Frame}
    (hp : K.Delivers mid err Q c (p c))
    (hq : ∀ a d, K.good (mid a) d → K.Later c d → Q d a → K.Delivers post err T d (q a d)) :
    K.Delivers post err T c ((p >>= q) c) := by
  simp only [Bind.bind, EStateM.bind]
  generalize p c = r at hp
  cases hp with
  | ok h hl hQ => exact (hq _ _ h hl hQ).since hl
  | error h hl hx => exact .error h hl hx

theorem Delivers.weaken {r : EStateM.Result Abrupt Core α} {Q' : Core → α → Prop}
    {post' : α → List Frame} {err' : List Frame} (hr : K.Delivers post err Q c r)
    (hpost : ∀ a d, K.good (post a) d → Q d a → K.good (post' a) d ∧ Q' d a)
    (herr : ∀ d, K.good err d → K.good err' d) : K.Delivers post' err' Q' c r := by
  cases hr with
  | ok h hl hQ =>
    obtain ⟨h', hQ'⟩ := hpost _ _ h hQ
    exact .ok h' hl hQ'
  | error h hl hx => exact .error (herr _ h) hl hx

theorem Delivers.reading {g : Heap → α} {q : α → Act β} {post : β → List Frame}
    (hq : K.Delivers post err T c (q (g c.heap) c)) :
    K.Delivers post err T c ((Act.reads g >>= q) c) :=
  hq

theorem Delivers.getting {q : Core → Act β} {post : β → List Frame}
    (hq : K.Delivers post err T c (q c c)) :
    K.Delivers post err T c ((MonadState.get >>= q) c) :=
  hq

/-! ## Reading cells in custody -/

theorem within_get {id : ObjectId} (h : K.good fs c) (hid : K.held c (.object id)) :
    (c.heap.objects.get id).Within (K.held c) :=
  Object.within_iff.mpr (K.content h hid)

theorem within_alongChain {f : Object → Option Value}
    (hf : ∀ o v, o.Within (K.held c) → f o = some v → K.Has c v) (h : K.good fs c) (fuel : Nat)
    {id : ObjectId} {v : Value} (hid : K.held c (.object id))
    (hv : c.heap.alongChain f fuel id = some v) : K.Has c v := by
  induction fuel generalizing id with
  | zero => cases hv
  | succ fuel ih =>
    have ho := within_get h hid
    unfold Heap.alongChain at hv
    dsimp only at hv
    split at hv
    · cases hv
      exact hf _ _ ho ‹_›
    · split at hv
      · exact ih (ho.proto _ ‹_›) hv
      · cases hv

theorem lookup? {id : ObjectId} {key : String} {v : Value} (h : K.good fs c)
    (hid : K.held c (.object id)) (hv : c.heap.lookup? id key = some v) : K.Has c v :=
  within_alongChain (fun _ _ ho => ho.find?) h _ hid hv

/-- The object that carries the properties of a value. -/
theorem holder? {v : Value} {id : ObjectId} (h : K.good fs c) (hv : K.Has c v)
    (hid : c.heap.holder? v = some id) : K.held c (.object id) := by
  cases v with
  | object o =>
    cases hid
    exact (Value.within_object _).mp hv
  | function f =>
    cases hid
    exact K.content h ((Value.within_function f).mp hv) _ List.mem_cons_self
  | native n =>
    cases hid
    exact K.content h ((Value.within_native n).mp hv) _ List.mem_cons_self
  | _ => cases hid

theorem scope_held {id : ScopeId} (h : K.good fs c) (hid : K.held c (.scope id)) :
    (∀ p, (c.heap.scopes.get id).parent = some p → K.held c (.scope p)) ∧
      ∀ v ∈ (c.heap.scopes.get id).held, K.Has c v := by
  have hcontent := K.content h hid
  simp only [Heap.heldBy, List.mem_append, Option.mem_toList, Option.map_eq_some_iff] at hcontent
  exact ⟨fun p hp => hcontent _ (.inl ⟨p, hp, rfl⟩),
    Cell.forall_ofValues.mp fun x hx => hcontent x (.inr hx)⟩

theorem thisValue {id : ScopeId} (h : K.good fs c) (hid : K.held c (.scope id)) :
    K.Has c (c.heap.scopes.get id).thisValue :=
  (scope_held h hid).2 _ List.mem_cons_self

/-- The place of a name is in custody. -/
def HasPlace (K : Custody) (c : Core) : Heap.Place → Prop
  | .binding s => K.held c (.scope s)
  | .global o => K.held c (.object o)
  | .nowhere => True

/-- The end of a walk along a chain of scopes in custody is in custody. -/
theorem placeWithin (h : K.good fs c) (name : String) (fuel : Nat) {id : ScopeId}
    (hid : K.held c (.scope id)) : K.HasPlace c (c.heap.placeWithin name fuel id) := by
  induction fuel generalizing id with
  | zero => exact trivial
  | succ fuel ih =>
    obtain ⟨hparent, hvalues⟩ := scope_held h hid
    unfold Heap.placeWithin
    dsimp only
    cases hs : (c.heap.scopes.get id).storage with
    | global o =>
      refine (Value.within_object o).mp (hvalues _ ?_)
      simp [Scope.held, hs]
    | locals bindings =>
      dsimp only
      split
      · exact hid
      · cases hp : (c.heap.scopes.get id).parent with
        | none => exact trivial
        | some p => exact ih (hparent p hp)

theorem localValue? {id : ScopeId} {name : String} {v : Value} (h : K.good fs c)
    (hid : K.held c (.scope id))
    (hv : (c.heap.scopes.get id).storage.localValue? name = some v) : K.Has c v := by
  refine (scope_held h hid).2 v ?_
  unfold Storage.localValue? at hv
  cases hs : (c.heap.scopes.get id).storage with
  | global o =>
    rw [hs] at hv
    cases hv
  | locals bindings =>
    rw [hs] at hv
    obtain ⟨b, hb, rfl⟩ := Option.map_eq_some_iff.mp hv
    simp only [Scope.held, hs]
    exact List.mem_cons_of_mem _ (List.mem_map_of_mem (List.mem_of_find?_eq_some hb))

theorem globalValue? {o : ObjectId} {name : String} {v : Value} (h : K.good fs c)
    (ho : K.held c (.object o)) (hv : c.heap.globalValue? o name = some v) : K.Has c v := by
  unfold Heap.globalValue? at hv
  split at hv
  · cases hv
    exact (Value.within_object o).mpr ho
  · split at hv
    · cases hv
      exact Value.within_undefined
    · split at hv
      · cases hv
        exact Value.within_number _
      · exact lookup? h ho hv

/-- A name that is read from a scope in custody has a value in custody. -/
theorem heap_getName {id : ScopeId} {name : String} {v : Value} (h : K.good fs c)
    (hid : K.held c (.scope id)) (hv : c.heap.getName id name = .ok v) : K.Has c v := by
  have hplace := placeWithin h name (Heap.chainBound id) hid
  unfold Heap.getName Heap.place at hv
  split at hv
  · cases hv
  · cases hp : c.heap.placeWithin name (Heap.chainBound id) id with
    | binding s =>
      rw [hp] at hplace hv
      dsimp only at hv
      split at hv
      · cases hv
        exact localValue? h hplace ‹_›
      · cases hv
    | global o =>
      rw [hp] at hplace hv
      dsimp only at hv
      split at hv
      · cases hv
        exact globalValue? h hplace ‹_›
      · cases hv
    | nowhere =>
      rw [hp] at hv
      cases hv

end Custody

end Fermata
