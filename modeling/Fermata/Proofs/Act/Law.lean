import Fermata.Proofs.Act.Awaiting

/-!
# Laws of acts

What acts can do to a core is a short list: change objects, write a line to the console, make a
pending value, write a local binding, make a closure and link it, open an activation. A `Law` is a
relation between two cores, indexed by the live frames, that holds on to both sides of each of these.

* `Law.Keeps` says that an act, performed on two related cores, has the same result on both and
  leaves them related. It passes through `>>=` (`Keeps.bind`), so an act is looked at once, for all
  laws.
* A law that relates a core to itself alone is an invariant (`Invariant.toLaw`); a law between
  different cores is a simulation. Related cores agree on all but what waiting changes
  (`Core.apart`).
-/

namespace Fermata

namespace Core

/-- The core with other pending values, another watch and other records of suspensions. -/
def apart (c : Core) (P : Store .pending Pending) (w : Watch) (n : Nat) (l : Option Suspension) :
    Core :=
  ⟨c.heap.awaiting P,
    { c.engine with watch := w, suspensionCount := n, lastSuspension := l }⟩

/-- Take along what settles a pending value by itself. -/
def taken (c : Core) (p : PendingId) : Core := { c with heap := (c.heap.take p).2 }

/-- Put other objects. -/
def withObjects (c : Core) (S : Store .object Object) : Core :=
  { c with heap := { c.heap with objects := S } }

/-- Put other lines on the console. -/
def withConsole (c : Core) (lines : Array String) : Core :=
  { c with engine := { c.engine with console := lines } }

/-- Make a pending value. -/
def expecting (c : Core) (p : Pending) : Core :=
  { c with heap := (c.heap.newPending c.engine.region p).2 }

/-- Write a local binding. -/
def storing (c : Core) (scope : ScopeId) (name : String) (v : Value) : Core :=
  { c with heap := c.heap.setLocal scope name v }

/-- The closure that the next function literal becomes. -/
def nextClosure (c : Core) (fn : FunctionNode) (unit : CodeUnit) : Closure :=
  ⟨c.engine.nextSerial, fn, unit, c.heap.objects.next c.engine.region⟩

/-- Make the closure of a function literal. -/
def bearing (c : Core) (fn : FunctionNode) (unit : CodeUnit) : Core :=
  ⟨((c.heap.newObject c.engine.region .ofFunction).2.newClosure c.engine.region
      (c.nextClosure fn unit)).2,
    { c.engine with nextSerial := c.engine.nextSerial + 1 }⟩

/-- Make the closure of a function literal and associate it with a scope. -/
def linking (c : Core) (fn : FunctionNode) (unit : CodeUnit) (scope : ScopeId) : Core :=
  { c.bearing fn unit with
    engine := { (c.bearing fn unit).engine with
      links := (c.engine.links.associate c.engine.nextSerial
        ⟨c.heap.closures.next c.engine.region, scope, fn.id⟩).2 } }

/-- Make a scope below another one. -/
def under (c : Core) (parent : ScopeId) (owner : String) (bindings : List Binding) (this : Value) :
    Core :=
  { c with heap := (c.heap.newChild parent owner bindings this).2 }

end Core

/-- What an engine holds whether it evaluates or not. -/
def Engine.own (e : Engine) : List Cell :=
  [.object e.global, .scope e.root, .object e.arrayMethods, .native e.evalFunction]

/-- A failure, as opposed to a jump and to the fault of a jump that got lost. -/
def Abrupt.IsFailure : Abrupt → Prop
  | .thrown _ => True
  | .fault (.stack (.loopEscaped _)) | .fault (.stack .transferEscaped) => False
  | .fault _ => True
  | .ret _ | .leave _ | .next _ => False

/-- The frame of an activation of a closure in a scope. -/
def Closure.frame (k : Closure) (r : ScopeRecord) (scope : ScopeId) : Frame :=
  { name := r.name, scope, unit := k.unit, record := k.node.id }

/-- A relation between cores that every change an act can make keeps. -/
structure Law where
  /-- These cores belong together while these frames are live, innermost first. -/
  rel : List Frame → Core → Core → Prop
  apart {fs c d} : rel fs c d → ∃ P w n l, d = c.apart P w n l
  next {fs c d} : rel fs c d → ∀ region,
    d.heap.pendings.next region = c.heap.pendings.next region
  objects {fs c d} : rel fs c d → ∀ S, rel fs (c.withObjects S) (d.withObjects S)
  console {fs c d} : rel fs c d → ∀ lines, rel fs (c.withConsole lines) (d.withConsole lines)
  pending {fs c d} : rel fs c d → ∀ s,
    rel fs (c.expecting (.scheduled s)) (d.expecting (.scheduled s))
  binding {fs c d} : rel fs c d → ∀ scope name v,
    rel fs (c.storing scope name v) (d.storing scope name v)
  /-- A closure that could not be linked. -/
  birth {f fs c d node fn} : rel (f :: fs) c d → f.unit.function? node = some fn →
    rel (f :: fs) (c.bearing fn f.unit) (d.bearing fn f.unit)
  /-- A closure that is a child of the frame's record. -/
  link {f fs c d node fn r next} : rel (f :: fs) c d → f.unit.function? node = some fn →
    f.unit.record? f.record = some r → Act.nextChildAfter? r.children f.nextChild fn.id = some next →
    rel ({ f with nextChild := next } :: fs) (c.linking fn f.unit f.scope)
      (d.linking fn f.unit f.scope)
  /-- An activation with a scope of its own. -/
  capture {fs c d r defining bindings this} (id : ClosureId) : rel fs c d →
    fs.length < c.engine.settings.maxCallDepth →
    c.engine.links.scope? (c.heap.closures.get id).serial = some defining →
    (c.heap.closures.get id).unit.record? (c.heap.closures.get id).node.id = some r →
    r.requiresCapture = true → bindings.map Binding.name = r.bindings →
    rel ((c.heap.closures.get id).frame r (c.heap.scopes.next defining.region) :: fs)
      (c.under defining r.name bindings this) (d.under defining r.name bindings this)
  /-- An activation in the scope in which its closure was made. -/
  share {fs c d r defining} (id : ClosureId) : rel fs c d → fs.length < c.engine.settings.maxCallDepth →
    c.engine.links.scope? (c.heap.closures.get id).serial = some defining →
    (c.heap.closures.get id).unit.record? (c.heap.closures.get id).node.id = some r →
    r.requiresCapture = false →
    rel ((c.heap.closures.get id).frame r defining :: fs) c d
  /-- An activation of code that is evaluated where it is met. -/
  code {f fs c d source unit} : rel (f :: fs) c d →
    (f :: fs).length < c.engine.settings.maxCallDepth →
    CodeUnit.compile source (c.heap.visibleNames f.scope) = .ok unit →
    rel (Act.unitFrame unit f.scope :: f :: fs) c d
  mark {f fs c d} : rel (f :: fs) c d → ∀ span, rel ({ f with location := span } :: fs) c d
  close {f fs c d} : rel (f :: fs) c d → rel fs c d

namespace Law

variable {α β : Type} {L : Law} {fs pre err : List Frame} {f : Frame}

/-- Two results are the same and leave related cores: `post` are the frames after a value, `err`
those after a transfer of control, which is one of `R`. -/
inductive Agree (L : Law) (R : Abrupt → Prop) (post : α → List Frame) (err : List Frame) :
    EStateM.Result Abrupt Core α → EStateM.Result Abrupt Core α → Prop
  | ok {a c d} : L.rel (post a) c d → Agree L R post err (.ok a c) (.ok a d)
  | error {x c d} : R x → L.rel err c d → Agree L R post err (.error x c) (.error x d)

/-- The act has the same result on related cores and leaves them related. It does not jump. -/
def Keeps (L : Law) (pre : List Frame) (p : Act α) (post : α → List Frame) (err : List Frame) :
    Prop :=
  ∀ c d, L.rel pre c d → L.Agree Abrupt.IsFailure post err (p c) (p d)

/-- The act keeps the law and leaves the frames as they are. -/
abbrev Holds (L : Law) (fs : List Frame) (p : Act α) : Prop := L.Keeps fs p (fun _ => fs) fs

/-! ## Composition -/

theorem Keeps.pure {post : α → List Frame} (a : α) (hpre : post a = pre) :
    L.Keeps pre (Pure.pure a) post err := by
  intro c d h
  exact .ok (hpre ▸ h)

theorem Keeps.throw {post : α → List Frame} {x : Abrupt} (hx : x.IsFailure) :
    L.Keeps pre (throw x) post pre := by
  intro c d h
  exact .error hx h

theorem Agree.bind {R S : Abrupt → Prop} {p : Act α} {q : α → Act β} {mid : α → List Frame}
    {post : β → List Frame} {c d : Core} (hp : L.Agree R mid err (p c) (p d))
    (hR : ∀ x, R x → S x)
    (hq : ∀ a c d, L.rel (mid a) c d → L.Agree S post err (q a c) (q a d)) :
    L.Agree S post err ((p >>= q) c) ((p >>= q) d) := by
  simp only [Bind.bind, EStateM.bind]
  generalize p c = r at hp
  generalize p d = t at hp
  cases hp with
  | ok hrel => exact hq _ _ _ hrel
  | error hx hrel => exact .error (hR _ hx) hrel

theorem Keeps.bind {p : Act α} {q : α → Act β} {mid : α → List Frame} {post : β → List Frame}
    (hp : L.Keeps pre p mid err) (hq : ∀ a, L.Keeps (mid a) (q a) post err) :
    L.Keeps pre (p >>= q) post err :=
  fun c d h => (hp c d h).bind (fun _ hx => hx) hq

/-- A change of the frames that the law allows. -/
theorem Keeps.weaken {p : Act α} {mid : List Frame} {post : α → List Frame}
    (hp : L.Keeps mid p post err) (hpre : ∀ c d, L.rel pre c d → L.rel mid c d) :
    L.Keeps pre p post err :=
  fun c d h => hp c d (hpre c d h)

theorem Keeps.weakenErr {p : Act α} {mid : List Frame} {post : α → List Frame}
    (hp : L.Keeps pre p post mid) (herr : ∀ c d, L.rel mid c d → L.rel err c d) :
    L.Keeps pre p post err := by
  intro c d h
  have hpr := hp c d h
  generalize p c = r at hpr ⊢
  generalize p d = t at hpr ⊢
  cases hpr with
  | ok hrel => exact .ok hrel
  | error hx hrel => exact .error hx (herr _ _ hrel)

/-! ## Looking and changing -/

/-- What is read must not depend on pending values. -/
theorem Holds.reads {g : Heap → α} (hg : ∀ h P, g (h.awaiting P) = g h) :
    L.Holds fs (Act.reads g) := by
  intro c d h
  obtain ⟨P, w, n, l, rfl⟩ := L.apart h
  change L.Agree _ _ _ (.ok (g c.heap) c) (.ok (g (c.heap.awaiting P)) (c.apart P w n l))
  rw [hg]
  exact .ok h

/-- What is made must be objects alone, and the same whatever is pending. -/
theorem Holds.making {g : Heap → Nat → α × Heap} (hs : ∀ (h : Heap) r, h.Spares (g h r).2)
    (hg : ∀ h P r, g (h.awaiting P) r = ((g h r).1, (g h r).2.awaiting P)) :
    L.Holds fs (Act.making g) := by
  intro c d h
  obtain ⟨P, w, n, l, rfl⟩ := L.apart h
  have hc : Act.making g c = .ok (g c.heap c.engine.region).1
      (c.withObjects (g c.heap c.engine.region).2.objects) := by
    rw [Core.withObjects, ← hs c.heap]
    rfl
  have hd : Act.making g (c.apart P w n l) = .ok (g c.heap c.engine.region).1
      ((c.apart P w n l).withObjects (g c.heap c.engine.region).2.objects) := by
    have he := hs (c.heap.awaiting P) c.engine.region
    have hm : Act.making g (c.apart P w n l) = .ok (g (c.heap.awaiting P) c.engine.region).1
        { c.apart P w n l with heap := (g (c.heap.awaiting P) c.engine.region).2 } := rfl
    rw [hm, he, hg]
    rfl
  rw [hc, hd]
  exact .ok (L.objects h _)

theorem Holds.changes {g : Heap → Heap} (hs : ∀ h : Heap, h.Spares (g h))
    (hg : ∀ h P, g (h.awaiting P) = (g h).awaiting P) : L.Holds fs (Act.changes g) :=
  Holds.making (g := fun h _ => ((), g h)) (fun h _ => hs h) fun h P _ => by rw [hg]

/-- An act may look at the part of a core that related cores share. -/
theorem Agree.getting {R : Abrupt → Prop} {q : Core → Act α} {post : α → List Frame} {c d : Core}
    (h : L.rel pre c d) (hq : ∀ P w n l, q (c.apart P w n l) = q c)
    (hk : L.Agree R post err (q c c) (q c d)) :
    L.Agree R post err ((MonadState.get >>= q) c) ((MonadState.get >>= q) d) := by
  obtain ⟨P, w, n, l, rfl⟩ := L.apart h
  change L.Agree R post err (q c c) (q (c.apart P w n l) (c.apart P w n l))
  rw [hq]
  exact hk

/-- What follows may count on what was read. -/
theorem Agree.reads {R : Abrupt → Prop} {g : Heap → β} {q : β → Act α} {post : α → List Frame}
    {c d : Core} (h : L.rel pre c d) (hg : ∀ P, g (c.heap.awaiting P) = g c.heap)
    (hk : L.Agree R post err (q (g c.heap) c) (q (g c.heap) d)) :
    L.Agree R post err ((Act.reads g >>= q) c) ((Act.reads g >>= q) d) := by
  obtain ⟨P, w, n, l, rfl⟩ := L.apart h
  change L.Agree R post err (q (g c.heap) c) (q (g (c.heap.awaiting P)) (c.apart P w n l))
  rw [hg]
  exact hk

theorem Keeps.getting {q : Core → Act α} {post : α → List Frame}
    (hq : ∀ c P w n l, q (c.apart P w n l) = q c) (hk : ∀ c, L.Keeps pre (q c) post err) :
    L.Keeps pre (MonadState.get >>= q) post err :=
  fun c d h => Agree.getting h (hq c) (hk c c d h)

end Law

end Fermata
