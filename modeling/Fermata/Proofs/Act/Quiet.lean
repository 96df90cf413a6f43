import Fermata.Proofs.Act.Law

/-!
# Acts that open nothing

Properties, operators and native functions read the heap, change objects, write to the console or
make a pending value that settles by itself. None of them looks at a pending value, makes a closure
or a scope, or opens an activation, so each keeps every law with the frames as they are.

* `Law.getName`, `Law.setName`: names along a chain of scopes.
* `Law.getProperty`, `Law.setProperty`, `Law.binary`: properties and operators.
* `Law.run`: every native function.
-/

namespace Fermata

open Act

namespace Law

variable {α : Type} {L : Law} {fs : List Frame}

/-! ## Errors and names -/

theorem newObject (o : Object) : L.Holds fs (newObject o) :=
  Holds.making (fun h r => h.spares_newObject r o) fun h P r => h.newObject_awaiting P r o

theorem raise {post : α → List Frame} (kind message : String) :
    L.Keeps fs (raise kind message) post fs :=
  Keeps.bind (newObject _) fun _ => Keeps.throw trivial

theorem typeError {post : α → List Frame} (message : String) :
    L.Keeps fs (typeError message) post fs :=
  raise _ _

theorem scopeError {post : α → List Frame} (e : ScopeError) :
    L.Keeps fs (scopeError e) post fs := by
  cases e <;> exact raise _ _

theorem getName (scope : ScopeId) (name : String) : L.Holds fs (getName scope name) := by
  refine Keeps.bind (Holds.reads fun h P => h.getName_awaiting P scope name) fun r => ?_
  cases r with
  | ok v => exact Keeps.pure v rfl
  | error e => exact scopeError e

/-- A write to a local binding, or to the global object, or to nothing. -/
theorem setAt (p : Heap.Place) (name : String) (v : Value) :
    L.Holds fs (changes (·.setAt p name v)) := by
  cases p with
  | binding s =>
    intro c d h
    exact .ok (L.binding h s name v)
  | global o =>
    simp only [Heap.setAt]
    split
    · exact Holds.changes (fun h => h.spares_refl) fun _ _ => rfl
    · exact Holds.changes (fun h => h.spares_set o name v) fun h P => h.set_awaiting P o name v
  | nowhere => exact Holds.changes (fun h => h.spares_refl) fun _ _ => rfl

theorem setName (scope : ScopeId) (name : String) (v : Value) :
    L.Holds fs (setName scope name v) := by
  refine Keeps.bind (Holds.reads fun h P => h.target_awaiting P scope name) fun r => ?_
  cases r with
  | ok p => exact setAt p name v
  | error e => exact scopeError e

/-! ## Properties -/

theorem set (id : ObjectId) (key : String) (v : Value) : L.Holds fs (changes (·.set id key v)) :=
  Holds.changes (fun h => h.spares_set id key v) fun h P => h.set_awaiting P id key v

theorem prototypeOf (id : ClosureId) :
    L.Holds fs (making fun h region => h.prototypeOf region id) :=
  Holds.making (fun h r => h.spares_prototypeOf r id) fun h P r => h.prototypeOf_awaiting P r id

theorem objectProperty_apart (c : Core) (P w n l) (id : ObjectId) (key : String) :
    objectProperty (c.apart P w n l) id key = objectProperty c id key := by
  simp only [objectProperty, Core.apart, Heap.lookup?_awaiting, Heap.objects_awaiting]

theorem getProperty (target : Value) (key : String) : L.Holds fs (getProperty target key) := by
  unfold Act.getProperty
  cases target with
  | undefined | null =>
    exact Keeps.bind (Holds.reads fun h P => h.text_awaiting P _) fun _ => typeError _
  | string s => exact Keeps.pure _ rfl
  | object id =>
    refine Keeps.getting (fun c P w n l => ?_) fun c => Keeps.pure _ rfl
    rw [objectProperty_apart]
  | function id =>
    dsimp only
    split
    · exact Keeps.bind (prototypeOf id) fun _ => Keeps.pure _ rfl
    · refine Keeps.getting (fun c P w n l => ?_) fun c => Keeps.pure _ rfl
      simp only [closureProperty, Core.apart, Heap.closures_awaiting, Heap.lookup?_awaiting]
  | native id =>
    refine Keeps.getting (fun c P w n l => ?_) fun c => Keeps.pure _ rfl
    simp only [nativeProperty, Core.apart, Heap.natives_awaiting, Heap.lookup?_awaiting]
  | bool | number | pending => exact Keeps.pure _ rfl

theorem setProperty (target : Value) (key : String) (v : Value) :
    L.Holds fs (setProperty target key v) := by
  refine Keeps.bind (Holds.reads fun h P => h.holder?_awaiting P target) fun r => ?_
  cases r with
  | some id => exact set id key v
  | none =>
    dsimp only
    split
    · exact Keeps.bind (Holds.reads fun h P => h.text_awaiting P _) fun _ => typeError _
    · exact Keeps.pure _ rfl

theorem deleteProperty (target : Value) (key : String) :
    L.Holds fs (deleteProperty target key) := by
  refine Keeps.bind (Holds.reads fun h P => h.holder?_awaiting P target) fun r => ?_
  cases r with
  | some id =>
    refine Keeps.bind ?_ fun _ => Keeps.pure _ rfl
    exact Holds.changes (fun _ => rfl) fun h P => h.erase_awaiting P id key
  | none =>
    dsimp only
    split
    · exact Keeps.bind (Holds.reads fun h P => h.text_awaiting P _) fun _ => typeError _
    · exact Keeps.pure _ rfl

theorem lacks_awaiting (h : Heap) (P : Store .pending Pending) (target : Value) (key : String) :
    lacks (h.awaiting P) target key = lacks h target key := by
  simp only [lacks, Heap.holder?_awaiting, Heap.has_awaiting]

theorem readMember (target : Value) (key : String) (implicit : Bool) :
    L.Holds fs (readMember target key implicit) := by
  have hread : ∀ b : Bool, L.Holds fs
      (if b = true then Act.scopeError (.unbound key) else Act.getProperty target key) := by
    intro b
    split
    · exact scopeError _
    · exact getProperty target key
  unfold Act.readMember
  exact Keeps.bind (Holds.reads fun h P => lacks_awaiting h P target key) fun _ => hread _

theorem loopItems (kind : EachKind) (source : Value) : L.Holds fs (loopItems kind source) := by
  unfold Act.loopItems
  cases kind with
  | keys =>
    refine Holds.reads fun h P => ?_
    simp only [loopKeys, Heap.holder?_awaiting, Heap.enumerableKeys_awaiting]
  | values =>
    refine Keeps.bind (Holds.reads fun h P => rfl) fun r => ?_
    cases r with
    | some items => exact Keeps.pure _ rfl
    | none => exact Keeps.bind (Holds.reads fun h P => h.text_awaiting P _) fun _ => typeError _

/-! ## Operators -/

theorem unary (op : UnaryOp) (v : Value) : L.Holds fs (reads (unary · op v)) :=
  Holds.reads fun h P => by simp only [Act.unary, Heap.number_awaiting]

theorem arithmetic (g : Float → Float → Float) (a b : Value) :
    L.Holds fs (reads (arithmetic · g a b)) :=
  Holds.reads fun h P => by simp only [Act.arithmetic, Heap.number_awaiting]

theorem wordwise (g : Int32 → Int32 → Int32) (a b : Value) :
    L.Holds fs (reads (wordwise · g a b)) :=
  Holds.reads fun h P => by simp only [Act.wordwise, Heap.number_awaiting]

theorem hasProperty (key target : Value) : L.Holds fs (hasProperty key target) := by
  refine Keeps.getting (fun c P w n l => ?_) fun c => ?_
  · simp only [Core.apart, Heap.holder?_awaiting, Heap.has_awaiting, Heap.key_awaiting,
      Heap.text_awaiting]
  · dsimp only
    split
    · exact Keeps.pure _ rfl
    · exact typeError _

theorem isErrorOf_awaiting (h : Heap) (P : Store .pending Pending) (kind : String) (v : Value) :
    isErrorOf (h.awaiting P) kind v = isErrorOf h kind v := by
  simp only [isErrorOf, Heap.objects_awaiting, Heap.lookup?_awaiting, Heap.text_awaiting]

theorem instanceOf (v constructor : Value) : L.Holds fs (instanceOf v constructor) := by
  unfold Act.instanceOf
  cases constructor with
  | function k =>
    refine Keeps.bind (Holds.reads fun h P => h.holder?_awaiting P v) fun r => ?_
    cases r with
    | none => exact Keeps.pure _ rfl
    | some id =>
      exact Keeps.bind (prototypeOf k) fun _ =>
        Keeps.bind (Holds.reads fun h P => h.inherits_awaiting P id _) fun _ => Keeps.pure _ rfl
  | native n =>
    refine Keeps.getting (fun c P w n l => ?_) fun c => Keeps.pure _ rfl
    simp only [Core.apart, Heap.natives_awaiting, isErrorOf_awaiting]
  | _ => exact typeError _

theorem binary (op : BinaryOp) (a b : Value) : L.Holds fs (binary op a b) := by
  unfold Act.binary
  cases op with
  | add =>
    refine Holds.reads fun h P => ?_
    simp only [Act.add, Heap.primitive_awaiting, Heap.text_awaiting, Heap.number_awaiting]
  | sub | mul | div | mod | pow => exact arithmetic _ a b
  | eq | ne => exact Holds.reads fun h P => by rw [h.looseEquals_awaiting]
  | strictEq | strictNe => exact Keeps.pure _ rfl
  | lt | gt | lte | gte => exact Holds.reads fun h P => by rw [h.order?_awaiting]
  | bitAnd | bitOr | bitXor | shl | shr => exact wordwise _ a b
  | ushr =>
    refine Holds.reads fun h P => ?_
    simp only [Act.shiftUnsigned, Heap.number_awaiting]
  | hasKey => exact hasProperty a b
  | instanceOf => exact instanceOf a b

/-! ## Native functions -/

theorem newArray (values : List Value) : L.Holds fs (Builtin.newArray values) :=
  Keeps.bind (newObject _) fun _ => Keeps.pure _ rfl

theorem ownKeys (target : Value) : L.Holds fs (Builtin.ownKeys target) := by
  unfold Builtin.ownKeys
  split
  · exact newArray _
  · refine Keeps.bind (Holds.reads fun h P => h.holder?_awaiting P target) fun r => ?_
    cases r with
    | some id => exact Keeps.bind (Holds.reads fun _ _ => rfl) fun _ => newArray _
    | none =>
      dsimp only
      split
      · exact typeError _
      · exact newArray _

theorem stringify (v : Value) : L.Holds fs (Builtin.stringify v) := by
  unfold Builtin.stringify
  cases v with
  | undefined | function | native => exact Keeps.pure _ rfl
  | _ => exact Holds.reads fun h P => by rw [h.toJson_awaiting]

theorem parse (args : List Value) : L.Holds fs (Builtin.parse args) := by
  unfold Builtin.parse
  split
  · exact typeError _
  · refine Keeps.bind (Holds.reads fun h P => h.text_awaiting P _) fun text => ?_
    split
    · exact Holds.making (fun h r => h.spares_ofJson r _) fun h P r => h.ofJson_awaiting P r _
    · exact raise _ _

theorem log (args : List Value) : L.Holds fs (Builtin.log args) := by
  refine Keeps.bind (Holds.reads fun h P => ?_) fun line => ?_
  · have htext : (h.awaiting P).text = h.text := funext fun v => h.text_awaiting P v
    rw [htext]
  · refine Keeps.bind ?_ fun _ => Keeps.pure _ rfl
    intro c d h
    obtain ⟨P, w, n, l, rfl⟩ := L.apart h
    exact .ok (L.console h (c.engine.console.push line))

theorem newError (kind : String) (args : List Value) : L.Holds fs (Builtin.newError kind args) := by
  have hmade : ∀ message, L.Holds fs (do
      return Value.object (← Act.newObject (.ofError kind message))) := fun _ =>
    Keeps.bind (newObject _) fun _ => Keeps.pure _ rfl
  unfold Builtin.newError
  dsimp only
  split
  · exact Keeps.bind (Keeps.pure _ rfl) hmade
  · exact Keeps.bind (Holds.reads fun h P => h.text_awaiting P _) hmade

theorem thisArray (this : Value) (method : String) :
    L.Holds fs (Builtin.thisArray this method) := by
  refine Keeps.bind (Holds.reads fun h P => h.array?_awaiting P this) fun r => ?_
  cases r with
  | some id => exact Keeps.pure _ rfl
  | none => exact typeError _

theorem sliceOf (id : ObjectId) (args : List Value) : L.Holds fs (Builtin.sliceOf id args) := by
  refine Keeps.bind (Holds.reads fun _ _ => rfl) fun values => ?_
  refine Keeps.bind (Holds.reads fun h P => ?_) fun _ => newArray _
  simp only [Heap.number_awaiting]

theorem joinOf (id : ObjectId) (separator : Value) : L.Holds fs (Builtin.joinOf id separator) := by
  refine Keeps.bind (Holds.reads fun _ _ => rfl) fun values => Holds.reads fun h P => ?_
  simp only [Heap.text_awaiting]

/-- A value that settles by itself is made alike on both sides. -/
theorem expecting (s : Settlement) :
    L.Holds fs (making fun h region => h.newPending region (.scheduled s)) := by
  intro c d h
  obtain ⟨P, w, n, l, rfl⟩ := L.apart h
  have hmade : ∀ e : Core, making (fun h region => h.newPending region (.scheduled s)) e =
      .ok (e.heap.pendings.next e.engine.region) (e.expecting (.scheduled s)) := fun _ => rfl
  rw [hmade, hmade, L.next h]
  exact .ok (L.pending h s)

/-- **Native functions keep every law.** -/
theorem run (b : Builtin) (this : Value) (args : List Value) : L.Holds fs (b.run this args) := by
  unfold Builtin.run
  cases b with
  | mathFloor | mathCeil | mathAbs | mathRound | mathTrunc | mathSign | mathSqrt | mathPow | isNaN =>
    exact Holds.reads fun h P => by simp only [Heap.number_awaiting]
  | mathMax | mathMin =>
    refine Holds.reads fun h P => ?_
    have hnumber : (h.awaiting P).number = h.number := funext fun v => h.number_awaiting P v
    rw [hnumber]
  | objectKeys => exact ownKeys _
  | arrayIsArray => exact Holds.reads fun h P => by rw [h.array?_awaiting]
  | jsonStringify => exact stringify _
  | jsonParse => exact parse args
  | consoleLog => exact log args
  | stringOf =>
    refine Holds.reads fun h P => ?_
    cases args with
    | nil => rfl
    | cons v vs => simp only [Heap.text_awaiting]
  | numberOf =>
    refine Holds.reads fun h P => ?_
    cases args with
    | nil => rfl
    | cons v vs => simp only [Heap.number_awaiting]
  | booleanOf | eval => exact Keeps.pure _ rfl
  | parseInt =>
    refine Holds.reads fun h P => ?_
    simp only [Heap.number_awaiting, Heap.text_awaiting]
  | parseFloat => exact Holds.reads fun h P => by rw [h.text_awaiting]
  | delay => exact Keeps.bind (expecting _) fun _ => Keeps.pure _ rfl
  | makeError kind => exact newError kind args
  | push =>
    refine Keeps.bind (thisArray this _) fun id => Keeps.bind ?_ fun _ => Holds.reads fun _ _ => rfl
    exact Holds.changes (fun _ => rfl) fun _ _ => rfl
  | pop =>
    refine Keeps.bind (thisArray this _) fun id => Keeps.bind (Holds.reads fun _ _ => rfl) fun _ => ?_
    refine Keeps.bind ?_ fun _ => Keeps.pure _ rfl
    exact Holds.changes (fun _ => rfl) fun _ _ => rfl
  | join => exact Keeps.bind (thisArray this _) fun id => joinOf id _
  | indexOf =>
    exact Keeps.bind (thisArray this _) fun id =>
      Keeps.bind (Holds.reads fun _ _ => rfl) fun _ => Keeps.pure _ rfl
  | slice => exact Keeps.bind (thisArray this _) fun id => sliceOf id args

end Law

end Fermata
