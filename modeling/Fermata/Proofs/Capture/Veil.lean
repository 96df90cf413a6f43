import Fermata.Proofs.Act.Quiet
import Fermata.Machine.Step

/-!
# Acts that look at no scope

Most of what an evaluation does has nothing to do with scopes: properties, operators and native functions
read objects, and of a closure its node and the bag of its properties alone. `Core.veiled` puts other scopes,
other associations and other closures with the same nodes and bags into a core, and an act is blind
(`Act.Blind`) if it gives on such a core what it gives on the core itself. A blind act also changes nothing
of what it does not look at (`Act.Blind.veil_eq`).

* `Heap.text_veiled`, `Heap.ofJson_veiled`: reading and changing objects.
* `Act.Blind.bind`: blind acts one after the other.
* `Act.Blind.run`, `Act.Blind.pass`: native functions and the checkpoint are blind.
-/

namespace Fermata

/-- What most acts do not look at. -/
structure Veil where
  closures : Store .closure Closure
  scopes : Store .scope Scope
  links : Links
  evalFunction : NativeId

/-- The closures look like those of the heap from outside. -/
structure Veil.Mirrors (V : Veil) (h : Heap) : Prop where
  node : ∀ id, (V.closures.get id).node = (h.closures.get id).node
  object : ∀ id, (V.closures.get id).object = (h.closures.get id).object

namespace Heap

variable (h : Heap) (V : Veil)

/-- The heap with other closures and scopes. -/
def veiled : Heap := { h with closures := V.closures, scopes := V.scopes }

@[simp]
theorem objects_veiled : (h.veiled V).objects = h.objects := rfl

@[simp]
theorem closures_veiled : (h.veiled V).closures = V.closures := rfl

@[simp]
theorem natives_veiled : (h.veiled V).natives = h.natives := rfl

@[simp]
theorem scopes_veiled : (h.veiled V).scopes = V.scopes := rfl

@[simp]
theorem pendings_veiled : (h.veiled V).pendings = h.pendings := rfl

@[simp]
theorem numbers_veiled : (h.veiled V).numbers = h.numbers := rfl

@[simp]
theorem objectCount_veiled : (h.veiled V).objectCount = h.objectCount := rfl

/-! ## Prototype chains -/

@[simp]
theorem alongChain_veiled {α : Type} (f : Object → Option α) (fuel : Nat) (id : ObjectId) :
    (h.veiled V).alongChain f fuel id = h.alongChain f fuel id := by
  induction fuel generalizing id with
  | zero => rfl
  | succ fuel ih => simp only [alongChain, objects_veiled, ih]

@[simp]
theorem lookup?_veiled (id : ObjectId) (key : String) :
    (h.veiled V).lookup? id key = h.lookup? id key :=
  alongChain_veiled h V _ _ id

@[simp]
theorem has_veiled (id : ObjectId) (key : String) : (h.veiled V).has id key = h.has id key := by
  simp only [has, alongChain_veiled, objectCount_veiled]

theorem collectKeys_veiled (fuel : Nat) (id : ObjectId) (keys : List String) :
    (h.veiled V).collectKeys fuel id keys = h.collectKeys fuel id keys := by
  induction fuel generalizing id keys with
  | zero => rfl
  | succ fuel ih => simp only [collectKeys, objects_veiled, ih]

@[simp]
theorem enumerableKeys_veiled (id : ObjectId) :
    (h.veiled V).enumerableKeys id = h.enumerableKeys id := by
  simp only [enumerableKeys, collectKeys_veiled, objects_veiled, objectCount_veiled]

theorem inherits_go_veiled (proto : ObjectId) (fuel : Nat) (id : ObjectId) :
    inherits.go (h.veiled V) proto fuel id = inherits.go h proto fuel id := by
  induction fuel generalizing id with
  | zero => rfl
  | succ fuel ih => simp only [inherits.go, objects_veiled, ih]

@[simp]
theorem inherits_veiled (id proto : ObjectId) :
    (h.veiled V).inherits id proto = h.inherits id proto := by
  simp only [inherits, inherits_go_veiled, objects_veiled, objectCount_veiled]

@[simp]
theorem array?_veiled (v : Value) : (h.veiled V).array? v = h.array? v := rfl

@[simp]
theorem newObject_veiled (region : Nat) (o : Object) :
    (h.veiled V).newObject region o =
      ((h.newObject region o).1, (h.newObject region o).2.veiled V) := rfl

variable {h V}

theorem holder?_veiled (hV : V.Mirrors h) (v : Value) : (h.veiled V).holder? v = h.holder? v := by
  cases v with
  | function id => exact congrArg some (hV.object id)
  | _ => rfl

/-! ## Conversions -/

theorem textWithin_veiled (hV : V.Mirrors h) (fuel : Nat) (seen : List ObjectId) (v : Value) :
    (h.veiled V).textWithin fuel seen v = h.textWithin fuel seen v := by
  induction fuel generalizing seen v with
  | zero =>
    cases v <;> simp only [textWithin, closures_veiled, natives_veiled, numbers_veiled, Closure.name,
      hV.node]
  | succ fuel ih =>
    cases v <;> simp only [textWithin, closures_veiled, natives_veiled, numbers_veiled, objects_veiled,
      lookup?_veiled, Closure.name, hV.node, ih]

theorem text_veiled (hV : V.Mirrors h) (v : Value) : (h.veiled V).text v = h.text v := by
  unfold text
  rw [textFrom_congr fun n => textWithin_veiled hV n [] v]

theorem primitive_veiled (hV : V.Mirrors h) (v : Value) :
    (h.veiled V).primitive v = h.primitive v := by
  simp only [primitive, text_veiled hV]

theorem number_veiled (hV : V.Mirrors h) (v : Value) : (h.veiled V).number v = h.number v := by
  simp only [number, text_veiled hV]

theorem key_veiled (hV : V.Mirrors h) (v : Value) : (h.veiled V).key v = h.key v := by
  simp only [key, text_veiled hV]

theorem looseEquals_veiled (hV : V.Mirrors h) (a b : Value) :
    (h.veiled V).looseEquals a b = h.looseEquals a b := by
  simp only [looseEquals, primitive_veiled hV]

theorem order?_veiled (hV : V.Mirrors h) (a b : Value) :
    (h.veiled V).order? a b = h.order? a b := by
  simp only [order?, primitive_veiled hV, number_veiled hV]

theorem toJsonWithin_veiled (fuel : Nat) (path : List ObjectId) (v : Value) :
    (h.veiled V).toJsonWithin fuel path v = h.toJsonWithin fuel path v := by
  induction fuel generalizing path v with
  | zero => cases v <;> rfl
  | succ fuel ih =>
    have ih' : (h.veiled V).toJsonWithin fuel = h.toJsonWithin fuel := by
      funext path v
      exact ih path v
    cases v with
    | object id => simp only [toJsonWithin, objects_veiled, lookup?_veiled, ih']
    | _ => rfl

@[simp]
theorem toJson_veiled (v : Value) : (h.veiled V).toJson v = h.toJson v := by
  simp only [toJson, toJsonWithin_veiled, objectCount_veiled]

/-- A failure is the same for the host. -/
theorem ofThrown_veiled (hV : V.Mirrors h) (v : Value) :
    Failure.ofThrown (h.veiled V) v = Failure.ofThrown h v := by
  simp only [Failure.ofThrown, objects_veiled, lookup?_veiled, text_veiled hV, toJson_veiled]

/-! ## Changes to objects -/

theorem write_veiled (hV : V.Mirrors h) (id : ObjectId) (key : String) (v : Value)
    (enumerable : Bool) :
    (h.veiled V).write id key v enumerable = (h.write id key v enumerable).veiled V := by
  simp only [write, number_veiled hV, objects_veiled]
  rfl

theorem set_veiled (hV : V.Mirrors h) (id : ObjectId) (key : String) (v : Value) :
    (h.veiled V).set id key v = (h.set id key v).veiled V :=
  write_veiled hV id key v true

theorem prototypeOf_veiled (hV : V.Mirrors h) (region : Nat) (id : ClosureId) :
    (h.veiled V).prototypeOf region id =
      ((h.prototypeOf region id).1, (h.prototypeOf region id).2.veiled V) := by
  have hnew : V.Mirrors (h.newObject region (.empty none)).2 := ⟨hV.node, hV.object⟩
  simp only [prototypeOf, closures_veiled, hV.object, objects_veiled, newObject_veiled]
  split
  · rfl
  · simp only [hide, write_veiled hnew]

/-- Objects alone were changed. -/
theorem Spares.mirrors {k : Heap} (hk : h.Spares k) (hV : V.Mirrors h) : V.Mirrors k := by
  rw [hk]
  exact ⟨hV.node, hV.object⟩

mutual

theorem ofJson_veiled {h : Heap} (hV : V.Mirrors h) (region : Nat) (j : Json) :
    (h.veiled V).ofJson region j = ((h.ofJson region j).1, (h.ofJson region j).2.veiled V) := by
  match j with
  | .null | .bool _ | .number _ | .string _ => rfl
  | .array items => simp only [ofJson, ofJsonItems_veiled hV region items, newObject_veiled]
  | .object members =>
    simp only [ofJson, newObject_veiled,
      ofJsonMembers_veiled ((spares_newObject h region _).mirrors hV) region _ members]

theorem ofJsonItems_veiled {h : Heap} (hV : V.Mirrors h) (region : Nat) (js : List Json) :
    (h.veiled V).ofJsonItems region js =
      ((h.ofJsonItems region js).1, (h.ofJsonItems region js).2.veiled V) := by
  match js with
  | [] => rfl
  | j :: js =>
    simp only [ofJsonItems, ofJson_veiled hV region j,
      ofJsonItems_veiled ((spares_ofJson h region j).mirrors hV) region js]

theorem ofJsonMembers_veiled {h : Heap} (hV : V.Mirrors h) (region : Nat) (id : ObjectId)
    (ms : List (String × Json)) :
    (h.veiled V).ofJsonMembers region id ms = (h.ofJsonMembers region id ms).veiled V := by
  match ms with
  | [] => rfl
  | (k, j) :: ms =>
    have hmade := (spares_ofJson h region j).mirrors hV
    simp only [ofJsonMembers, ofJson_veiled hV region j, set_veiled hmade,
      ofJsonMembers_veiled ((spares_set _ id k _).mirrors hmade) region id ms]

end

end Heap

/-! ## Blind acts -/

namespace Core

/-- What most acts do not look at. -/
def veil (c : Core) : Veil := ⟨c.heap.closures, c.heap.scopes, c.engine.links, c.engine.evalFunction⟩

/-- The core with other closures, scopes and associations. -/
def veiled (c : Core) (V : Veil) : Core :=
  ⟨c.heap.veiled V, { c.engine with links := V.links, evalFunction := V.evalFunction }⟩

theorem veiled_veil (c : Core) : c.veiled c.veil = c := rfl

@[simp]
theorem heap_veiled (c : Core) (V : Veil) : (c.veiled V).heap = c.heap.veiled V := rfl

@[simp]
theorem veil_veiled (c : Core) (V : Veil) : (c.veiled V).veil = V := rfl

@[simp]
theorem veiled_veiled (c : Core) (V W : Veil) : (c.veiled V).veiled W = c.veiled W := rfl

end Core

/-- The same result, on the core with other closures, scopes and associations. -/
def Veil.over {α : Type} (V : Veil) : EStateM.Result Abrupt Core α → EStateM.Result Abrupt Core α
  | .ok a c => .ok a (c.veiled V)
  | .error x c => .error x (c.veiled V)

namespace Act

variable {α β : Type}

/-- The act looks at no scope and no association, and of a closure at what is seen from outside. -/
def Blind (p : Act α) : Prop :=
  ∀ (c : Core) (V : Veil), V.Mirrors c.heap → p (c.veiled V) = V.over (p c)

namespace Blind

/-- **What a blind act does not look at, it does not change.** -/
theorem veil_eq {p : Act α} (hp : Blind p) (c : Core) :
    (∀ a c', p c = .ok a c' → c'.veil = c.veil) ∧ ∀ x c', p c = .error x c' → c'.veil = c.veil := by
  have heq := hp c c.veil ⟨fun _ => rfl, fun _ => rfl⟩
  rw [c.veiled_veil] at heq
  refine ⟨fun a c' h => ?_, fun x c' h => ?_⟩
  · rw [h] at heq
    rw [(EStateM.Result.ok.inj heq).2, Core.veil_veiled]
  · rw [h] at heq
    rw [(EStateM.Result.error.inj heq).2, Core.veil_veiled]

theorem pure (a : α) : Blind (Pure.pure a : Act α) := fun _ _ _ => rfl

theorem throw (x : Abrupt) : Blind (throw x : Act α) := fun _ _ _ => rfl

theorem bind {p : Act α} {q : α → Act β} (hp : Blind p) (hq : ∀ a, Blind (q a)) :
    Blind (p >>= q) := by
  intro c V hV
  simp only [Bind.bind, EStateM.bind, hp c V hV]
  cases h : p c with
  | ok a c' =>
    have hclosures : c'.heap.closures = c.heap.closures := congrArg Veil.closures ((hp.veil_eq c).1 a c' h)
    refine hq a c' V ⟨fun id => ?_, fun id => ?_⟩
    · rw [hclosures]
      exact hV.node id
    · rw [hclosures]
      exact hV.object id
  | error x c' => rfl

theorem mapM {p : α → Act β} (hp : ∀ a, Blind (p a)) (as : List α) : Blind (as.mapM p) := by
  induction as with
  | nil => exact pure _
  | cons a as ih =>
    rw [List.mapM_cons]
    exact (hp a).bind fun _ => ih.bind fun _ => pure _

theorem reads {g : Heap → α} (hg : ∀ h V, Veil.Mirrors V h → g (h.veiled V) = g h) :
    Blind (Act.reads g) := by
  intro c V hV
  change EStateM.Result.ok (g (c.heap.veiled V)) (c.veiled V) = _
  rw [hg c.heap V hV]
  rfl

theorem making {g : Heap → Nat → α × Heap}
    (hg : ∀ h V r, Veil.Mirrors V h → g (h.veiled V) r = ((g h r).1, (g h r).2.veiled V)) :
    Blind (Act.making g) := by
  intro c V hV
  have hmade : ∀ d : Core, Act.making g d = .ok (g d.heap d.engine.region).1
      { d with heap := (g d.heap d.engine.region).2 } := fun _ => rfl
  have hregion : (c.veiled V).engine.region = c.engine.region := rfl
  rw [hmade, hmade, Core.heap_veiled, hregion, hg c.heap V _ hV]
  rfl

theorem changes {g : Heap → Heap} (hg : ∀ h V, Veil.Mirrors V h → g (h.veiled V) = (g h).veiled V) :
    Blind (Act.changes g) :=
  making (g := fun h _ => ((), g h)) fun h V _ hV => by rw [hg h V hV]

/-- An act may look at the part of a core that is not veiled. -/
theorem getting {q : Core → Act α} (hq : ∀ c V, Veil.Mirrors V c.heap → q (c.veiled V) = q c)
    (hk : ∀ c, Blind (q c)) : Blind (MonadState.get >>= q) := by
  intro c V hV
  change q (c.veiled V) (c.veiled V) = V.over (q c c)
  rw [hq c V hV]
  exact hk c c V hV

/-! ### Errors and properties -/

theorem newObject (o : Object) : Blind (newObject o) := making fun h V r _ => h.newObject_veiled V r o

theorem raise (kind message : String) : Blind (raise kind message : Act α) :=
  (newObject _).bind fun _ => throw _

theorem typeError (message : String) : Blind (typeError message : Act α) := raise _ _

theorem scopeError (e : ScopeError) : Blind (scopeError e : Act α) := by
  cases e <;> exact raise _ _

theorem set (id : ObjectId) (key : String) (v : Value) : Blind (Act.changes (·.set id key v)) :=
  changes fun _ _ hV => Heap.set_veiled hV id key v

theorem prototypeOf (id : ClosureId) :
    Blind (Act.making fun h region => h.prototypeOf region id) :=
  making fun _ _ r hV => Heap.prototypeOf_veiled hV r id

theorem getProperty (target : Value) (key : String) : Blind (getProperty target key) := by
  unfold Act.getProperty
  cases target with
  | undefined | null => exact (reads fun _ _ hV => Heap.text_veiled hV _).bind fun _ => typeError _
  | string s => exact pure _
  | object id =>
    refine getting (fun c V hV => ?_) fun c => pure _
    simp only [objectProperty, Core.veiled, Heap.lookup?_veiled, Heap.objects_veiled]
  | function id =>
    dsimp only
    split
    · exact (prototypeOf id).bind fun _ => pure _
    · refine getting (fun c V hV => ?_) fun c => pure _
      simp only [closureProperty, Core.veiled, Heap.closures_veiled, Heap.lookup?_veiled, Closure.name,
        hV.node, hV.object]
  | native id =>
    refine getting (fun c V hV => ?_) fun c => pure _
    simp only [nativeProperty, Core.veiled, Heap.natives_veiled, Heap.lookup?_veiled]
  | bool | number | pending => exact pure _

theorem setProperty (target : Value) (key : String) (v : Value) :
    Blind (setProperty target key v) := by
  refine (reads fun _ _ hV => Heap.holder?_veiled hV target).bind fun r => ?_
  cases r with
  | some id => exact set id key v
  | none =>
    dsimp only
    split
    · exact (reads fun _ _ hV => Heap.text_veiled hV _).bind fun _ => typeError _
    · exact pure _

theorem deleteProperty (target : Value) (key : String) : Blind (deleteProperty target key) := by
  refine (reads fun _ _ hV => Heap.holder?_veiled hV target).bind fun r => ?_
  cases r with
  | some id => exact (changes fun _ _ _ => rfl).bind fun _ => pure _
  | none =>
    dsimp only
    split
    · exact (reads fun _ _ hV => Heap.text_veiled hV _).bind fun _ => typeError _
    · exact pure _

theorem lacks (target : Value) (key : String) : Blind (Act.reads (lacks · target key)) :=
  reads fun _ _ hV => by simp only [Act.lacks, Heap.holder?_veiled hV, Heap.has_veiled]

theorem readMember (target : Value) (key : String) (implicit : Bool) :
    Blind (readMember target key implicit) := by
  unfold Act.readMember
  refine (lacks target key).bind fun b => ?_
  split
  · exact scopeError _
  · exact getProperty target key

theorem loopItems (kind : EachKind) (source : Value) : Blind (loopItems kind source) := by
  unfold Act.loopItems
  cases kind with
  | keys =>
    refine reads fun h V hV => ?_
    simp only [loopKeys, Heap.holder?_veiled hV, Heap.enumerableKeys_veiled]
  | values =>
    refine (reads fun _ _ _ => rfl).bind fun r => ?_
    cases r with
    | some items => exact pure _
    | none => exact (reads fun _ _ hV => Heap.text_veiled hV _).bind fun _ => typeError _

/-! ### Operators -/

theorem unary (op : UnaryOp) (v : Value) : Blind (Act.reads (unary · op v)) :=
  reads fun _ _ hV => by simp only [Act.unary, Heap.number_veiled hV]

theorem arithmetic (g : Float → Float → Float) (a b : Value) :
    Blind (Act.reads (arithmetic · g a b)) :=
  reads fun _ _ hV => by simp only [Act.arithmetic, Heap.number_veiled hV]

theorem wordwise (g : Int32 → Int32 → Int32) (a b : Value) : Blind (Act.reads (wordwise · g a b)) :=
  reads fun _ _ hV => by simp only [Act.wordwise, Heap.number_veiled hV]

theorem hasProperty (key target : Value) : Blind (hasProperty key target) := by
  refine getting (fun c V hV => ?_) fun c => ?_
  · simp only [Core.veiled, Heap.holder?_veiled hV, Heap.has_veiled, Heap.key_veiled hV,
      Heap.text_veiled hV]
  · dsimp only
    split
    · exact pure _
    · exact typeError _

theorem instanceOf (v constructor : Value) : Blind (instanceOf v constructor) := by
  unfold Act.instanceOf
  cases constructor with
  | function k =>
    refine (reads fun _ _ hV => Heap.holder?_veiled hV v).bind fun r => ?_
    cases r with
    | none => exact pure _
    | some id =>
      exact (prototypeOf k).bind fun _ => (reads fun h V _ => h.inherits_veiled V id _).bind fun _ =>
        pure _
  | native n =>
    refine getting (fun c V hV => ?_) fun c => pure _
    simp only [Core.veiled, Heap.natives_veiled, isErrorOf, Heap.objects_veiled, Heap.lookup?_veiled,
      Heap.text_veiled hV]
  | _ => exact typeError _

theorem binary (op : BinaryOp) (a b : Value) : Blind (binary op a b) := by
  unfold Act.binary
  cases op with
  | add =>
    refine reads fun h V hV => ?_
    simp only [Act.add, Heap.primitive_veiled hV, Heap.text_veiled hV, Heap.number_veiled hV]
  | sub | mul | div | mod | pow => exact arithmetic _ a b
  | eq | ne => exact reads fun _ _ hV => by rw [Heap.looseEquals_veiled hV]
  | strictEq | strictNe => exact pure _
  | lt | gt | lte | gte => exact reads fun _ _ hV => by rw [Heap.order?_veiled hV]
  | bitAnd | bitOr | bitXor | shl | shr => exact wordwise _ a b
  | ushr =>
    refine reads fun _ _ hV => ?_
    simp only [Act.shiftUnsigned, Heap.number_veiled hV]
  | hasKey => exact hasProperty a b
  | instanceOf => exact instanceOf a b

/-! ### Native functions -/

theorem newArray (values : List Value) : Blind (Builtin.newArray values) :=
  (newObject _).bind fun _ => pure _

theorem ownKeys (target : Value) : Blind (Builtin.ownKeys target) := by
  unfold Builtin.ownKeys
  split
  · exact newArray _
  · refine (reads fun _ _ hV => Heap.holder?_veiled hV target).bind fun r => ?_
    cases r with
    | some id => exact (reads fun _ _ _ => rfl).bind fun _ => newArray _
    | none =>
      dsimp only
      split
      · exact typeError _
      · exact newArray _

theorem stringify (v : Value) : Blind (Builtin.stringify v) := by
  unfold Builtin.stringify
  cases v with
  | undefined | function | native => exact pure _
  | _ => exact reads fun _ _ _ => by rw [Heap.toJson_veiled]

theorem parse (args : List Value) : Blind (Builtin.parse args) := by
  unfold Builtin.parse
  split
  · exact typeError _
  · refine (reads fun _ _ hV => Heap.text_veiled hV _).bind fun text => ?_
    split
    · exact making fun _ _ r hV => Heap.ofJson_veiled hV r _
    · exact raise _ _

theorem log (args : List Value) : Blind (Builtin.log args) := by
  refine (reads fun h V hV => ?_).bind fun line => ?_
  · have htext : (h.veiled V).text = h.text := funext fun v => Heap.text_veiled hV v
    rw [htext]
  · exact bind (fun _ _ _ => rfl) fun _ => pure _

theorem newError (kind : String) (args : List Value) : Blind (Builtin.newError kind args) := by
  have hmade : ∀ message, Blind (do
      return Value.object (← Act.newObject (.ofError kind message))) := fun _ =>
    (newObject _).bind fun _ => pure _
  unfold Builtin.newError
  dsimp only
  split
  · exact (pure _).bind hmade
  · exact (reads fun _ _ hV => Heap.text_veiled hV _).bind hmade

theorem thisArray (this : Value) (method : String) : Blind (Builtin.thisArray this method) := by
  refine (reads fun h V _ => h.array?_veiled V this).bind fun r => ?_
  cases r with
  | some id => exact pure _
  | none => exact typeError _

theorem sliceOf (id : ObjectId) (args : List Value) : Blind (Builtin.sliceOf id args) := by
  refine (reads fun _ _ _ => rfl).bind fun values => ?_
  refine (reads fun _ _ hV => ?_).bind fun _ => newArray _
  simp only [Heap.number_veiled hV]

theorem joinOf (id : ObjectId) (separator : Value) : Blind (Builtin.joinOf id separator) := by
  refine (reads fun _ _ _ => rfl).bind fun values => reads fun _ _ hV => ?_
  simp only [Heap.text_veiled hV]

/-- **Native functions are blind.** -/
theorem run (b : Builtin) (this : Value) (args : List Value) : Blind (b.run this args) := by
  unfold Builtin.run
  cases b with
  | mathFloor | mathCeil | mathAbs | mathRound | mathTrunc | mathSign | mathSqrt | mathPow | isNaN =>
    exact reads fun _ _ hV => by simp only [Heap.number_veiled hV]
  | mathMax | mathMin =>
    refine reads fun h V hV => ?_
    have hnumber : (h.veiled V).number = h.number := funext fun v => Heap.number_veiled hV v
    rw [hnumber]
  | objectKeys => exact ownKeys _
  | arrayIsArray => exact reads fun h V _ => by rw [h.array?_veiled]
  | jsonStringify => exact stringify _
  | jsonParse => exact parse args
  | consoleLog => exact log args
  | stringOf =>
    refine reads fun _ _ hV => ?_
    cases args with
    | nil => rfl
    | cons v vs => simp only [Heap.text_veiled hV]
  | numberOf =>
    refine reads fun _ _ hV => ?_
    cases args with
    | nil => rfl
    | cons v vs => simp only [Heap.number_veiled hV]
  | booleanOf | eval => exact pure _
  | parseInt =>
    refine reads fun _ _ hV => ?_
    simp only [Heap.number_veiled hV, Heap.text_veiled hV]
  | parseFloat => exact reads fun _ _ hV => by rw [Heap.text_veiled hV]
  | delay => exact (making fun _ _ _ _ => rfl).bind fun _ => pure _
  | makeError kind => exact newError kind args
  | push =>
    exact (thisArray this _).bind fun _ => (changes fun _ _ _ => rfl).bind fun _ =>
      reads fun _ _ _ => rfl
  | pop =>
    exact (thisArray this _).bind fun _ => (reads fun _ _ _ => rfl).bind fun _ =>
      (changes fun _ _ _ => rfl).bind fun _ => pure _
  | join => exact (thisArray this _).bind fun id => joinOf id _
  | indexOf => exact (thisArray this _).bind fun _ => (reads fun _ _ _ => rfl).bind fun _ => pure _
  | slice => exact (thisArray this _).bind fun id => sliceOf id args

/-! ### Calls and the checkpoint -/

theorem checkDepth (depth : Nat) : Blind (checkDepth depth) := by
  refine getting (fun c V _ => rfl) fun c => ?_
  dsimp only
  split
  · exact raise _ _
  · exact pure _

theorem describe (v : Value) : Blind (Act.reads (describe · v)) := by
  refine reads fun h V hV => ?_
  unfold Act.describe
  split
  · rfl
  · rfl
  · exact Heap.text_veiled hV _

/-- The values of an activation's bindings are found, or objects are made for them. -/
theorem firstValue (r : ScopeRecord) (id : ClosureId) (args : List Value) (name : String) :
    Blind (firstValue r id args name) := by
  unfold Act.firstValue
  split
  · exact pure _
  · split
    · exact (newObject _).bind fun _ => pure _
    · split <;> exact pure _

/-- **The checkpoint is blind.** -/
theorem pass (v : Value) : Blind (pass v) := by
  unfold Act.pass
  split
  · refine (reads fun _ _ _ => rfl).bind fun p => ?_
    split
    · exact pure _
    · exact throw _
    · refine bind (fun _ _ _ => rfl) fun t => ?_
      cases t with
      | double => exact throw _
      | _ => exact pure _
  · exact pure _

end Blind

end Act

end Fermata
