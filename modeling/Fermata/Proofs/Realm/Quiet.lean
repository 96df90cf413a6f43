import Fermata.Builtin.Basic
import Fermata.Proofs.Realm.Basic

/-!
# Acts that open nothing, on two cores

Names, properties, operators and native functions read what is in sight, so they do the same on two cores
that an evaluation cannot tell apart. What they read may be met; what operators give may be held. The one
native function that puts values which it only met into a new object is the one that copies a part of an
array (`Builtin.copies`).

* `Realm.getName`, `Realm.setName`: names along a chain of scopes.
* `Realm.getProperty`, `Realm.setProperty`, `Realm.binary`: properties and operators.
* `Realm.run`: every native function.
-/

namespace Fermata

/-- What a native function copies from the array that it is called on into a new one. -/
def Builtin.copies (b : Builtin) (h : Heap) (this : Value) : List Value :=
  if b = .slice then ((h.array? this).map fun id => (h.objects.get id).values).getD [] else []

/-- What a loop over a value copies from it. -/
def EachKind.copies (kind : EachKind) (h : Heap) (v : Value) : List Value :=
  match kind with
  | .keys => []
  | .values => (Act.loopValues? h v).getD []

open Act

namespace Realm

variable {α : Type} {K : Realm} {c d : Core} {Q : Core → α → Prop} {v w : Value}

/-! ## Making and changing objects -/

/-- The cores are related on these heaps, and the first one lost nothing from sight. -/
def Stays (K : Realm) (c d : Core) (k l : Heap) : Prop :=
  K.rel { c with heap := k } { d with heap := l } ∧ K.Later c { c with heap := k }

theorem Stays.refl (h : K.rel c d) : K.Stays c d c.heap d.heap := ⟨h, .refl c⟩

theorem Stays.trans {k l k' l' : Heap} (h : K.Stays c d k l)
    (h' : K.Stays { c with heap := k } { d with heap := l } k' l') : K.Stays c d k' l' :=
  ⟨h'.1, h.2.trans h'.2⟩

theorem stays_newObject {o : Object} (h : K.rel c d) (ho : o.Stores (K.stored c))
    (hp : ∀ p, o.proto = some p → (K.sight c).held (.object p)) :
    K.Stays c d (c.heap.newObject c.engine.region o).2 (d.heap.newObject d.engine.region o).2 ∧
      (c.heap.newObject c.engine.region o).1 = (d.heap.newObject d.engine.region o).1 ∧
      (K.sight { c with heap := (c.heap.newObject c.engine.region o).2 }).held
        (.object (c.heap.newObject c.engine.region o).1) := by
  obtain ⟨hrel, hwidens, hid⟩ := K.object h ho hp
  refine ⟨⟨hrel, hwidens, rfl⟩, ?_, hid⟩
  change c.heap.objects.next c.engine.region = d.heap.objects.next d.engine.region
  rw [← K.region h, K.nextObject h]

theorem stays_write {id : ObjectId} (h : K.rel c d) (hid : (K.sight c).held (.object id))
    (hv : K.Puts c v) (key : String) (enumerable : Bool) :
    K.Stays c d (c.heap.write id key v enumerable) (d.heap.write id key v enumerable) := by
  have hA := K.agree h
  unfold Heap.write
  rw [← hA.get_object ((K.sight c).shown_of_held hid), ← hA.number (K.meets_of_puts hv)]
  dsimp only
  generalize (if key = "length" ∧ (c.heap.objects.get id).isArray = true then
    (Number.toUInt32 (c.heap.number v)).toNat else 0) = n
  obtain ⟨hrel, hwidens⟩ := K.edit (f := fun o => o.put key v n enumerable) h hid
    (fun P hP o ho => ho.put (hv.mono hP)) fun o => Object.proto_put o key v n enumerable
  exact ⟨hrel, hwidens, rfl⟩

theorem newObject {o : Object} (h : K.rel c d) (ho : o.Stores (K.stored c))
    (hp : ∀ p, o.proto = some p → (K.sight c).held (.object p)) :
    K.Gives (fun e id => (K.sight e).held (.object id)) (newObject o) c d := by
  obtain ⟨hstays, heq, hid⟩ := stays_newObject h ho hp
  exact Gives.making hstays.1 hstays.2 rfl heq.symm hid

/-- The value of a new object without a prototype. -/
theorem newValue {o : Object} (h : K.rel c d) (ho : o.Stores (K.stored c)) (hp : o.proto = none) :
    K.GivesHeld (do return .object (← Act.newObject o)) c d := by
  refine (newObject h ho fun p hp' => ?_).bind fun id _ _ he _ hid => .pure he ?_
  · rw [hp] at hp'
    cases hp'
  · exact (Value.within_object id).mpr hid

theorem raise (h : K.rel c d) (kind message : String) : K.Gives Q (raise kind message) c d :=
  (newObject h (Object.stores_ofError kind message) nofun).bind fun id _ _ he _ hid =>
    .throw he (K.meets_of_has ((Value.within_object id).mpr hid))

theorem typeError (h : K.rel c d) (message : String) : K.Gives Q (typeError message) c d :=
  raise h _ _

theorem scopeError (h : K.rel c d) (e : ScopeError) : K.Gives Q (scopeError e) c d := by
  cases e <;> exact raise h _ _

/-- Both heaps are changed alike. -/
theorem changes {g : Heap → Heap} (hstays : K.Stays c d (g c.heap) (g d.heap)) :
    K.Runs (changes g) c d :=
  .ok hstays.1 hstays.2 trivial

theorem set {id : ObjectId} (h : K.rel c d) (hid : (K.sight c).held (.object id))
    (hv : K.Puts c v) (key : String) : K.Runs (Act.changes (·.set id key v)) c d :=
  changes (stays_write h hid hv key true)

/-- An object is changed in a way that does not depend on the heap. -/
theorem edits {id : ObjectId} {f : Object → Object} (h : K.rel c d)
    (hid : (K.sight c).held (.object id))
    (hf : ∀ P : Cell → Prop, (∀ x, K.stored c x → P x) → ∀ o : Object, o.Stores P → (f o).Stores P)
    (hproto : ∀ o : Object, (f o).proto = o.proto) :
    K.Runs (Act.changes fun h => { h with objects := h.objects.modify id f }) c d := by
  obtain ⟨hrel, hwidens⟩ := K.edit h hid hf hproto
  exact changes ⟨hrel, hwidens, rfl⟩

/-! ## Names -/

theorem getName {scope : ScopeId} (h : K.rel c d) (hs : (K.sight c).held (.scope scope))
    (name : String) : K.GivesMet (getName scope name) c d := by
  refine Gives.reading ((K.agree h).getName hs name) ?_
  cases hv : c.heap.getName scope name with
  | ok v => exact .pure h ((K.agree h).meets_getName hs hv)
  | error e => exact scopeError h e

/-- A write to a local binding, or to the global object, or to nothing. -/
theorem stays_setAt {p : Heap.Place} (h : K.rel c d) (hp : (K.sight c).HasPlace p)
    (hv : K.Puts c v) (name : String) :
    K.Stays c d (c.heap.setAt p name v) (d.heap.setAt p name v) := by
  cases p with
  | binding s =>
    obtain ⟨hrel, hwidens⟩ := K.binding h hp hv name
    exact ⟨hrel, hwidens, rfl⟩
  | global o =>
    unfold Heap.setAt
    dsimp only
    split
    · exact .refl h
    · exact stays_write h hp hv name true
  | nowhere => exact .refl h

theorem setName {scope : ScopeId} (h : K.rel c d) (hs : (K.sight c).held (.scope scope))
    (hv : K.Puts c v) (name : String) : K.Runs (setName scope name v) c d := by
  refine Gives.reading ((K.agree h).target hs name) ?_
  cases hp : c.heap.target scope name with
  | ok p => exact changes (stays_setAt h ((K.agree h).has_target hs hp) hv name)
  | error e => exact scopeError h e

/-! ## Properties -/

/-- What making a prototype does to a heap, if there is none yet. -/
theorem prototypeOf_cases (h : Heap) (region : Nat) (id : ClosureId) :
    (∃ p, (h.objects.get (h.closures.get id).object).find? Heap.prototypeKey = some (.object p) ∧
      h.prototypeOf region id = (p, h)) ∨
    ((∀ p, (h.objects.get (h.closures.get id).object).find? Heap.prototypeKey ≠ some (.object p)) ∧
      h.prototypeOf region id = ((h.newObject region (.empty none)).1,
        (h.newObject region (.empty none)).2.hide (h.closures.get id).object Heap.prototypeKey
          (.object (h.newObject region (.empty none)).1))) := by
  unfold Heap.prototypeOf
  dsimp only
  split
  next p hp => exact .inl ⟨p, hp, rfl⟩
  next hnone => exact .inr ⟨hnone, rfl⟩

theorem prototypeOf {id : ClosureId} (h : K.rel c d) (hid : (K.sight c).held (.closure id)) :
    K.Gives (fun e p => (K.sight e).held (.object p))
      (making fun h region => h.prototypeOf region id) c d := by
  have hA := K.agree h
  have hbag := hA.closureBag hid
  have hbags : (c.heap.objects.get (c.heap.closures.get id).object) =
      d.heap.objects.get (d.heap.closures.get id).object := by
    rw [← hA.get_closure hid, ← hA.get_object ((K.sight c).shown_of_held hbag)]
  rcases prototypeOf_cases c.heap c.engine.region id with ⟨p, hp, hc⟩ | ⟨hnone, hc⟩
  · rcases prototypeOf_cases d.heap d.engine.region id with ⟨q, hq, hd⟩ | ⟨hnone, -⟩
    · rw [← hbags, hp] at hq
      cases hq
      refine Gives.making (a := p) ?_ ?_ (by rw [hc]) (by rw [hd]) ?_
      · rw [hc, hd]
        exact h
      · rw [hc]
        exact .refl c
      · rw [hc]
        have hmet := (hA.stores ((K.sight c).shown_of_held hbag)).find? hp
        exact Sight.object_of_meets hmet
    · exact absurd (hbags ▸ hp) (hnone p)
  · rcases prototypeOf_cases d.heap d.engine.region id with ⟨q, hq, -⟩ | ⟨-, hd⟩
    · exact absurd (hbags ▸ hq) (hnone q)
    · obtain ⟨hnew, heq, hp⟩ := stays_newObject h (Object.stores_empty none) nofun
      have hset := stays_write hnew.1 (hnew.2.held _ hbag)
        (K.puts_of_has ((Value.within_object _).mpr hp)) Heap.prototypeKey false
      rw [← hA.get_closure hid] at hd
      refine Gives.making (a := (c.heap.newObject c.engine.region (.empty none)).1) ?_ ?_
        (by rw [hc]) (by rw [hd, heq]) ?_
      · rw [hc, hd, ← heq]
        exact hset.1
      · rw [hc]
        exact (hnew.trans hset).2
      · rw [hc]
        exact hset.2.held _ hp

theorem objectProperty {id : ObjectId} (h : K.rel c d) (hid : (K.sight c).held (.object id))
    (key : String) : Act.objectProperty c id key = Act.objectProperty d id key ∧
      K.Meets c (Act.objectProperty c id key) := by
  have hA := K.agree h
  have hshown := (K.sight c).shown_of_held hid
  have hmethods : d.engine.arrayMethods = c.engine.arrayMethods := by rw [(K.engine h).rest]
  unfold Act.objectProperty
  rw [← hA.lookup? hshown, ← hA.get_object hshown, hmethods, ← hA.lookup? (K.methods h)]
  refine ⟨rfl, ?_⟩
  split
  · exact hA.meets_lookup? hshown ‹_›
  · split
    · exact Value.within_getD fun v hv => hA.meets_lookup? (K.methods h) hv
    · exact Value.within_undefined

theorem closureProperty {id : ClosureId} (h : K.rel c d) (hid : (K.sight c).held (.closure id))
    (key : String) : Act.closureProperty c.heap id key = Act.closureProperty d.heap id key ∧
      K.Meets c (Act.closureProperty c.heap id key) := by
  have hA := K.agree h
  have hbag := (K.sight c).shown_of_held (hA.closureBag hid)
  unfold Act.closureProperty
  rw [← hA.get_closure hid]
  dsimp only
  rw [← hA.lookup? hbag]
  refine ⟨rfl, ?_⟩
  split
  · exact hA.meets_lookup? hbag ‹_›
  · split
    · exact Value.within_string _
    · split
      · exact Value.within_ofNat _
      · exact Value.within_undefined

theorem nativeProperty {id : NativeId} (h : K.rel c d) (hid : (K.sight c).held (.native id))
    (key : String) : Act.nativeProperty c.heap id key = Act.nativeProperty d.heap id key ∧
      K.Meets c (Act.nativeProperty c.heap id key) := by
  have hA := K.agree h
  have hbag := (K.sight c).shown_of_held (hA.nativeBag hid)
  unfold Act.nativeProperty
  rw [← hA.get_native hid]
  dsimp only
  rw [← hA.lookup? hbag]
  refine ⟨rfl, ?_⟩
  split
  · exact hA.meets_lookup? hbag ‹_›
  · split
    · exact Value.within_string _
    · exact Value.within_undefined

theorem stringProperty (s key : String) : K.Meets c (Act.stringProperty s key) := by
  unfold Act.stringProperty
  split
  · exact Value.within_ofNat _
  · split
    · unfold charAt
      split
      · exact Value.within_string _
      · exact Value.within_undefined
    · exact Value.within_undefined

/-- What both cores have the act give. -/
theorem Gives.getting {g : Core → α} (h : K.rel c d) (hg : g c = g d) (hQ : Q c (g c)) :
    K.Gives Q (do return g (← get)) c d := by
  have hd : (do return g (← get) : Act α) d = .ok (g c) d := by
    rw [hg]
    rfl
  unfold Gives
  rw [hd]
  exact .ok h (.refl c) hQ

theorem getProperty (h : K.rel c d) (hv : K.Meets c v) (key : String) :
    K.GivesMet (getProperty v key) c d := by
  unfold Act.getProperty
  cases v with
  | undefined | null => exact Gives.reading ((K.agree h).text hv) (typeError h _)
  | string s => exact .pure h (stringProperty s key)
  | object id =>
    obtain ⟨heq, hmet⟩ := objectProperty h (Sight.object_of_meets hv) key
    exact Gives.getting (g := fun c => Act.objectProperty c id key) h heq hmet
  | function id =>
    have hid := Sight.closure_of_meets hv
    dsimp only
    split
    · exact (prototypeOf h hid).bind fun p _ _ he _ hp =>
        .pure he (K.meets_of_has ((Value.within_object p).mpr hp))
    · obtain ⟨heq, hmet⟩ := closureProperty h hid key
      exact Gives.getting (g := fun c => Act.closureProperty c.heap id key) h heq hmet
  | native id =>
    obtain ⟨heq, hmet⟩ := nativeProperty h (Sight.native_of_meets hv) key
    exact Gives.getting (g := fun c => Act.nativeProperty c.heap id key) h heq hmet
  | bool | number | pending => exact .pure h Value.within_undefined

theorem setProperty (h : K.rel c d) (hv : K.Meets c v) (hw : K.Puts c w) (key : String) :
    K.Runs (setProperty v key w) c d := by
  refine Gives.reading ((K.agree h).holder? hv) ?_
  cases hid : c.heap.holder? v with
  | some id => exact set h ((K.agree h).held_of_holder? hv hid) hw key
  | none =>
    dsimp only
    split
    · exact Gives.reading ((K.agree h).text hv) (typeError h _)
    · exact .pure h trivial

theorem deleteProperty (h : K.rel c d) (hv : K.Meets c v) (key : String) :
    K.GivesHeld (deleteProperty v key) c d := by
  refine Gives.reading ((K.agree h).holder? hv) ?_
  cases hid : c.heap.holder? v with
  | some id =>
    exact (edits h ((K.agree h).held_of_holder? hv hid) (fun _ _ _ ho => ho.erase)
      fun o => Object.proto_erase o key).bind fun _ _ _ he _ _ => .pure he (Value.within_bool _)
  | none =>
    dsimp only
    split
    · exact Gives.reading ((K.agree h).text hv) (typeError h _)
    · exact .pure h (Value.within_bool _)

theorem lacks (h : K.rel c d) (hv : K.Meets c v) (key : String) :
    Act.lacks c.heap v key = Act.lacks d.heap v key := by
  unfold Act.lacks
  rw [← (K.agree h).holder? hv]
  cases hid : c.heap.holder? v with
  | none => rfl
  | some id =>
    have hheld := (K.agree h).held_of_holder? hv hid
    exact congrArg (!·) ((K.agree h).has ((K.sight c).shown_of_held hheld) key)

theorem readMember (h : K.rel c d) (hv : K.Meets c v) (key : String) (implicit : Bool) :
    K.GivesMet (readMember v key implicit) c d := by
  refine Gives.reading (lacks h hv key) ?_
  split
  · exact scopeError h _
  · exact getProperty h hv key

theorem loopKeys (h : K.rel c d) (hv : K.Meets c v) :
    Act.loopKeys c.heap v = Act.loopKeys d.heap v := by
  unfold Act.loopKeys
  rw [← (K.agree h).holder? hv]
  split
  · rfl
  · cases hid : c.heap.holder? v with
    | none => rfl
    | some id =>
      have hheld := (K.agree h).held_of_holder? hv hid
      exact congrArg (List.map Value.string)
        ((K.agree h).enumerableKeys ((K.sight c).shown_of_held hheld))

theorem loopValues? (h : K.rel c d) (hv : K.Meets c v) :
    Act.loopValues? c.heap v = Act.loopValues? d.heap v := by
  unfold Act.loopValues?
  cases v with
  | object id =>
    dsimp only
    rw [← (K.agree h).get_object ((K.sight c).shown_of_held (Sight.object_of_meets hv))]
  | _ => rfl

/-- The items of a loop may be put into cells, if those that it copies may. -/
theorem loopItems {kind : EachKind} (h : K.rel c d) (hv : K.Meets c v)
    (hcopies : ∀ w ∈ kind.copies c.heap v, K.Puts c w) :
    K.Gives (fun e items => ∀ w ∈ items, K.Puts e w) (loopItems kind v) c d := by
  unfold Act.loopItems
  cases kind with
  | keys =>
    refine Gives.reads h (loopKeys h hv) fun w hw => ?_
    unfold Act.loopKeys at hw
    split at hw
    · obtain ⟨i, -, rfl⟩ := List.mem_map.mp hw
      exact Value.within_string _
    · split at hw
      · obtain ⟨k, -, rfl⟩ := List.mem_map.mp hw
        exact Value.within_string _
      · cases hw
  | values =>
    refine Gives.reading (loopValues? h hv) ?_
    cases hitems : Act.loopValues? c.heap v with
    | none => exact Gives.reading ((K.agree h).text hv) (typeError h _)
    | some items =>
      refine .pure h fun w hw => hcopies w ?_
      unfold EachKind.copies
      rw [hitems]
      exact hw

/-! ## Operators -/

theorem unary (h : K.rel c d) (hv : K.Meets c v) (op : UnaryOp) :
    Act.unary c.heap op v = Act.unary d.heap op v ∧ K.Has c (Act.unary c.heap op v) := by
  unfold Act.unary ofWord
  rw [(K.agree h).number hv]
  refine ⟨rfl, ?_⟩
  cases op <;> simp

theorem add (h : K.rel c d) (hv : K.Meets c v) (hw : K.Meets c w) :
    Act.add c.heap v w = Act.add d.heap v w ∧ K.Has c (Act.add c.heap v w) := by
  have hA := K.agree h
  have hx := Heap.Agree.meets_primitive (h := c.heap) hv
  have hy := Heap.Agree.meets_primitive (h := c.heap) hw
  unfold Act.add
  dsimp only
  rw [← hA.primitive hv, ← hA.primitive hw, ← hA.text hx, ← hA.text hy, ← hA.number hx,
    ← hA.number hy]
  refine ⟨rfl, ?_⟩
  split <;> simp

theorem hasProperty (h : K.rel c d) (hv : K.Meets c v) (hw : K.Meets c w) :
    K.GivesHeld (hasProperty v w) c d := by
  have hA := K.agree h
  have hcore : ∀ e : Core, Act.hasProperty v w e =
      (Option.elim (e.heap.holder? w)
        (Act.typeError ("Cannot use 'in' operator to search for '" ++ e.heap.key v ++ "' in "
          ++ e.heap.text w))
        fun id => pure (.bool (e.heap.has id (e.heap.key v)))) e := by
    intro e
    unfold Act.hasProperty
    rw [get_bind]
    cases e.heap.holder? w <;> rfl
  unfold GivesHeld Gives
  rw [hcore, hcore, ← hA.holder? hw, ← hA.key hv, ← hA.text hw]
  cases hid : c.heap.holder? w with
  | none => exact typeError h _
  | some id =>
    simp only [Option.elim_some]
    rw [← hA.has ((K.sight c).shown_of_held (hA.held_of_holder? hw hid))]
    exact .ok h (.refl c) (Value.within_bool _)

theorem isErrorOf (h : K.rel c d) (hv : K.Meets c v) (kind : String) :
    Act.isErrorOf c.heap kind v = Act.isErrorOf d.heap kind v := by
  have hA := K.agree h
  unfold Act.isErrorOf
  cases v with
  | object id =>
    have hid := (K.sight c).shown_of_held (Sight.object_of_meets hv)
    dsimp only
    rw [← hA.get_object hid, ← hA.lookup? hid]
    cases hn : c.heap.lookup? id Object.nameKey with
    | none => rfl
    | some n =>
      dsimp only
      rw [hA.text (hA.meets_lookup? hid hn)]
  | _ => rfl

theorem instanceOf (h : K.rel c d) (hv : K.Meets c v) (hw : K.Meets c w) :
    K.GivesHeld (instanceOf v w) c d := by
  have hA := K.agree h
  unfold Act.instanceOf
  cases w with
  | function f =>
    refine Gives.reading (hA.holder? hv) ?_
    cases hid : c.heap.holder? v with
    | none => exact .pure h (Value.within_bool _)
    | some id =>
      have hheld := hA.held_of_holder? hv hid
      refine (prototypeOf h (Sight.closure_of_meets hw)).bind fun p c' d' he hl _ => ?_
      exact Gives.reading ((K.agree he).inherits ((K.sight c').shown_of_held (hl.held _ hheld)) p)
        (.pure he (Value.within_bool _))
  | native n =>
    refine Gives.getting (g := fun e => Value.bool (errorKinds.contains (e.heap.natives.get n).name &&
      Act.isErrorOf e.heap (e.heap.natives.get n).name v)) h ?_ (Value.within_bool _)
    rw [hA.get_native (Sight.native_of_meets hw), isErrorOf h hv]
  | _ => exact typeError h _

/-- **An operator does the same on both cores**, and what it gives may be held. -/
theorem binary (h : K.rel c d) (hv : K.Meets c v) (hw : K.Meets c w) (op : BinaryOp) :
    K.GivesHeld (binary op v w) c d := by
  have hA := K.agree h
  have hx := hA.number hv
  have hy := hA.number hw
  unfold Act.binary
  cases op with
  | add => exact Gives.reads h (add h hv hw).1 (add h hv hw).2
  | hasKey => exact hasProperty h hv hw
  | instanceOf => exact instanceOf h hv hw
  | strictEq | strictNe => exact .pure h (Value.within_bool _)
  | eq | ne =>
    refine Gives.reads h ?_ (Value.within_bool _)
    rw [hA.looseEquals hv hw]
  | lt | gt | lte | gte =>
    refine Gives.reads h ?_ (Value.within_bool _)
    rw [hA.order? hv hw]
  | ushr =>
    refine Gives.reads h ?_ (Value.within_plain rfl)
    unfold shiftUnsigned
    rw [hx, hy]
  | bitAnd | bitOr | bitXor | shl | shr =>
    refine Gives.reads h ?_ (Value.within_plain rfl)
    unfold wordwise
    rw [hx, hy]
  | _ =>
    refine Gives.reads h ?_ (Value.within_plain rfl)
    unfold arithmetic
    rw [hx, hy]

/-! ## Native functions -/

theorem newArray {vs : List Value} (h : K.rel c d) (hvs : ∀ v ∈ vs, K.Puts c v) :
    K.GivesHeld (Builtin.newArray vs) c d :=
  newValue h (Object.stores_ofList hvs) rfl

/-- An array of texts. -/
theorem newTexts (h : K.rel c d) (texts : List String) :
    K.GivesHeld (Builtin.newArray (texts.map .string)) c d := by
  refine newArray h fun v hv => ?_
  obtain ⟨s, -, rfl⟩ := List.mem_map.mp hv
  exact Value.within_string s

theorem ownKeys (h : K.rel c d) (hv : K.Meets c v) : K.GivesHeld (Builtin.ownKeys v) c d := by
  unfold Builtin.ownKeys
  split
  · refine newArray h fun v hv => ?_
    obtain ⟨i, -, rfl⟩ := List.mem_map.mp hv
    exact Value.within_string _
  · refine Gives.reading ((K.agree h).holder? hv) ?_
    cases hid : c.heap.holder? v with
    | some id =>
      have hshown := (K.sight c).shown_of_held ((K.agree h).held_of_holder? hv hid)
      exact Gives.reading (congrArg Object.keys ((K.agree h).get_object hshown)) (newTexts h _)
    | none =>
      dsimp only
      split
      · exact typeError h _
      · exact newArray h nofun

theorem stringify (h : K.rel c d) (hv : K.Meets c v) : K.GivesHeld (Builtin.stringify v) c d := by
  have hjson := (K.agree h).toJson hv
  unfold Builtin.stringify
  cases v with
  | undefined | function | native => exact .pure h Value.within_undefined
  | _ => exact Gives.reads h (by rw [hjson]) (Value.within_string _)

mutual

/-- Building a value from JSON makes objects of values that were built before. -/
theorem stays_ofJson {K : Realm} (c d : Core) (h : K.rel c d) (j : Json) :
    K.Stays c d (c.heap.ofJson c.engine.region j).2 (d.heap.ofJson d.engine.region j).2 ∧
      (c.heap.ofJson c.engine.region j).1 = (d.heap.ofJson d.engine.region j).1 ∧
      K.Has { c with heap := (c.heap.ofJson c.engine.region j).2 }
        (c.heap.ofJson c.engine.region j).1 := by
  match j with
  | .null | .bool _ | .number _ | .string _ => exact ⟨.refl h, rfl, Value.within_plain rfl⟩
  | .array items =>
    obtain ⟨hitems, heqs, hvalues⟩ := stays_ofJsonItems c d h items
    obtain ⟨hnew, heq, hid⟩ := stays_newObject hitems.1
      (Object.stores_ofList fun v hv => K.puts_of_has (hvalues v hv)) nofun
    simp only [Heap.ofJson]
    rw [← heqs]
    exact ⟨hitems.trans hnew, congrArg Value.object heq, (Value.within_object _).mpr hid⟩
  | .object members =>
    obtain ⟨hnew, heq, hid⟩ := stays_newObject h (Object.stores_empty none) nofun
    have hmembers := stays_ofJsonMembers _ _ hnew.1
      (c.heap.newObject c.engine.region (.empty none)).1 hid members
    simp only [Heap.ofJson]
    rw [← heq]
    exact ⟨hnew.trans hmembers, rfl, (Value.within_object _).mpr (hmembers.2.held _ hid)⟩

theorem stays_ofJsonItems {K : Realm} (c d : Core) (h : K.rel c d) (js : List Json) :
    K.Stays c d (c.heap.ofJsonItems c.engine.region js).2
        (d.heap.ofJsonItems d.engine.region js).2 ∧
      (c.heap.ofJsonItems c.engine.region js).1 = (d.heap.ofJsonItems d.engine.region js).1 ∧
      ∀ v ∈ (c.heap.ofJsonItems c.engine.region js).1,
        K.Has { c with heap := (c.heap.ofJsonItems c.engine.region js).2 } v := by
  match js with
  | [] => exact ⟨.refl h, rfl, nofun⟩
  | j :: js =>
    obtain ⟨hj, heq, hv⟩ := stays_ofJson c d h j
    obtain ⟨hjs, heqs, hvs⟩ := stays_ofJsonItems _ _ hj.1 js
    refine ⟨hj.trans hjs, by simp only [Heap.ofJsonItems, heq, heqs], fun v hmem => ?_⟩
    rcases List.mem_cons.mp hmem with rfl | hmem
    · exact hjs.2.has hv
    · exact hvs v hmem

theorem stays_ofJsonMembers {K : Realm} (c d : Core) (h : K.rel c d) (id : ObjectId)
    (hid : (K.sight c).held (.object id)) (ms : List (String × Json)) :
    K.Stays c d (c.heap.ofJsonMembers c.engine.region id ms)
      (d.heap.ofJsonMembers d.engine.region id ms) := by
  match ms with
  | [] => exact .refl h
  | (k, j) :: ms =>
    obtain ⟨hj, heq, hv⟩ := stays_ofJson c d h j
    have hset := stays_write hj.1 (hj.2.held _ hid) (K.puts_of_has hv) k true
    have hrest := stays_ofJsonMembers _ _ hset.1 id (hset.2.held _ (hj.2.held _ hid)) ms
    simp only [Heap.ofJsonMembers, Heap.set]
    rw [← heq]
    exact (hj.trans hset).trans hrest

end

theorem meets_arg {args : List Value} (hargs : ∀ v ∈ args, K.Meets c v) (i : Nat) :
    K.Meets c (Builtin.arg args i) :=
  Value.within_getD fun v hv => hargs v (List.mem_of_getElem? hv)

theorem puts_arg {args : List Value} (hargs : ∀ v ∈ args, K.Puts c v) (i : Nat) :
    K.Puts c (Builtin.arg args i) :=
  Value.within_getD fun v hv => hargs v (List.mem_of_getElem? hv)

theorem parse {args : List Value} (h : K.rel c d) (hargs : ∀ v ∈ args, K.Meets c v) :
    K.GivesHeld (Builtin.parse args) c d := by
  unfold Builtin.parse
  split
  · exact typeError h _
  · refine Gives.reading ((K.agree h).text (meets_arg hargs 0)) ?_
    cases Json.parse (c.heap.text (Builtin.arg args 0)) with
    | ok j =>
      obtain ⟨hstays, heq, hv⟩ := stays_ofJson c d h j
      exact Gives.making hstays.1 hstays.2 rfl heq.symm hv
    | error e => exact raise h _ _

theorem texts {args : List Value} (h : K.rel c d) (hargs : ∀ v ∈ args, K.Meets c v) :
    args.map c.heap.text = args.map d.heap.text :=
  List.map_congr_left fun v hv => (K.agree h).text (hargs v hv)

theorem numbers {args : List Value} (h : K.rel c d) (hargs : ∀ v ∈ args, K.Meets c v) :
    args.map c.heap.number = args.map d.heap.number :=
  List.map_congr_left fun v hv => (K.agree h).number (hargs v hv)

theorem log {args : List Value} (h : K.rel c d) (hargs : ∀ v ∈ args, K.Meets c v) :
    K.GivesHeld (Builtin.log args) c d := by
  unfold Builtin.log
  refine Gives.reading (g := fun h => " ".intercalate (args.map h.text)) ?_ ?_
  · rw [texts h hargs]
  · obtain ⟨hrel, hwidens⟩ := K.console h (" ".intercalate (args.map c.heap.text))
    exact .ok hrel ⟨hwidens, rfl⟩ Value.within_undefined

theorem newError {args : List Value} (h : K.rel c d) (hargs : ∀ v ∈ args, K.Meets c v)
    (kind : String) : K.GivesHeld (Builtin.newError kind args) c d := by
  have htext := (K.agree h).text (meets_arg hargs 0)
  unfold Builtin.newError
  dsimp only
  split
  · exact newValue h (Object.stores_ofError kind "") rfl
  · exact Gives.reading htext (newValue h (Object.stores_ofError kind _) rfl)

theorem parseInteger {args : List Value} (h : K.rel c d) (hargs : ∀ v ∈ args, K.Meets c v) :
    K.GivesHeld (Builtin.parseInteger args) c d := by
  refine Gives.reads h ?_ (Value.within_number _)
  have hradix := (K.agree h).number (meets_arg hargs 1)
  rw [(K.agree h).text (meets_arg hargs 0)]
  cases hv : Builtin.arg args 1 <;> simp only [hv] at hradix ⊢ <;> rw [hradix]

/-- The array that a method is called on may be held. -/
theorem thisArray {this : Value} (h : K.rel c d) (ht : K.Meets c this) (method : String) :
    K.Gives (fun e id => (K.sight e).held (.object id) ∧ c.heap.array? this = some id ∧ e = c)
      (Builtin.thisArray this method) c d := by
  refine Gives.reading ((K.agree h).array? ht) ?_
  cases ha : c.heap.array? this with
  | none => exact typeError h _
  | some id => exact .pure h ⟨Heap.Agree.held_of_array? ht ha, rfl, rfl⟩

theorem sliceOf {id : ObjectId} {args : List Value} (h : K.rel c d)
    (hid : (K.sight c).held (.object id))
    (hcopies : ∀ v ∈ (c.heap.objects.get id).values, K.Puts c v)
    (hargs : ∀ v ∈ args, K.Meets c v) : K.GivesHeld (Builtin.sliceOf id args) c d := by
  have hA := K.agree h
  let bound (h : Heap) (v : Value) (n : Nat) : Nat :=
    if v.isUndefined then n else Builtin.relativeIndex (h.number v) (h.objects.get id).values.length
  let part (h : Heap) : List Value :=
    ((h.objects.get id).values.take (bound h (Builtin.arg args 1) (h.objects.get id).values.length)).drop
      (bound h (Builtin.arg args 0) 0)
  have hcore : ∀ e : Core, Builtin.sliceOf id args e = Builtin.newArray (part e.heap) e := fun _ => rfl
  have hpart : part c.heap = part d.heap := by
    simp only [part, bound]
    rw [hA.get_object ((K.sight c).shown_of_held hid), hA.number (meets_arg hargs 0),
      hA.number (meets_arg hargs 1)]
  unfold GivesHeld Gives
  rw [hcore, hcore, ← hpart]
  exact newArray h fun v hv => hcopies v (List.mem_of_mem_take (List.mem_of_mem_drop hv))

theorem joinOf {id : ObjectId} {separator : Value} (h : K.rel c d)
    (hid : (K.sight c).held (.object id)) (hs : K.Meets c separator) :
    K.GivesHeld (Builtin.joinOf id separator) c d := by
  have hA := K.agree h
  have hshown := (K.sight c).shown_of_held hid
  refine Gives.reading (congrArg Object.values (hA.get_object hshown))
    (Gives.reads h ?_ (Value.within_string _))
  have hparts : ((c.heap.objects.get id).values.map fun v =>
        if v.isNullish then "" else c.heap.text v) =
      (c.heap.objects.get id).values.map fun v => if v.isNullish then "" else d.heap.text v :=
    List.map_congr_left fun v hv => by rw [hA.text ((hA.stores hshown).values v hv)]
  dsimp only
  rw [hparts, hA.text hs]

theorem push {this : Value} {args : List Value} (h : K.rel c d) (ht : K.Meets c this)
    (hargs : ∀ v ∈ args, K.Puts c v) : K.GivesHeld (Builtin.run .push this args) c d := by
  refine (thisArray h ht "push").bind fun id c' d' h' hl ⟨hid, _, _⟩ => ?_
  have hargs' : ∀ v ∈ args, K.Puts c' v := fun v hv => hl.puts (hargs v hv)
  refine (edits h' hid (fun P hP _ ho => ho.pushAll fun v hv => (hargs' v hv).mono hP)
    fun o => Object.proto_pushAll o args).bind fun _ c'' d'' h'' hl' _ => ?_
  refine Gives.reads h'' ?_ (Value.within_ofNat _)
  rw [(K.agree h'').get_object ((K.sight c'').shown_of_held (hl'.held _ hid))]

theorem pop {this : Value} (h : K.rel c d) (ht : K.Meets c this) (args : List Value) :
    K.GivesMet (Builtin.run .pop this args) c d := by
  refine (thisArray h ht "pop").bind fun id c' d' h' _ ⟨hid, _, _⟩ => ?_
  have hshown := (K.sight c').shown_of_held hid
  have hlast := ((K.agree h').stores hshown).pop_fst
  refine Gives.reading (g := fun h => (h.objects.get id).pop.1) ?_ ?_
  · rw [(K.agree h').get_object hshown]
  · exact (edits h' hid (fun P _ _ ho => ho.pop_snd) Object.proto_pop_snd).bind
      fun _ _ _ h'' hl _ => .pure h'' (hl.meets hlast)

theorem indexOf {this : Value} {args : List Value} (h : K.rel c d) (ht : K.Meets c this) :
    K.GivesHeld (Builtin.run .indexOf this args) c d := by
  refine (thisArray h ht "indexOf").bind fun id c' d' h' _ ⟨hid, _, _⟩ => ?_
  refine Gives.reading (congrArg Object.values
    ((K.agree h').get_object ((K.sight c').shown_of_held hid))) (.pure h' ?_)
  unfold Builtin.indexIn
  split
  · exact Value.within_ofNat _
  · exact Value.within_number _

/-- A value that settles by itself may be met. -/
theorem expecting (h : K.rel c d) (hv : K.Puts c v) :
    K.GivesMet (do return .pending (← making fun h region =>
      h.newPending region (.scheduled (.fulfilled v)))) c d := by
  obtain ⟨hrel, hwidens, hid⟩ := K.pending (s := .fulfilled v) h hv
  refine Gives.bind (Q := fun e p => (K.sight e).met (.pending p)) (Gives.making hrel
    ⟨hwidens, rfl⟩ rfl ?_ hid) fun p _ _ he _ hp => .pure he ((Value.within_pending p).mpr hp)
  change d.heap.pendings.next d.engine.region = c.heap.pendings.next c.engine.region
  rw [← K.region h, K.nextPending h]

theorem GivesHeld.met {p : Act Value} (hp : K.GivesHeld p c d) : K.GivesMet p c d :=
  Gives.weaken hp fun _ _ hv => K.meets_of_has hv

theorem readsNumber {g : Heap → Float} (h : K.rel c d) (hg : g c.heap = g d.heap) :
    K.GivesMet (Act.reads fun h => .number (g h)) c d :=
  Gives.reads h (congrArg Value.number hg) (Value.within_number _)

theorem readsBool {g : Heap → Bool} (h : K.rel c d) (hg : g c.heap = g d.heap) :
    K.GivesMet (Act.reads fun h => .bool (g h)) c d :=
  Gives.reads h (congrArg Value.bool hg) (Value.within_bool _)

theorem readsString {g : Heap → String} (h : K.rel c d) (hg : g c.heap = g d.heap) :
    K.GivesMet (Act.reads fun h => .string (g h)) c d :=
  Gives.reads h (congrArg Value.string hg) (Value.within_string _)

theorem numeric {args : List Value} (h : K.rel c d) (hargs : ∀ v ∈ args, K.Meets c v)
    (f : Float → Float) : K.GivesMet (Builtin.numeric f args) c d :=
  readsNumber h (congrArg f ((K.agree h).number (meets_arg hargs 0)))

/-- **A native function does the same on both cores.** What it puts into cells is among its arguments,
or among what it copies. -/
theorem run {this : Value} {args : List Value} (h : K.rel c d) (ht : K.Meets c this)
    (hargs : ∀ v ∈ args, K.Puts c v) (b : Builtin)
    (hcopies : ∀ v ∈ b.copies c.heap this, K.Puts c v) : K.GivesMet (b.run this args) c d := by
  have hA := K.agree h
  have hmet : ∀ v ∈ args, K.Meets c v := fun v hv => K.meets_of_puts (hargs v hv)
  have hnumber := hA.number (meets_arg hmet 0)
  have htext := hA.text (meets_arg hmet 0)
  cases b with
  | objectKeys => exact (ownKeys h (meets_arg hmet 0)).met
  | jsonStringify => exact (stringify h (meets_arg hmet 0)).met
  | jsonParse => exact (parse h hmet).met
  | consoleLog => exact (log h hmet).met
  | booleanOf => exact .pure h (Value.within_bool _)
  | eval => exact .pure h (meets_arg hmet 0)
  | delay => exact expecting h (puts_arg hargs 1)
  | makeError kind => exact (newError h hmet kind).met
  | parseInt => exact (parseInteger h hmet).met
  | push => exact (push h ht hargs).met
  | pop => exact pop h ht args
  | join =>
    refine (thisArray h ht "join").bind fun id c' d' h' hl ⟨hid, _, _⟩ => ?_
    exact (joinOf h' hid (hl.meets (meets_arg hmet 0))).met
  | indexOf => exact (indexOf h ht).met
  | slice =>
    refine (thisArray h ht "slice").bind fun id c' d' h' hl ⟨hid, ha, heq⟩ => ?_
    subst heq
    refine (sliceOf h' hid (fun v hv => hcopies v ?_) hmet).met
    simp only [Builtin.copies, if_true, ha, Option.map_some, Option.getD_some]
    exact hv
  | arrayIsArray =>
    exact readsBool (g := fun h => (h.array? (Builtin.arg args 0)).isSome) h
      (congrArg Option.isSome (hA.array? (meets_arg hmet 0)))
  | isNaN =>
    exact readsBool (g := fun h => (h.number (Builtin.arg args 0)).isNaN) h
      (congrArg Float.isNaN hnumber)
  | mathMax =>
    exact readsNumber (g := fun h => Mathematics.greatest (args.map h.number)) h
      (congrArg Mathematics.greatest (numbers h hmet))
  | mathMin =>
    exact readsNumber (g := fun h => Mathematics.least (args.map h.number)) h
      (congrArg Mathematics.least (numbers h hmet))
  | mathPow =>
    exact readsNumber (g := fun h => power (h.number (Builtin.arg args 0))
      (h.number (Builtin.arg args 1))) h (congr (congrArg power hnumber) (hA.number (meets_arg hmet 1)))
  | stringOf =>
    cases args with
    | nil => exact readsString (g := fun _ => "") h rfl
    | cons v args => exact readsString (g := (·.text v)) h (hA.text (hmet v List.mem_cons_self))
  | numberOf =>
    cases args with
    | nil => exact readsNumber (g := fun _ => 0) h rfl
    | cons v args => exact readsNumber (g := (·.number v)) h (hA.number (hmet v List.mem_cons_self))
  | parseFloat =>
    exact readsNumber (g := fun h => Number.floatStart (h.text (Builtin.arg args 0))) h
      (congrArg Number.floatStart htext)
  | _ => exact numeric h hmet _

end Realm

end Fermata
