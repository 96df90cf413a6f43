import Fermata.Proofs.Custody.Basic

/-!
# Acts that open nothing, and what they get hold of

Properties, operators and native functions read values from objects that they hold, or make objects of
values that they hold. So what they give is in custody, and so is every error that they throw.

* `Custody.getName`, `Custody.setName`: names along a chain of scopes.
* `Custody.getProperty`, `Custody.setProperty`, `Custody.binary`: properties and operators.
* `Custody.run`: every native function.
-/

namespace Fermata

open Act

namespace Custody

variable {α β : Type} {K : Custody} {c d : Core} {fs : List Frame} {Q : Core → α → Prop}
  {post : α → List Frame}

/-- The act gives a value in custody. -/
abbrev GivesValue (K : Custody) (fs : List Frame) (p : Act Value) (c : Core) : Prop :=
  K.Gives fs K.Has p c

/-- The act gives nothing that has to be in custody. -/
abbrev Runs (K : Custody) (fs : List Frame) (p : Act α) (c : Core) : Prop :=
  K.Gives fs (fun _ _ => True) p c

theorem newObject {o : Object} (h : K.good fs c) (ho : o.Within (K.held c)) :
    K.Gives fs (fun d id => K.held d (.object id)) (newObject o) c := by
  obtain ⟨hgood, hgrow, hid⟩ := K.object h ho
  exact .ok hgood ⟨hgrow, rfl, rfl, rfl⟩ hid

/-- The value of a new object. -/
theorem newValue {o : Object} (h : K.good fs c) (ho : o.Within (K.held c)) :
    K.GivesValue fs (do return .object (← Act.newObject o)) c :=
  (newObject h ho).bind fun id _ hd _ hid => .pure hd ((Value.within_object id).mpr hid)

theorem raise (h : K.good fs c) (kind message : String) :
    K.Delivers post fs Q c (raise kind message c) :=
  (newObject h (Object.within_ofError kind message)).bind fun id _ hd _ hid =>
    .throw hd ((Value.within_object id).mpr hid)

theorem typeError (h : K.good fs c) (message : String) :
    K.Delivers post fs Q c (typeError message c) :=
  raise h _ _

theorem scopeError (h : K.good fs c) (e : ScopeError) :
    K.Delivers post fs Q c (scopeError e c) := by
  cases e <;> exact raise h _ _

/-! ## Names -/

theorem getName {scope : ScopeId} (h : K.good fs c) (hs : K.held c (.scope scope)) (name : String) :
    K.GivesValue fs (getName scope name) c := by
  refine Delivers.reading ?_
  cases hv : c.heap.getName scope name with
  | ok v => exact .pure h (heap_getName h hs hv)
  | error e => exact scopeError h e

theorem edits {g : Heap → Heap} {f : Object → Object} {id : ObjectId} (h : K.good fs c)
    (hg : g c.heap = { c.heap with objects := c.heap.objects.modify id f })
    (hf : ∀ o : Object, o.Within (K.held c) → (f o).Within (K.held c)) :
    K.Runs fs (changes g) c := by
  obtain ⟨hgood, hgrow⟩ := K.edit h hf id
  have heq : changes g c = .ok () (c.editing id f) := by
    change EStateM.Result.ok () { c with heap := g c.heap } = _
    rw [hg]
    rfl
  unfold Runs Gives
  rw [heq]
  exact .ok hgood ⟨hgrow, rfl, rfl, rfl⟩ trivial

theorem set {v : Value} (h : K.good fs c) (hv : K.Has c v) (id : ObjectId) (key : String) :
    K.Runs fs (changes (·.set id key v)) c :=
  edits h rfl fun _ ho => ho.put hv

/-- A write to a local binding, or to the global object, or to nothing. -/
theorem setAt {v : Value} (h : K.good fs c) (hv : K.Has c v) (p : Heap.Place) (name : String) :
    K.Runs fs (changes (·.setAt p name v)) c := by
  cases p with
  | binding s =>
    obtain ⟨hgood, hgrow⟩ := K.binding h hv s name
    exact .ok hgood ⟨hgrow, rfl, rfl, rfl⟩ trivial
  | global o =>
    simp only [Heap.setAt]
    split
    · exact .ok h (.refl c) trivial
    · exact set h hv o name
  | nowhere => exact .ok h (.refl c) trivial

theorem setName {v : Value} (h : K.good fs c) (hv : K.Has c v) (scope : ScopeId) (name : String) :
    K.Runs fs (setName scope name v) c := by
  refine Delivers.reading ?_
  cases c.heap.target scope name with
  | ok p => exact setAt h hv p name
  | error e => exact scopeError h e

/-! ## Properties -/

/-- The core stays in order on this heap. -/
def Stays (K : Custody) (fs : List Frame) (c : Core) (k : Heap) : Prop :=
  K.good fs { c with heap := k } ∧ K.Later c { c with heap := k }

theorem Stays.refl (h : K.good fs c) : K.Stays fs c c.heap := ⟨h, .refl c⟩

theorem Stays.trans {k l : Heap} (hk : K.Stays fs c k) (hl : K.Stays fs { c with heap := k } l) :
    K.Stays fs c l :=
  ⟨hl.1, hk.2.trans hl.2⟩

theorem stays_newObject {o : Object} (h : K.good fs c) (ho : o.Within (K.held c)) :
    K.Stays fs c (c.heap.newObject c.engine.region o).2 ∧
      K.held { c with heap := (c.heap.newObject c.engine.region o).2 }
        (.object (c.heap.newObject c.engine.region o).1) := by
  obtain ⟨hgood, hgrow, hid⟩ := K.object h ho
  exact ⟨⟨hgood, hgrow, rfl, rfl, rfl⟩, hid⟩

theorem stays_write {v : Value} (h : K.good fs c) (hv : K.Has c v) (id : ObjectId) (key : String)
    (enumerable : Bool) : K.Stays fs c (c.heap.write id key v enumerable) := by
  unfold Heap.write
  dsimp only
  generalize (if key = "length" ∧ (c.heap.objects.get id).isArray = true then
    (Number.toUInt32 (c.heap.number v)).toNat else 0) = n
  obtain ⟨hgood, hgrow⟩ := K.edit h (f := fun o => o.put key v n enumerable)
    (fun _ ho => ho.put hv) id
  exact ⟨hgood, hgrow, rfl, rfl, rfl⟩

theorem prototypeOf {id : ClosureId} (h : K.good fs c) (hid : K.held c (.closure id)) :
    K.Gives fs (fun d p => K.held d (.object p)) (making fun h region => h.prototypeOf region id)
      c := by
  have hbag : K.held c (.object (c.heap.closures.get id).object) :=
    holder? h ((Value.within_function id).mpr hid) rfl
  have hmade : ∀ k p, c.heap.prototypeOf c.engine.region id = (p, k) →
      K.Stays fs c k ∧ K.held { c with heap := k } (.object p) := by
    intro k p hk
    unfold Heap.prototypeOf at hk
    dsimp only at hk
    split at hk
    next q hq =>
      cases hk
      exact ⟨.refl h, (Value.within_object _).mp ((within_get h hbag).find? hq)⟩
    next =>
      cases hk
      obtain ⟨hnew, hp⟩ := stays_newObject h Object.within_empty_none
      have hset := stays_write hnew.1 ((Value.within_object _).mpr hp)
        (c.heap.closures.get id).object Heap.prototypeKey false
      exact ⟨hnew.trans hset, hset.2.held _ hp⟩
  obtain ⟨hstays, hp⟩ := hmade _ _ rfl
  exact .ok hstays.1 hstays.2 hp

theorem objectProperty {id : ObjectId} (h : K.good fs c) (hid : K.held c (.object id))
    (key : String) : K.Has c (objectProperty c id key) := by
  unfold Act.objectProperty
  split
  · exact lookup? h hid ‹_›
  · split
    · exact Value.within_getD fun v hv => lookup? h (K.methods h) hv
    · exact Value.within_undefined

theorem closureProperty {id : ClosureId} (h : K.good fs c) (hid : K.held c (.closure id))
    (key : String) : K.Has c (closureProperty c.heap id key) := by
  have hbag : K.held c (.object (c.heap.closures.get id).object) :=
    holder? h ((Value.within_function id).mpr hid) rfl
  unfold Act.closureProperty
  dsimp only
  split
  · exact lookup? h hbag ‹_›
  · split
    · exact Value.within_string _
    · split
      · exact Value.within_ofNat _
      · exact Value.within_undefined

theorem nativeProperty {id : NativeId} (h : K.good fs c) (hid : K.held c (.native id))
    (key : String) : K.Has c (nativeProperty c.heap id key) := by
  have hbag : K.held c (.object (c.heap.natives.get id).object) :=
    holder? h ((Value.within_native id).mpr hid) rfl
  unfold Act.nativeProperty
  dsimp only
  split
  · exact lookup? h hbag ‹_›
  · split
    · exact Value.within_string _
    · exact Value.within_undefined

theorem stringProperty (s key : String) : K.Has c (stringProperty s key) := by
  unfold Act.stringProperty
  split
  · exact Value.within_ofNat _
  · split
    · unfold charAt
      split
      · exact Value.within_string _
      · exact Value.within_undefined
    · exact Value.within_undefined

theorem getProperty {target : Value} (h : K.good fs c) (ht : K.Has c target) (key : String) :
    K.GivesValue fs (getProperty target key) c := by
  unfold Act.getProperty
  cases target with
  | undefined | null => exact typeError h _
  | string s => exact .pure h (stringProperty s key)
  | object id => exact .ok h (.refl c) (objectProperty h ((Value.within_object id).mp ht) key)
  | function id =>
    have hid := (Value.within_function id).mp ht
    dsimp only
    split
    · exact (prototypeOf h hid).bind fun p _ hd _ hp => .pure hd ((Value.within_object p).mpr hp)
    · exact .ok h (.refl c) (closureProperty h hid key)
  | native id => exact .ok h (.refl c) (nativeProperty h ((Value.within_native id).mp ht) key)
  | bool | number | pending => exact .pure h Value.within_undefined

theorem setProperty {v : Value} (h : K.good fs c) (hv : K.Has c v) (target : Value)
    (key : String) : K.Runs fs (setProperty target key v) c := by
  refine Delivers.reading ?_
  cases c.heap.holder? target with
  | some id => exact set h hv id key
  | none =>
    dsimp only
    split
    · exact typeError h _
    · exact .pure h trivial

theorem deleteProperty (h : K.good fs c) (target : Value) (key : String) :
    K.GivesValue fs (deleteProperty target key) c := by
  refine Delivers.reading ?_
  cases c.heap.holder? target with
  | some id =>
    exact (edits h rfl fun _ ho => ho.erase).bind fun _ _ hd _ _ => .pure hd (Value.within_bool _)
  | none =>
    dsimp only
    split
    · exact typeError h _
    · exact .pure h (Value.within_bool _)

theorem readMember {target : Value} (h : K.good fs c) (ht : K.Has c target) (key : String)
    (implicit : Bool) : K.GivesValue fs (readMember target key implicit) c := by
  unfold Act.readMember
  refine Delivers.reading ?_
  split
  · exact scopeError h _
  · exact getProperty h ht key

theorem loopItems {source : Value} (h : K.good fs c) (hs : K.Has c source) (kind : EachKind) :
    K.Gives fs (fun d items => ∀ v ∈ items, K.Has d v) (loopItems kind source) c := by
  unfold Act.loopItems
  cases kind with
  | keys =>
    refine .ok h (.refl c) fun v hv => ?_
    dsimp only at hv
    unfold loopKeys at hv
    split at hv
    · obtain ⟨i, -, rfl⟩ := List.mem_map.mp hv
      exact Value.within_string _
    · split at hv
      · obtain ⟨k, -, rfl⟩ := List.mem_map.mp hv
        exact Value.within_string _
      · cases hv
  | values =>
    refine Delivers.reading ?_
    cases hitems : loopValues? c.heap source with
    | none => exact typeError h _
    | some items =>
      refine .pure h fun v hv => ?_
      unfold loopValues? at hitems
      split at hitems
      · cases hitems
        obtain ⟨i, -, rfl⟩ := List.mem_map.mp hv
        exact Value.within_string _
      · rename_i id
        cases hitems
        have ho := within_get h ((Value.within_object id).mp hs)
        split at hv
        · exact ho.values v hv
        · obtain ⟨e, he, rfl⟩ := List.mem_map.mp hv
          exact ho.entries e he
      · cases hitems

/-! ## Operators -/

theorem hasProperty (h : K.good fs c) (key target : Value) :
    K.GivesValue fs (hasProperty key target) c := by
  unfold Act.hasProperty
  refine Delivers.getting ?_
  cases c.heap.holder? target with
  | some id => exact .pure h (Value.within_bool _)
  | none => exact typeError h _

theorem instanceOf {constructor : Value} (h : K.good fs c) (hc : K.Has c constructor) (v : Value) :
    K.GivesValue fs (instanceOf v constructor) c := by
  unfold Act.instanceOf
  cases constructor with
  | function k =>
    refine Delivers.reading ?_
    cases c.heap.holder? v with
    | none => exact .pure h (Value.within_bool _)
    | some id =>
      exact (prototypeOf h ((Value.within_function k).mp hc)).bind fun p d hd _ _ =>
        .ok hd (.refl d) (Value.within_bool _)
  | native n => exact .ok h (.refl c) (Value.within_bool _)
  | _ => exact typeError h _

theorem unary (h : Heap) (op : UnaryOp) (v : Value) : K.Has c (unary h op v) := by
  unfold Act.unary ofWord
  cases op <;> simp

theorem add (h : Heap) (a b : Value) : K.Has c (add h a b) := by
  unfold Act.add
  dsimp only
  split <;> simp

theorem binary {b : Value} (h : K.good fs c) (hb : K.Has c b) (op : BinaryOp) (a : Value) :
    K.GivesValue fs (binary op a b) c := by
  unfold Act.binary
  cases op with
  | add => exact .ok h (.refl c) (add c.heap a b)
  | hasKey => exact hasProperty h a b
  | instanceOf => exact instanceOf h hb a
  | _ => exact .ok h (.refl c) (Value.within_plain rfl)

/-! ## Native functions -/

theorem newArray {vs : List Value} (h : K.good fs c) (hvs : ∀ v ∈ vs, K.Has c v) :
    K.GivesValue fs (Builtin.newArray vs) c :=
  newValue h (Object.within_ofList hvs)

/-- An array of texts. -/
theorem newTexts (h : K.good fs c) (texts : List String) :
    K.GivesValue fs (Builtin.newArray (texts.map .string)) c := by
  refine newArray h fun v hv => ?_
  obtain ⟨s, -, rfl⟩ := List.mem_map.mp hv
  exact Value.within_string s

theorem ownKeys (h : K.good fs c) (target : Value) : K.GivesValue fs (Builtin.ownKeys target) c := by
  unfold Builtin.ownKeys
  split
  · refine newArray h fun v hv => ?_
    obtain ⟨i, -, rfl⟩ := List.mem_map.mp hv
    exact Value.within_string _
  · refine Delivers.reading ?_
    cases c.heap.holder? target with
    | some id => exact newTexts h _
    | none =>
      dsimp only
      split
      · exact typeError h _
      · exact newArray h nofun

theorem stringify (h : K.good fs c) (v : Value) : K.GivesValue fs (Builtin.stringify v) c := by
  unfold Builtin.stringify
  cases v with
  | undefined | function | native => exact .pure h Value.within_undefined
  | _ => exact .ok h (.refl c) (Value.within_string _)

mutual

/-- Building a value from JSON makes objects of values that were built before. -/
theorem stays_ofJson {K : Custody} {fs : List Frame} (c : Core) (h : K.good fs c) (j : Json) :
    K.Stays fs c (c.heap.ofJson c.engine.region j).2 ∧
      K.Has { c with heap := (c.heap.ofJson c.engine.region j).2 }
        (c.heap.ofJson c.engine.region j).1 := by
  match j with
  | .null | .bool _ | .number _ | .string _ => exact ⟨.refl h, Value.within_plain rfl⟩
  | .array items =>
    obtain ⟨hitems, hvalues⟩ := stays_ofJsonItems c h items
    obtain ⟨hnew, hid⟩ := stays_newObject hitems.1 (Object.within_ofList hvalues)
    exact ⟨hitems.trans hnew, (Value.within_object _).mpr hid⟩
  | .object members =>
    obtain ⟨hnew, hid⟩ := stays_newObject h Object.within_empty_none
    have hmembers := stays_ofJsonMembers _ hnew.1
      (c.heap.newObject c.engine.region (.empty none)).1 members
    exact ⟨hnew.trans hmembers, (Value.within_object _).mpr (hmembers.2.held _ hid)⟩

theorem stays_ofJsonItems {K : Custody} {fs : List Frame} (c : Core) (h : K.good fs c)
    (js : List Json) :
    K.Stays fs c (c.heap.ofJsonItems c.engine.region js).2 ∧
      ∀ v ∈ (c.heap.ofJsonItems c.engine.region js).1,
        K.Has { c with heap := (c.heap.ofJsonItems c.engine.region js).2 } v := by
  match js with
  | [] => exact ⟨.refl h, nofun⟩
  | j :: js =>
    obtain ⟨hj, hv⟩ := stays_ofJson c h j
    obtain ⟨hjs, hvs⟩ := stays_ofJsonItems _ hj.1 js
    refine ⟨hj.trans hjs, fun v hmem => ?_⟩
    rcases List.mem_cons.mp hmem with rfl | hmem
    · exact hjs.2.has hv
    · exact hvs v hmem

theorem stays_ofJsonMembers {K : Custody} {fs : List Frame} (c : Core) (h : K.good fs c)
    (id : ObjectId) (ms : List (String × Json)) :
    K.Stays fs c (c.heap.ofJsonMembers c.engine.region id ms) := by
  match ms with
  | [] => exact .refl h
  | (k, j) :: ms =>
    obtain ⟨hj, hv⟩ := stays_ofJson c h j
    have hset := stays_write hj.1 hv id k true
    exact (hj.trans hset).trans (stays_ofJsonMembers _ hset.1 id ms)

end

theorem parse (h : K.good fs c) (args : List Value) : K.GivesValue fs (Builtin.parse args) c := by
  unfold Builtin.parse
  split
  · exact typeError h _
  · refine Delivers.reading ?_
    cases Json.parse (c.heap.text (Builtin.arg args 0)) with
    | ok j =>
      obtain ⟨hstays, hv⟩ := stays_ofJson c h j
      exact .ok hstays.1 hstays.2 hv
    | error e => exact raise h _ _

theorem log (h : K.good fs c) (args : List Value) : K.GivesValue fs (Builtin.log args) c := by
  obtain ⟨hgood, hgrow⟩ := K.console h
    (c.engine.console.push (" ".intercalate (args.map c.heap.text)))
  exact .ok hgood ⟨hgrow, rfl, rfl, rfl⟩ Value.within_undefined

theorem newError (h : K.good fs c) (kind : String) (args : List Value) :
    K.GivesValue fs (Builtin.newError kind args) c := by
  unfold Builtin.newError
  dsimp only
  split
  · exact newValue h (Object.within_ofError kind "")
  · exact newValue h (Object.within_ofError kind _)

theorem thisArray {this : Value} (h : K.good fs c) (ht : K.Has c this) (method : String) :
    K.Gives fs (fun d id => K.held d (.object id)) (Builtin.thisArray this method) c := by
  refine Delivers.reading ?_
  cases ha : c.heap.array? this with
  | none => exact typeError h _
  | some id =>
    refine .pure h ?_
    unfold Heap.array? at ha
    split at ha
    · split at ha
      · cases ha
        exact (Value.within_object id).mp ht
      · cases ha
    · cases ha

theorem sliceOf {id : ObjectId} (h : K.good fs c) (hid : K.held c (.object id))
    (args : List Value) : K.GivesValue fs (Builtin.sliceOf id args) c := by
  refine newArray h fun v hv => (within_get h hid).values v ?_
  exact List.mem_of_mem_take (List.mem_of_mem_drop hv)

theorem within_arg {args : List Value} (hargs : ∀ v ∈ args, K.Has c v) (i : Nat) :
    K.Has c (Builtin.arg args i) :=
  Value.within_getD fun v hv => hargs v (List.mem_of_getElem? hv)

/-- A value that settles by itself. -/
theorem expecting {v : Value} (h : K.good fs c) (hv : K.Has c v) :
    K.GivesValue fs (do return .pending (← making fun h region =>
      h.newPending region (.scheduled (.fulfilled v)))) c := by
  obtain ⟨hgood, hgrow, hid⟩ := K.pending (s := .fulfilled v) h hv
  exact .ok hgood ⟨hgrow, rfl, rfl, rfl⟩ ((Value.within_pending _).mpr hid)

theorem push {this : Value} {args : List Value} (h : K.good fs c) (ht : K.Has c this)
    (hargs : ∀ v ∈ args, K.Has c v) : K.GivesValue fs (Builtin.run .push this args) c := by
  refine (thisArray h ht "push").bind fun id d hd hl _ => ?_
  refine Delivers.bind (edits hd rfl fun _ ho => ho.pushAll (hl.all hargs)) fun _ e he _ _ => ?_
  exact .ok he (.refl e) (Value.within_ofNat _)

theorem pop {this : Value} (h : K.good fs c) (ht : K.Has c this) (args : List Value) :
    K.GivesValue fs (Builtin.run .pop this args) c := by
  refine (thisArray h ht "pop").bind fun id d hd _ hid => ?_
  have hlast := (within_get hd hid).pop_fst
  refine Delivers.reading (Delivers.bind (edits hd rfl fun _ ho => ho.pop_snd) fun _ e he hl _ => ?_)
  exact .pure he (hl.has hlast)

/-- **What native functions give is in custody.** -/
theorem run {this : Value} {args : List Value} (h : K.good fs c) (ht : K.Has c this)
    (hargs : ∀ v ∈ args, K.Has c v) (b : Builtin) : K.GivesValue fs (b.run this args) c := by
  cases b with
  | objectKeys => exact ownKeys h _
  | jsonStringify => exact stringify h _
  | jsonParse => exact parse h args
  | consoleLog => exact log h args
  | booleanOf => exact .pure h (Value.within_bool _)
  | eval => exact .pure h (within_arg hargs 0)
  | delay => exact expecting h (within_arg hargs 1)
  | makeError kind => exact newError h kind args
  | push => exact push h ht hargs
  | pop => exact pop h ht args
  | join =>
    exact (thisArray h ht "join").bind fun id d hd _ _ => .ok hd (.refl d) (Value.within_string _)
  | indexOf =>
    refine (thisArray h ht "indexOf").bind fun id d hd _ _ => .ok hd (.refl d) ?_
    unfold Builtin.indexIn
    split
    · exact Value.within_ofNat _
    · exact Value.within_number _
  | slice => exact (thisArray h ht "slice").bind fun id d hd _ hid => sliceOf hd hid args
  | _ => exact .ok h (.refl c) (Value.within_plain rfl)

end Custody

end Fermata
