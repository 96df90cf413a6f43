import Fermata.Proofs.Act.Open
import Fermata.Proofs.Act.Ends
import Fermata.Proofs.Realm.Quiet

/-!
# Acts that make closures and open activations, on two cores

A continuation keeps values that may be held, with one exception: the items of a loop that are still to
come were copied from a collection and did not pass the checkpoint (`Cont.items`). A move carries values
that may be held, or ends in a call whose value still has to pass the checkpoint.

* `Cont.kept`, `Cont.items`, `Cont.copies`: the values of a continuation.
* `Realm.Carries`, `Realm.Brings`: what a move may carry, and what a call may come to.
* `Realm.callClosure`, `Realm.callUnit`, `Realm.callValue`, `Realm.construct`: calls.
-/

namespace Fermata

open Act

/-! ## The values of continuations -/

/-- The items still to come. -/
def Loop.items (l : Loop) : List Value :=
  match l.kind with
  | .forEach _ items => items
  | _ => []

/-- Items on their way to a reference, and those still to come. -/
def ReferenceUse.items : ReferenceUse → List Value
  | .loopItem loop item => item :: loop.items
  | _ => []

/-- The values that the use of a reference keeps besides items. -/
def ReferenceUse.kept : ReferenceUse → List Value
  | .loopItem loop _ => [loop.last]
  | _ => []

/-- The items that the use of a member is for. -/
def MemberUse.items : MemberUse → List Value
  | .refer _ use => use.items
  | _ => []

/-- The values that the use of a member keeps besides items. -/
def MemberUse.kept : MemberUse → List Value
  | .refer _ use => use.kept
  | _ => []

/-- The items that a continuation keeps: copies of what a collection held. -/
def Cont.items : Cont → List Value
  | .memberTarget _ use | .memberKey _ use => use.items
  | .declare _ _ (.loop l) | .loopInit l | .loopTest l | .loopBody l | .loopUpdate l => l.items
  | _ => []

/-- The values that a continuation keeps besides items. -/
def Cont.kept : Cont → List Value
  | .element use before _ => use.held ++ before
  | .property object _ _ | .made object => [.object object]
  | .memberTarget _ use => use.kept
  | .memberKey target use => target :: use.kept
  | .method receiver _ => [receiver]
  | .constructed args => args
  | .instead v | .binaryRight _ v => [v]
  | .updateOld ref _ _ | .assignValue ref | .compoundOld ref _ _ | .logicalOld ref _ _ => ref.held
  | .compoundValue ref _ old => old :: ref.held
  | .declare _ _ (.loop l) | .loopInit l | .loopTest l | .loopBody l | .loopUpdate l => [l.last]
  | _ => []

/-- What a call of a value with this receiver copies. -/
def Value.copies (callee : Value) (h : Heap) (this : Value) : List Value :=
  match callee with
  | .native id => (h.natives.get id).builtin.copies h this
  | _ => []

/-- What the use of a list copies. -/
def ListUse.copies (use : ListUse) (h : Heap) : List Value :=
  match use with
  | .call fn this => fn.copies h this
  | _ => []

/-- What a continuation that receives a value may put into a cell although it did not pass the checkpoint:
the elements of an array of which a part is taken, those of one that a loop begins to go through, or the
items that it keeps. -/
def Cont.copies (k : Cont) (h : Heap) (v : Value) : List Value :=
  match k with
  | .element use _ [] => use.copies h
  | .method receiver [] => v.copies h receiver
  | .eachSource kind _ _ _ => kind.copies h v
  | k => k.items

namespace Realm

variable {α : Type} {K : Realm} {c c' d : Core} {f : Frame} {v : Value}

/-! ## Moves -/

/-- The continuation keeps what may be held, and items. -/
structure HasCont (K : Realm) (c : Core) (k : Cont) : Prop where
  kept : ∀ v ∈ k.kept, K.Has c v
  items : ∀ v ∈ k.items, K.Lists c v

/-- The value of a control may be held, or it meets the checkpoint next. -/
def HasControl (K : Realm) (c : Core) (ks : List Cont) : Control → Prop
  | .value v => K.Has c v ∨ K.Meets c v ∧ ks.head? = some .settle
  | .checkpoint v => K.Meets c v
  | .waiting p => (K.sight c).met (.pending p)
  | .abrupt x => K.Bears c x
  | .eval _ | .exec _ _ => True

/-- What the activation carries may be held. -/
structure HasActivation (K : Realm) (c : Core) (a : Activation) : Prop where
  conts : ∀ k ∈ a.conts, K.HasCont c k
  scope : (K.sight c).held (.scope a.frame.scope)

/-- The move carries what it may. -/
def Carries (K : Realm) (c : Core) : Move → Prop
  | .go push control => (∀ k ∈ push, K.HasCont c k) ∧ K.HasControl c push control
  | .linked frame v => K.Has c v ∧ (K.sight c).held (.scope frame.scope)
  | .enter push a control =>
    (∀ k ∈ push, K.HasCont c k) ∧ K.HasActivation c a ∧ K.HasControl c a.conts control

/-- The move opens an activation. -/
def Enters (K : Realm) (c : Core) (m : Move) : Prop :=
  ∃ a control, m = .enter [] a control ∧ K.HasActivation c a ∧ K.HasControl c a.conts control

/-- The move opens an activation, or is the value of a native function. -/
def Brings (K : Realm) (c : Core) (m : Move) : Prop :=
  K.Enters c m ∨ ∃ v, m = .go [] (.value v) ∧ K.Meets c v

/-- The act leads to a move that carries what it may. -/
abbrev Moves (K : Realm) (p : Act Move) (c d : Core) : Prop := K.Gives K.Carries p c d

theorem hasCont_of_nil {k : Cont} (hkept : k.kept = []) (hitems : k.items = []) : K.HasCont c k := by
  refine ⟨fun v hv => ?_, fun v hv => ?_⟩
  · rw [hkept] at hv
    cases hv
  · rw [hitems] at hv
    cases hv

theorem HasCont.widen {L : Realm} {k : Cont} (hk : K.HasCont c k)
    (h : (K.sight c).Widens (L.sight d)) : L.HasCont d k :=
  ⟨fun v hv => h.has (hk.kept v hv), fun v hv => h.lists (hk.items v hv)⟩

theorem HasActivation.widen {L : Realm} {a : Activation} (ha : K.HasActivation c a)
    (h : (K.sight c).Widens (L.sight d)) : L.HasActivation d a :=
  ⟨fun k hk => (ha.conts k hk).widen h, h.held _ ha.scope⟩

theorem HasControl.widen {L : Realm} {ks : List Cont} {control : Control}
    (h : K.HasControl c ks control) (hl : (K.sight c).Widens (L.sight d)) :
    L.HasControl d ks control := by
  cases control with
  | value v => exact h.imp hl.has fun hv => ⟨hl.meets hv.1, hv.2⟩
  | checkpoint v => exact hl.meets h
  | waiting p => exact hl.met _ h
  | abrupt x => exact hl.bears h
  | _ => exact h

theorem Enters.pushing {m : Move} {ks : List Cont} (hm : K.Enters c m)
    (hks : ∀ k ∈ ks, K.HasCont c k) : K.Carries c (m.pushing ks) := by
  obtain ⟨a, control, rfl, ha, hcontrol⟩ := hm
  exact ⟨hks, ha, hcontrol⟩

/-- The value of a call meets the checkpoint. -/
theorem Brings.settling {m : Move} (hm : K.Brings c m) : K.Carries c (m.pushing [.settle]) := by
  have hsettle : ∀ k ∈ [Cont.settle], K.HasCont c k := fun k hk =>
    List.mem_singleton.mp hk ▸ hasCont_of_nil rfl rfl
  rcases hm with hm | ⟨v, rfl, hv⟩
  · exact hm.pushing hsettle
  · exact ⟨hsettle, .inr ⟨hv, rfl⟩⟩

/-! ## Linking -/

theorem instantiate (h : K.rel c d) (hf : (K.sight c).held (.scope f.scope)) (node : Nat) :
    K.Gives (fun e r => (K.sight e).held (.closure r.1) ∧ r.2.scope = f.scope)
      (instantiate f node) c d := by
  unfold Gives
  rw [Law.instantiate_eq, Law.instantiate_eq]
  cases f.unit.function? node with
  | none => exact .error h (.refl c) trivial
  | some fn =>
    obtain ⟨hborn, hwidens⟩ := K.birth h fn f.unit
    cases f.unit.record? f.record with
    | none => exact .error hborn ⟨hwidens, rfl⟩ trivial
    | some r =>
      dsimp only
      cases nextChildAfter? r.children f.nextChild fn.id with
      | none => exact .error hborn ⟨hwidens, rfl⟩ trivial
      | some next =>
        obtain ⟨hlinked, hwidens, hid⟩ := K.link h hf fn f.unit
        dsimp only
        rw [← K.region h, ← K.nextClosure h]
        exact .ok hlinked ⟨hwidens, rfl⟩ ⟨hid, rfl⟩

theorem bindDeclared {id : ClosureId} (h : K.rel c d) (hf : (K.sight c).held (.scope f.scope))
    (hid : (K.sight c).held (.closure id)) (name : String) :
    K.Runs (bindDeclared f name id) c d := by
  have hA := K.agree h
  have hv : K.Puts c (.function id) := K.puts_of_has ((Value.within_function id).mpr hid)
  have hcore : ∀ e : Core, Act.bindDeclared f name id e =
      (if (e.heap.scopes.get f.scope).isRoot then
        Act.changes (·.set e.engine.global name (.function id))
      else if f.record = 0 || e.heap.declares f.scope name then
        Act.setName f.scope name (.function id)
      else pure ()) e := by
    intro e
    unfold Act.bindDeclared
    rw [get_bind]
    split
    · rfl
    · split <;> rfl
  have hglobal : d.engine.global = c.engine.global := by rw [(K.engine h).rest]
  unfold Runs Gives
  rw [hcore, hcore, ← hA.get_scope hf, ← hA.declares hf, hglobal]
  split
  · exact set h (K.global h) hv name
  · split
    · exact setName h hf hv name
    · exact .ok h (.refl c) trivial

theorem hoistAll {nodes : List Nat} (h : K.rel c d) (hf : (K.sight c).held (.scope f.scope)) :
    K.Gives (fun _ g => g.scope = f.scope) (hoistAll f nodes) c d := by
  induction nodes generalizing f c d with
  | nil => exact .pure h rfl
  | cons node nodes ih =>
    refine (instantiate h hf node).bind fun ⟨id, g⟩ c' d' h' hl ⟨hid, hscope⟩ => ?_
    have hg : (K.sight c').held (.scope g.scope) := by
      rw [hscope]
      exact hl.held _ hf
    have hrest : ∀ {c'' d''}, K.rel c'' d'' → K.Later c' c'' →
        K.Gives (fun _ g => g.scope = f.scope) (Act.hoistAll g nodes) c'' d'' := fun h'' hl' =>
      (ih h'' (hl'.held _ hg)).weaken fun _ _ heq => heq.trans hscope
    refine Gives.reading ((K.agree h').get_closure hid) ?_
    dsimp only
    cases (c'.heap.closures.get id).node.name with
    | none => exact hrest h' (.refl c')
    | some name => exact (bindDeclared h' hg hid name).bind fun _ _ _ h'' hl' _ => hrest h'' hl'

theorem hoist (h : K.rel c d) (hf : (K.sight c).held (.scope f.scope)) :
    K.Gives (fun _ g => g.scope = f.scope) (hoist f) c d := by
  unfold Act.hoist
  cases f.unit.record? f.record with
  | some r => exact hoistAll h hf
  | none => exact .pure h rfl

/-! ## Opening -/

theorem openFrame (h : K.rel c d) (hf : (K.sight c).held (.scope f.scope)) (b : Boundary)
    (body : List Stmt) : K.Gives K.Enters (openFrame f b body) c d := by
  refine (hoist h hf).bind fun g c' d' h' hl hscope => ?_
  have hg : (K.sight c').held (.scope g.scope) := by
    rw [hscope]
    exact hl.held _ hf
  refine .pure h' ⟨_, _, rfl, ⟨fun k hk => ?_, hg⟩, ?_⟩
  · cases body with
    | nil => cases hk
    | cons t rest => exact List.mem_singleton.mp hk ▸ hasCont_of_nil rfl rfl
  · cases body with
    | nil => exact .inl Value.within_undefined
    | cons t rest => exact trivial

/-- What follows a check of the depth follows on the same cores. -/
theorem checkDepth {Q : Core → α → Prop} {q : Unit → Act α} {depth : Nat} (h : K.rel c d)
    (hq : K.Gives Q (q ()) c d) : K.Gives Q (checkDepth depth >>= q) c d := by
  have hsettings : d.engine.settings = c.engine.settings := by rw [(K.engine h).rest]
  have hbelow : d.engine.below = c.engine.below := by rw [(K.engine h).rest]
  have hcore : ∀ e : Core, (Act.checkDepth depth >>= q) e =
      if depth + e.engine.below.length ≥ e.engine.settings.maxCallDepth then
        (Act.raise rangeErrorKind "Maximum call stack size exceeded" : Act α) e
      else q () e := by
    intro e
    simp only [Bind.bind, EStateM.bind, Law.checkDepth_eq]
    by_cases hd : depth + e.engine.below.length ≥ e.engine.settings.maxCallDepth
    · rw [if_pos hd, if_pos hd]
      rfl
    · rw [if_neg hd, if_neg hd]
  unfold Gives
  rw [hcore, hcore, hsettings, hbelow]
  split
  · exact raise h _ _
  · exact hq

theorem callUnit {depth : Nat} {unit : CodeUnit} {scope : ScopeId} (h : K.rel c d)
    (hs : (K.sight c).held (.scope scope)) :
    K.Gives K.Enters (callUnit depth unit scope) c d :=
  checkDepth h (openFrame h hs _ _)

theorem firstValue {id : ClosureId} {args : List Value} (h : K.rel c d)
    (hid : (K.sight c).held (.closure id)) (hargs : ∀ v ∈ args, K.Puts c v) (r : ScopeRecord)
    (name : String) : K.Gives (fun e b => K.Puts e b.value) (firstValue r id args name) c d := by
  unfold Act.firstValue
  cases lastIndexOf? r.params name with
  | some i => exact .pure h (Value.within_getD fun v hv => hargs v (List.mem_of_getElem? hv))
  | none =>
    dsimp only
    split
    · exact (newObject h (Object.stores_ofList hargs) nofun).bind fun o _ _ h' _ ho =>
        .pure h' (K.puts_of_has ((Value.within_object o).mpr ho))
    · split
      · exact .pure h (K.puts_of_has ((Value.within_function id).mpr hid))
      · exact .pure h Value.within_undefined

/-- The bindings of an activation are made of what may be put there. -/
theorem firstValues {id : ClosureId} {args : List Value} (h : K.rel c d)
    (hid : (K.sight c).held (.closure id)) (hargs : ∀ v ∈ args, K.Puts c v) (r : ScopeRecord)
    (names : List String) :
    K.Gives (fun e bs => ∀ b ∈ bs, K.Puts e b.value) (names.mapM (Act.firstValue r id args)) c d := by
  induction names generalizing c d with
  | nil => exact .pure h nofun
  | cons name names ih =>
    rw [List.mapM_cons]
    refine (firstValue h hid hargs r name).bind fun b c' d' h' hl hb => ?_
    refine Gives.bind (ih h' (hl.held _ hid) fun v hv => hl.puts (hargs v hv))
      fun bs c'' d'' h'' hl' hbs => .pure h'' fun b' hb' => ?_
    rcases List.mem_cons.mp hb' with rfl | hb'
    · exact hl'.puts hb
    · exact hbs b' hb'

theorem activationScope {id : ClosureId} {defining : ScopeId} {this : Value} {args : List Value}
    (h : K.rel c d) (hid : (K.sight c).held (.closure id))
    (hs : (K.sight c).held (.scope defining)) (hthis : K.Puts c this)
    (hargs : ∀ v ∈ args, K.Puts c v) (r : ScopeRecord) :
    K.Gives (fun e s => (K.sight e).held (.scope s)) (activationScope r id defining this args) c d := by
  unfold Act.activationScope
  split
  · refine (firstValues h hid hargs r r.bindings).bind fun bindings c' d' h' hl hbs => ?_
    obtain ⟨hrel, hwidens, hid⟩ := K.scope h' (hl.held _ hs) hbs (hl.puts hthis) r.name
    exact Gives.making hrel ⟨hwidens, rfl⟩ rfl (K.nextScope h' (hl.held _ hs)).symm hid
  · exact .pure h hs

theorem scope?_eq (h : K.rel c d) (n : Nat) :
    c.engine.links.scope? n = d.engine.links.scope? n := by
  unfold Links.scope?
  rw [(K.engine h).links.getElem?_eq]

theorem callClosure {depth : Nat} {id : ClosureId} {this : Value} {args : List Value}
    (h : K.rel c d) (hid : (K.sight c).held (.closure id)) (hthis : K.Puts c this)
    (hargs : ∀ v ∈ args, K.Puts c v) :
    K.Gives K.Enters (callClosure depth id this args) c d := by
  refine checkDepth h ?_
  unfold Gives
  rw [get_bind, get_bind, ← (K.agree h).get_closure hid, ← scope?_eq h]
  cases hs : c.engine.links.scope? (c.heap.closures.get id).serial with
  | none => exact .error h (.refl c) trivial
  | some defining =>
    dsimp only
    cases (c.heap.closures.get id).unit.record? (c.heap.closures.get id).node.id with
    | none => exact .error h (.refl c) trivial
    | some r =>
      exact (activationScope h hid (K.defining h hs) hthis hargs r).bind
        fun scope _ _ h' _ hscope => openFrame h' hscope _ _

/-! ## Calls -/

theorem evalCode {depth : Nat} {scope : ScopeId} {code : Value} (h : K.rel c d)
    (hs : (K.sight c).held (.scope scope)) (hcode : K.Meets c code) :
    K.Gives K.Brings (evalCode depth scope code) c d := by
  unfold Act.evalCode
  cases code with
  | string source =>
    refine Gives.reading ((K.agree h).visibleNames hs) ?_
    cases CodeUnit.compile source (c.heap.visibleNames scope) with
    | error e => exact raise h _ _
    | ok unit => exact (callUnit h hs).weaken fun _ _ hm => .inl hm
  | _ => exact .pure h (.inr ⟨_, rfl, hcode⟩)

/-- **A call does the same on both cores**, whatever is called. -/
theorem callValue {depth : Nat} {scope : ScopeId} {callee this : Value} {args : List Value}
    (h : K.rel c d) (hs : (K.sight c).held (.scope scope)) (hcallee : K.Meets c callee)
    (hthis : K.Puts c this) (hargs : ∀ v ∈ args, K.Puts c v)
    (hcopies : ∀ v ∈ callee.copies c.heap this, K.Puts c v) :
    K.Gives K.Brings (callValue depth scope callee this args) c d := by
  have hmet : ∀ v ∈ args, K.Meets c v := fun v hv => K.meets_of_puts (hargs v hv)
  unfold Act.callValue
  cases callee with
  | function id =>
    exact (callClosure h (Sight.closure_of_meets hcallee) hthis hargs).weaken fun _ _ hm => .inl hm
  | native id =>
    have heval : d.engine.evalFunction = c.engine.evalFunction := by rw [(K.engine h).rest]
    unfold Gives
    dsimp only
    rw [get_bind, get_bind, heval]
    split
    · exact evalCode h hs (meets_arg hmet 0)
    · refine Gives.reading ((K.agree h).get_native (Sight.native_of_meets hcallee)) ?_
      exact (run h (K.meets_of_puts hthis) hargs _ hcopies).bind fun v _ _ h' _ hv =>
        .pure h' (.inr ⟨v, rfl, hv⟩)
  | _ => exact typeError h _

theorem describe (h : K.rel c d) (hv : K.Meets c v) :
    Act.describe c.heap v = Act.describe d.heap v := by
  unfold Act.describe
  rw [(K.agree h).text hv]

/-- A value that is no constructor is refused. -/
theorem refuses {Q : Core → Move → Prop} (h : K.rel c d) (hv : K.Meets c v) :
    K.Gives Q (do Act.typeError ((← reads (Act.describe · v)) ++ " is not a constructor")) c d :=
  Gives.reading (describe h hv) (typeError h _)

/-- A move that goes on with a value before the checkpoint. -/
theorem carries_checkpoint (hv : K.Meets c v) : K.Carries c (.go [] (.checkpoint v)) :=
  ⟨List.forall_mem_nil _, hv⟩

theorem construct {depth : Nat} {callee : Value} {args : List Value} (h : K.rel c d)
    (hcallee : K.Meets c callee) (hargs : ∀ v ∈ args, K.Puts c v) :
    K.Moves (construct depth callee args) c d := by
  unfold Act.construct
  cases callee with
  | function id =>
    have hid := Sight.closure_of_meets hcallee
    refine (prototypeOf h hid).bind fun proto c' d' h' hl hp => ?_
    refine (newObject h' (Object.stores_empty _) fun p hp' => ?_).bind fun o c'' d'' h'' hl' ho => ?_
    · cases hp'
      exact hp
    · have hl := hl.trans hl'
      have ho' : K.Has c'' (.object o) := (Value.within_object o).mpr ho
      refine (callClosure h'' (hl.held _ hid) (K.puts_of_has ho') fun v hv =>
        hl.puts (hargs v hv)).bind fun m e e' he hl'' hm => .pure he (hm.pushing fun k hk => ?_)
      rw [List.mem_singleton.mp hk]
      exact ⟨fun v hv => List.mem_singleton.mp hv ▸ hl''.has ho', nofun⟩
  | native id =>
    have hcopies : ∀ v ∈ (c.heap.natives.get id).builtin.copies c.heap .undefined, K.Puts c v := by
      intro v hv
      unfold Builtin.copies at hv
      split at hv <;> cases hv
    have hrun := run h (Value.within_undefined (P := (K.sight c).met)) hargs
      (c.heap.natives.get id).builtin hcopies
    refine Gives.reading ((K.agree h).get_native (Sight.native_of_meets hcallee)) ?_
    split
    · exact hrun.bind fun v _ _ h' _ hv => .pure h' (carries_checkpoint hv)
    · exact refuses h hcallee
  | _ => exact refuses h hcallee

end Realm

end Fermata
