import Fermata.Machine.Basic
import Fermata.Proofs.Custody.Quiet

/-!
# Acts that make closures and open activations, and what they get hold of

Linking a literal brings a new closure into custody; opening an activation brings its scope. The faults
that can occur here are those of links and of closures without a defining scope, and a `Custody` says
of both whether they may.

* `Custody.Carries`: what a move carries is in custody.
* `Custody.instantiate`, `Custody.hoist`: literals become closures of the frame's scope.
* `Custody.callClosure`, `Custody.callUnit`, `Custody.callValue`, `Custody.construct`: calls.
-/

namespace Fermata

open Act

namespace Custody

variable {K : Custody} {c d : Core} {f : Frame} {fs : List Frame}

/-! ## Moves -/

/-- What the values of the continuations refer to is in custody. -/
def HasAll (K : Custody) (c : Core) (ks : List Cont) : Prop := ∀ v ∈ ks.flatMap Cont.held, K.Has c v

/-- What the control carries is in custody, and its fault is one that may occur. -/
def HasControl (K : Custody) (c : Core) : Control → Prop
  | .abrupt x => K.Bears c x
  | control => ∀ v ∈ control.held, K.Has c v

/-- What the activation carries is in custody. A unit follows its own record. -/
def HasActivation (K : Custody) (c : Core) (a : Activation) : Prop :=
  K.HasAll c a.conts ∧ (a.boundary = .unit → a.frame.record = 0)

/-- What a move under these frames carries is in custody. -/
def Carries (K : Custody) (fs : List Frame) (c : Core) : Move → Prop
  | .go push control => K.HasAll c push ∧ K.HasControl c control
  | .linked frame v => K.Has c v ∧ ∀ f ∈ fs.head?, f.Same frame
  | .enter push a control => K.HasAll c push ∧ K.HasActivation c a ∧ K.HasControl c control

theorem hasAll_nil : K.HasAll c [] := nofun

theorem hasAll_append {ks ls : List Cont} :
    K.HasAll c (ks ++ ls) ↔ K.HasAll c ks ∧ K.HasAll c ls := by
  simp only [HasAll, List.flatMap_append, List.mem_append, or_imp, forall_and]

theorem hasAll_one {k : Cont} : K.HasAll c [k] ↔ ∀ v ∈ k.held, K.Has c v := by
  simp only [HasAll, List.flatMap_cons, List.flatMap_nil, List.append_nil]

theorem Later.hasAll {ks : List Cont} (h : K.Later c d) (hks : K.HasAll c ks) : K.HasAll d ks :=
  h.all hks

theorem Later.activation {a : Activation} (h : K.Later c d) (ha : K.HasActivation c a) :
    K.HasActivation d a :=
  ⟨h.hasAll ha.1, ha.2⟩

theorem Carries.pushing {m : Move} {ks : List Cont} (hm : K.Carries fs c m)
    (hks : K.HasAll c ks) : K.Carries fs c (m.pushing ks) := by
  cases m with
  | go push control => exact ⟨hasAll_append.mpr ⟨hm.1, hks⟩, hm.2⟩
  | linked frame v => exact hm
  | enter push a control => exact ⟨hasAll_append.mpr ⟨hm.1, hks⟩, hm.2⟩

/-- An act that leads to a move under these frames; a transfer leaves the frames. -/
abbrev Moves (K : Custody) (fs : List Frame) (p : Act Move) (c : Core) : Prop :=
  K.Delivers (Move.frames fs) fs (K.Carries fs) c (p c)

/-! ## Linking -/

theorem instantiate {node : Nat} (h : K.good (f :: fs) c) (hnode : K.literal f.unit f.record node) :
    K.Delivers (fun r => r.2 :: fs) (f :: fs) (fun d r => K.held d (.closure r.1) ∧ f.Same r.2) c
      (instantiate f node c) := by
  have hfault := K.linked h hnode
  rw [Law.instantiate_eq]
  cases hfn : f.unit.function? node with
  | none =>
    refine .error h (.refl c) ?_
    rcases hfault with hfault | ⟨fn, r, next, hfn', -⟩
    · exact hfault _ _ _
    · rw [hfn] at hfn'
      cases hfn'
  | some fn =>
    obtain ⟨hborn, hgrow⟩ := K.birth h hfn
    cases hr : f.unit.record? f.record with
    | none =>
      refine .error hborn ⟨hgrow, rfl, rfl, rfl⟩ ?_
      rcases hfault with hfault | ⟨fn', r, next, -, hr', -⟩
      · exact hfault _ _ _
      · rw [hr] at hr'
        cases hr'
    | some r =>
      dsimp only
      cases hn : nextChildAfter? r.children f.nextChild fn.id with
      | none =>
        refine .error hborn ⟨hgrow, rfl, rfl, rfl⟩ ?_
        rcases hfault with hfault | ⟨fn', r', next, hfn', hr', hn'⟩
        · exact hfault _ _ _
        · rw [hfn] at hfn'
          rw [hr] at hr'
          cases hfn'
          cases hr'
          rw [hn] at hn'
          cases hn'
      | some next =>
        obtain ⟨hlinked, hgrow, hid⟩ := K.link h hfn hr hn
        exact .ok hlinked ⟨hgrow, rfl, rfl, rfl⟩ ⟨hid, .linked hr hn⟩

theorem bindDeclared {id : ClosureId} (h : K.good fs c) (hid : K.held c (.closure id)) (f : Frame)
    (name : String) : K.Runs fs (bindDeclared f name id) c := by
  have hv : K.Has c (.function id) := (Value.within_function id).mpr hid
  unfold Act.bindDeclared
  refine Delivers.getting ?_
  dsimp only
  split
  · exact Delivers.getting (set h hv _ _)
  · split
    · exact setName h hv _ _
    · exact .pure h trivial

theorem hoistAll {nodes : List Nat} (h : K.good (f :: fs) c)
    (hnodes : ∀ node ∈ nodes, K.literal f.unit f.record node) :
    K.Delivers (fun g => g :: fs) fs (fun _ g => f.Same g) c (hoistAll f nodes c) := by
  induction nodes generalizing f c with
  | nil => exact .pure h (.refl f)
  | cons node nodes ih =>
    have hfirst := (instantiate h (hnodes node List.mem_cons_self)).weaken
      (fun _ _ hg hQ => ⟨hg, hQ⟩) fun _ => K.close
    refine hfirst.bind fun ⟨id, g⟩ d hd _ ⟨hid, hsame⟩ => ?_
    have hrest : ∀ e, K.good (g :: fs) e →
        K.Delivers (fun g => g :: fs) fs (fun _ g => f.Same g) e (Act.hoistAll g nodes e) := by
      intro e he
      have hnodes' : ∀ node ∈ nodes, K.literal g.unit g.record node := by
        intro node' hnode'
        rw [hsame.unit, hsame.record]
        exact hnodes node' (List.mem_cons_of_mem node hnode')
      exact (ih he hnodes').weaken (fun _ _ hg hs => ⟨hg, hsame.trans hs⟩) fun _ he => he
    refine Delivers.reading ?_
    dsimp only
    cases (d.heap.closures.get id).node.name with
    | none => exact hrest d hd
    | some name =>
      refine Delivers.bind ((bindDeclared hd hid g name).weaken (fun _ _ hg hQ => ⟨hg, hQ⟩)
        fun _ => K.close) fun _ e he _ _ => hrest e he

theorem hoist (h : K.good (f :: fs) c) :
    K.Delivers (fun g => g :: fs) fs (fun _ g => f.Same g) c (hoist f c) := by
  unfold Act.hoist
  cases hr : f.unit.record? f.record with
  | some r => exact hoistAll h (K.hoisted h hr)
  | none => exact .pure h (.refl f)

/-! ## Opening -/

theorem openFrame {b : Boundary} (h : K.good (f :: fs) c) (hb : b = .unit → f.record = 0)
    (body : List Stmt) : K.Moves fs (openFrame f b body) c := by
  refine (hoist h).bind fun g d hd _ hsame => .pure hd ⟨hasAll_nil, ?_⟩
  have hrecord : b = .unit → g.record = 0 := fun hu => hsame.record.trans (hb hu)
  cases body with
  | nil =>
    refine ⟨⟨hasAll_nil, hrecord⟩, fun v hv => ?_⟩
    exact List.mem_singleton.mp hv ▸ Value.within_undefined
  | cons t rest => exact ⟨⟨hasAll_one.mpr nofun, hrecord⟩, nofun⟩

/-- What follows a check of the depth follows on the same core. -/
theorem checkDepth {q : Unit → Act Move} {depth : Nat} (h : K.good fs c)
    (hq : K.Moves fs (q ()) c) : K.Moves fs (checkDepth depth >>= q) c := by
  have hcheck : K.Gives fs (fun d _ => d = c) (Act.checkDepth depth) c := by
    unfold Gives
    rw [Law.checkDepth_eq]
    split
    · exact raise h _ _
    · exact .ok h (.refl c) rfl
  exact hcheck.bind fun _ d _ _ hd => hd ▸ hq

theorem callUnit {depth : Nat} {unit : CodeUnit} {scope : ScopeId} (h : K.good fs c)
    (hcode : K.good (unitFrame unit scope :: fs) c) : K.Moves fs (callUnit depth unit scope) c :=
  checkDepth h (openFrame hcode (fun _ => rfl) _)

/-- The bindings of an activation are made of what is in custody. -/
theorem firstValues {id : ClosureId} {args : List Value} (h : K.good fs c)
    (hid : K.held c (.closure id)) (hargs : ∀ v ∈ args, K.Has c v) (r : ScopeRecord)
    (names : List String) :
    K.Gives fs (fun d bs => ∀ b ∈ bs, K.Has d b.value) (names.mapM (firstValue r id args)) c := by
  induction names generalizing c with
  | nil => exact .pure h nofun
  | cons name names ih =>
    rw [List.mapM_cons]
    have hfirst : K.Gives fs (fun d b => K.Has d b.value) (firstValue r id args name) c := by
      unfold firstValue
      cases lastIndexOf? r.params name with
      | some i => exact .pure h (Value.within_getD fun v hv => hargs v (List.mem_of_getElem? hv))
      | none =>
        dsimp only
        split
        · exact (newObject h (Object.within_ofList hargs)).bind fun o _ hd _ ho =>
            .pure hd ((Value.within_object o).mpr ho)
        · split
          · exact .pure h ((Value.within_function id).mpr hid)
          · exact .pure h Value.within_undefined
    refine hfirst.bind fun b d hd hl hb => ?_
    refine Delivers.bind (ih hd (hl.held _ hid) (hl.all hargs)) fun bs e he hl' hbs => ?_
    refine .pure he fun b' hb' => ?_
    rcases List.mem_cons.mp hb' with rfl | hb'
    · exact hl'.has hb
    · exact hbs b' hb'

theorem activationScope {id : ClosureId} {r : ScopeRecord} {defining : ScopeId} {this : Value}
    {args : List Value} {q : ScopeId → Act Move} (h : K.good fs c) (hid : K.held c (.closure id))
    (hthis : K.Has c this) (hargs : ∀ v ∈ args, K.Has c v)
    (hscope : c.engine.links.scope? (c.heap.closures.get id).serial = some defining)
    (hr : (c.heap.closures.get id).unit.record? (c.heap.closures.get id).node.id = some r)
    (hq : ∀ scope d, K.good ((c.heap.closures.get id).frame r scope :: fs) d →
      K.Moves fs (q scope) d) :
    K.Moves fs (activationScope r id defining this args >>= q) c := by
  cases hc : r.requiresCapture with
  | false =>
    simp only [Act.activationScope, hc]
    exact hq defining c (K.share h hid hscope hr hc)
  | true =>
    obtain ⟨bindings, S, hnames, hvalues⟩ := Law.mapM_firstValue r id args r.bindings c
    have hmade : (r.bindings.mapM (firstValue r id args)) c = .ok bindings (c.withObjects S) :=
      hvalues c.heap.pendings c.engine.watch c.engine.suspensionCount c.engine.lastSuspension
    have hfirst := firstValues h hid hargs r r.bindings
    unfold Gives at hfirst
    rw [hmade] at hfirst
    have hopen : (Act.activationScope r id defining this args >>= q) c =
        q (c.heap.scopes.next defining.region)
          ((c.withObjects S).under defining r.name bindings this) := by
      simp only [Act.activationScope, hc, if_true, Bind.bind, EStateM.bind, hmade]
      rfl
    unfold Moves
    rw [hopen]
    cases hfirst with
    | ok hgood hl hbs =>
      obtain ⟨hscope', hgrow⟩ := K.capture hgood (hl.held _ hid) hscope hr hc hnames hbs
        (hl.has hthis)
      exact (hq _ _ hscope').since (hl.trans ⟨hgrow, rfl, rfl, rfl⟩)

theorem callClosure {depth : Nat} {id : ClosureId} {this : Value} {args : List Value}
    (h : K.good fs c) (hid : K.held c (.closure id)) (hthis : K.Has c this)
    (hargs : ∀ v ∈ args, K.Has c v) : K.Moves fs (callClosure depth id this args) c := by
  refine checkDepth h (Delivers.getting ?_)
  cases hscope : c.engine.links.scope? (c.heap.closures.get id).serial with
  | none =>
    refine .throw h ?_
    rcases K.called h hid with hfault | ⟨s, hs⟩
    · exact hfault _
    · rw [hscope] at hs
      cases hs
  | some defining =>
    dsimp only
    cases hr : (c.heap.closures.get id).unit.record? (c.heap.closures.get id).node.id with
    | none =>
      refine .throw h ?_
      rcases K.recorded h hid hscope with hfault | ⟨r, hr'⟩
      · exact hfault _ _ _
      · rw [hr] at hr'
        cases hr'
    | some r =>
      exact activationScope h hid hthis hargs hscope hr fun scope d hd =>
        openFrame hd (fun hb => by cases hb) _

/-! ## Calls -/

/-- Code can be opened in this scope. -/
def Admits (K : Custody) (fs : List Frame) (c : Core) (scope : ScopeId) : Prop :=
  ∀ source unit, CodeUnit.compile source (c.heap.visibleNames scope) = .ok unit →
    K.good (unitFrame unit scope :: fs) c

theorem evalCode {depth : Nat} {scope : ScopeId} {code : Value} (h : K.good fs c)
    (hcode : K.Has c code) (hscope : K.Admits fs c scope) :
    K.Moves fs (evalCode depth scope code) c := by
  unfold Act.evalCode
  cases code with
  | string source =>
    refine Delivers.reading ?_
    cases hunit : CodeUnit.compile source (c.heap.visibleNames scope) with
    | error e => exact raise h _ _
    | ok unit => exact callUnit h (hscope source unit hunit)
  | _ => exact .pure h ⟨hasAll_nil, fun v hv => List.mem_singleton.mp hv ▸ hcode⟩

/-- A move that goes on with one value. -/
theorem carries_value {v : Value} (hv : K.Has c v) : K.Carries fs c (.go [] (.value v)) :=
  ⟨hasAll_nil, fun _ hw => List.mem_singleton.mp hw ▸ hv⟩

theorem carries_checkpoint {v : Value} (hv : K.Has c v) :
    K.Carries fs c (.go [] (.checkpoint v)) :=
  ⟨hasAll_nil, fun _ hw => List.mem_singleton.mp hw ▸ hv⟩

/-- **A call keeps custody**, whatever is called. -/
theorem callValue {depth : Nat} {scope : ScopeId} {callee this : Value} {args : List Value}
    (h : K.good fs c) (hcallee : K.Has c callee) (hthis : K.Has c this)
    (hargs : ∀ v ∈ args, K.Has c v) (hscope : K.Admits fs c scope) :
    K.Moves fs (callValue depth scope callee this args) c := by
  unfold Act.callValue
  cases callee with
  | function id => exact callClosure h ((Value.within_function id).mp hcallee) hthis hargs
  | native id =>
    refine Delivers.getting ?_
    dsimp only
    split
    · exact evalCode h (within_arg hargs 0) hscope
    · refine Delivers.reading ?_
      exact (run h hthis hargs _).bind fun v _ hd _ hv => .pure hd (carries_value hv)
  | _ => exact typeError h _

theorem construct {depth : Nat} {callee : Value} {args : List Value} (h : K.good fs c)
    (hcallee : K.Has c callee) (hargs : ∀ v ∈ args, K.Has c v) :
    K.Moves fs (construct depth callee args) c := by
  unfold Act.construct
  cases callee with
  | function id =>
    have hid := (Value.within_function id).mp hcallee
    refine (prototypeOf h hid).bind fun proto d hd hl hp => ?_
    refine (newObject hd (Object.within_empty fun p hp' => ?_)).bind fun o e he hl' ho => ?_
    · cases hp'
      exact hp
    · have hl := hl.trans hl'
      have ho' : K.Has e (.object o) := (Value.within_object o).mpr ho
      refine (callClosure he (hl.held _ hid) ho' (hl.all hargs)).bind fun m g hg hl'' hm => ?_
      refine .pure (by rwa [Move.frames_pushing]) (hm.pushing (hasAll_one.mpr fun v hv => ?_))
      exact List.mem_singleton.mp hv ▸ hl''.has ho'
  | native id =>
    refine Delivers.reading ?_
    split
    · exact (run h Value.within_undefined hargs _).bind fun v _ hd _ hv =>
        .pure hd (carries_checkpoint hv)
    · exact Delivers.reading (typeError h _)
  | _ => exact Delivers.reading (typeError h _)

end Custody

end Fermata
