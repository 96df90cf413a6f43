import Fermata.Proofs.Custody.Open
import Fermata.Proofs.Machine.Running

/-!
# Steps of a machine keep custody

Everything that stands in a machine is in custody: the values of its control, of its continuations and
the scopes of its frames (`Custody.Safe`). A step hands values on, and gets new ones from acts that
deliver what is in custody.

* `Custody.startExpr`, `Custody.startStmt`, `Custody.receive`, `Custody.intercept`: the acts of a step.
* `Custody.step`: one step of a machine that somebody watches.
-/

namespace Fermata

open Act

namespace Custody

variable {K : Custody} {s : Site} {c d : Core} {fs : List Frame}

/-- Nothing is held with `undefined`. -/
theorem has_new {v : Value} (hv : v ∈ [Value.undefined]) : K.Has c v :=
  List.mem_singleton.mp hv ▸ Value.within_undefined

/-! ## Expressions -/

theorem give {v : Value} (h : K.good fs c) (hv : K.Has c v) : K.Moves fs (give v) c :=
  .pure h (carries_checkpoint hv)

theorem evalFor {k : Cont} (h : K.good fs c) (hk : ∀ v ∈ k.held, K.Has c v) (e : Expr) :
    K.Moves fs (evalFor k e) c :=
  .pure h ⟨hasAll_one.mpr hk, nofun⟩

theorem yields {v : Value} (h : K.good fs c) (hv : K.Has c v) : K.Moves fs (yields v) c :=
  .pure h (carries_value hv)

/-- Go on with a value and one more continuation. -/
theorem carries_for {k : Cont} {v : Value} (hk : ∀ w ∈ k.held, K.Has c w) (hv : K.Has c v) :
    K.Carries fs c (.go [k] (.checkpoint v)) :=
  ⟨hasAll_one.mpr hk, fun _ hw => List.mem_singleton.mp hw ▸ hv⟩

theorem readReference {ref : Reference} (h : K.good s.frames c) (href : ∀ v ∈ ref.held, K.Has c v) :
    K.GivesValue s.frames (readReference s ref) c := by
  cases ref with
  | binding name => exact getName h (K.scope h) name
  | property object key implicit => exact readMember h (href object List.mem_cons_self) key implicit

theorem writeReference {v : Value} (h : K.good s.frames c) (hv : K.Has c v) (ref : Reference) :
    K.Runs s.frames (writeReference s ref v) c := by
  cases ref with
  | binding name => exact setName h hv _ name
  | property object key implicit => exact setProperty h hv object key

theorem useReference {use : ReferenceUse} {ref : Reference} (h : K.good s.frames c)
    (huse : ∀ v ∈ use.held, K.Has c v) (href : ∀ v ∈ ref.held, K.Has c v) :
    K.Moves s.frames (useReference s use ref) c := by
  have hread : ∀ k : Cont, k.held = ref.held → K.Moves s.frames (do
      return .go [k] (.checkpoint (← Act.readReference s ref))) c := by
    intro k hk
    refine (readReference h href).bind fun v d hd hl hv => .pure hd (carries_for ?_ hv)
    rw [hk]
    exact hl.all href
  unfold Act.useReference
  cases use with
  | update op before => exact hread _ rfl
  | assign op value =>
    cases op with
    | plain => exact evalFor h (by exact href) value
    | compound op => exact hread _ rfl
    | logical op => exact hread _ rfl
  | delete =>
    cases ref with
    | binding name => exact give h (Value.within_bool _)
    | property object key implicit =>
      exact (deleteProperty h object key).bind fun _ _ hd _ hv => give hd hv
  | loopItem loop item =>
    refine (writeReference h (huse item List.mem_cons_self) ref).bind fun _ d hd hl _ => ?_
    refine .pure hd ⟨hasAll_one.mpr (hl.all fun v hv => huse v ?_), nofun⟩
    exact List.mem_cons_of_mem item hv

theorem useMember {use : MemberUse} {target : Value} (h : K.good s.frames c)
    (huse : ∀ v ∈ use.held, K.Has c v) (ht : K.Has c target) (key : String) :
    K.Moves s.frames (useMember s use target key) c := by
  have htarget : ∀ v ∈ [target], K.Has c v := fun _ hv => List.mem_singleton.mp hv ▸ ht
  unfold Act.useMember
  cases use with
  | read implicit => exact (readMember h ht key implicit).bind fun _ _ hd _ hv => give hd hv
  | callee implicit args =>
    exact (readMember h ht key implicit).bind fun v d hd hl hv =>
      .pure hd (carries_for (hl.all htarget) hv)
  | probe arg =>
    refine Delivers.reading ?_
    split
    · exact give h (Value.within_string _)
    · exact evalFor h (by nofun) arg
  | refer implicit use => exact useReference h (by exact huse) htarget

theorem startKey {use : MemberUse} {target : Value} (h : K.good s.frames c)
    (huse : ∀ v ∈ use.held, K.Has c v) (ht : K.Has c target) (key : MemberKey) :
    K.Moves s.frames (startKey s use target key) c := by
  cases key with
  | named name => exact useMember h huse ht name
  | computed e =>
    refine evalFor h (fun v hv => ?_) e
    rcases List.mem_cons.mp hv with rfl | hv
    · exact ht
    · exact huse v hv

theorem startReference {use : ReferenceUse} (h : K.good s.frames c)
    (huse : ∀ v ∈ use.held, K.Has c v) (target : Expr) :
    K.Moves s.frames (startReference s use target) c := by
  unfold Act.startReference
  split
  · exact useReference h huse (by nofun)
  · exact evalFor h (by exact huse) _
  · exact raise h _ _

theorem useList {use : ListUse} {values : List Value} (h : K.good s.frames c)
    (huse : ∀ v ∈ use.held, K.Has c v) (hvalues : ∀ v ∈ values, K.Has c v) :
    K.Moves s.frames (useList s use values) c := by
  unfold Act.useList
  cases use with
  | array =>
    exact (newObject h (Object.within_ofList hvalues)).bind fun o _ hd _ ho =>
      give hd ((Value.within_object o).mpr ho)
  | call callee this =>
    dsimp only
    split
    · have hcallee : K.Has c callee := huse callee List.mem_cons_self
      have hthis : K.Has c this := huse this (List.mem_cons_of_mem _ List.mem_cons_self)
      have hadmits : K.Admits s.frames c s.scope := fun _ _ hunit => K.code h hunit
      refine (callValue h hcallee hthis hvalues hadmits).bind fun m d hd _ hm => ?_
      exact .pure (by rwa [Move.frames_pushing]) (hm.pushing (hasAll_one.mpr nofun))
    · exact typeError h _
  | construct callee => exact evalFor h (by exact hvalues) callee

theorem startList {use : ListUse} {before : List Value} (h : K.good s.frames c)
    (huse : ∀ v ∈ use.held, K.Has c v) (hbefore : ∀ v ∈ before, K.Has c v) (es : List Expr) :
    K.Moves s.frames (startList s use before es) c := by
  cases es with
  | nil => exact useList h huse fun v hv => hbefore v (List.mem_reverse.mp hv)
  | cons e rest =>
    refine evalFor h (fun v hv => ?_) e
    rcases List.mem_append.mp hv with hv | hv
    · exact huse v hv
    · exact hbefore v hv

theorem startProperties {object : ObjectId} (h : K.good fs c) (ho : K.held c (.object object))
    (ps : List PropertyDef) : K.Moves fs (startProperties object ps) c := by
  have hv : K.Has c (.object object) := (Value.within_object object).mpr ho
  cases ps with
  | nil => exact give h hv
  | cons p rest => exact evalFor h (by exact fun _ hw => List.mem_singleton.mp hw ▸ hv) p.value

theorem startSequence {last : Value} (h : K.good fs c) (hlast : K.Has c last) (es : List Expr) :
    K.Moves fs (startSequence last es) c := by
  cases es with
  | nil => exact give h hlast
  | cons e rest => exact evalFor h (by nofun) e

theorem startDelete (h : K.good s.frames c) (arg : Expr) :
    K.Moves s.frames (startDelete s arg) c := by
  unfold Act.startDelete
  split
  · exact startReference h (by nofun) _
  · exact give h (Value.within_bool _)
  · exact evalFor h (by exact fun _ hv => List.mem_singleton.mp hv ▸ Value.within_bool _) _

theorem startTypeOf (h : K.good fs c) (arg : Expr) : K.Moves fs (startTypeOf arg) c := by
  unfold Act.startTypeOf
  split
  · exact evalFor h (by nofun) _
  · exact evalFor h (by nofun) _

/-- A function literal must be one of the frame's record. -/
theorem startExpr {e : Expr} (h : K.good s.frames c)
    (he : ∀ span fn, e = .function span fn → K.literal s.frame.unit s.frame.record fn.id) :
    K.Moves s.frames (startExpr s e) c := by
  unfold Act.startExpr
  split
  case h_5 => exact startList h (by nofun) (by nofun) _
  case h_6 =>
    exact (newObject h Object.within_empty_none).bind fun o _ hd _ ho => startProperties hd ho _
  case h_7 => exact (getName h (K.scope h) _).bind fun _ _ hd _ hv => give hd hv
  case h_8 => exact Delivers.reading (give h (thisValue h (K.scope h)))
  case h_9 =>
    refine (instantiate h (he _ _ rfl)).bind fun r d hd _ hr => .pure hd ⟨?_, ?_⟩
    · exact (Value.within_function r.1).mpr hr.1
    · intro f hf
      cases hf
      exact hr.2
  case h_13 => exact startList h (by nofun) (by nofun) _
  case h_14 => exact startTypeOf h _
  case h_15 => exact startDelete h _
  case h_18 => exact startReference h (by nofun) _
  case h_21 => exact startReference h (by nofun) _
  case h_23 => exact startSequence h Value.within_undefined _
  case h_16 => exact evalFor h (by exact fun _ hv => has_new hv) _
  all_goals first
    | exact give h (Value.within_plain rfl)
    | exact evalFor h (by nofun) _

/-! ## Statements -/

theorem enterBody {l : Loop} (h : K.good fs c) (hl : ∀ v ∈ l.held, K.Has c v) :
    K.Moves fs l.enterBody c :=
  .pure h ⟨hasAll_one.mpr hl, nofun⟩

theorem last {l : Loop} (hl : ∀ v ∈ l.held, K.Has c v) : K.Has c l.last := hl _ List.mem_cons_self

theorem round {l : Loop} (h : K.good s.frames c) (hl : ∀ v ∈ l.held, K.Has c v) :
    K.Moves s.frames (l.round s) c := by
  obtain ⟨kind, body, labels, last⟩ := l
  have hlast : K.Has c last := Custody.last hl
  unfold Loop.round
  cases kind with
  | whileLoop test => exact evalFor h (by exact hl) test
  | doLoop test => exact enterBody h hl
  | forLoop test update =>
    cases test with
    | some test => exact evalFor h (by exact hl) test
    | none => exact enterBody h hl
  | forEach target items =>
    cases items with
    | nil => exact yields h hlast
    | cons item items =>
      have hitem : K.Has c item := hl item (List.mem_cons_of_mem _ List.mem_cons_self)
      have hrest : ∀ v ∈ (⟨.forEach target items, body, labels, last⟩ : Loop).held, K.Has c v := by
        intro v hv
        rcases List.mem_cons.mp hv with rfl | hv
        · exact hlast
        · exact hl v (List.mem_cons_of_mem _ (List.mem_cons_of_mem _ hv))
      cases target with
      | declare kind name =>
        exact (setName h hitem _ name).bind fun _ d hd hl' _ => enterBody hd (hl'.all hrest)
      | expression e =>
        refine startReference h (fun v hv => ?_) e
        rcases List.mem_cons.mp hv with rfl | hv
        · exact hitem
        · exact hrest v hv

theorem afterTest {l : Loop} (h : K.good s.frames c) (hl : ∀ v ∈ l.held, K.Has c v) (v : Value) :
    K.Moves s.frames (l.afterTest s v) c := by
  unfold Loop.afterTest
  split
  · exact yields h (last hl)
  · split
    · exact round h hl
    · exact enterBody h hl

theorem afterBody {l : Loop} (h : K.good s.frames c) (hl : ∀ v ∈ l.held, K.Has c v) :
    K.Moves s.frames (l.afterBody s) c := by
  unfold Loop.afterBody
  split
  · exact evalFor h (by exact hl) _
  · exact evalFor h (by exact hl) _
  · exact round h hl

theorem absorb {l : Loop} {x : Abrupt} (h : K.good s.frames c) (hl : ∀ v ∈ l.held, K.Has c v)
    (hx : K.Bears c x) : K.Moves s.frames (l.absorb s x) c := by
  unfold Loop.absorb
  split
  · split
    · exact yields h (last hl)
    · exact .throw h hx
  · split
    · exact afterBody h hl
    · exact .throw h hx
  · exact .throw h hx

theorem startDeclarations {after : DeclareEnd} (h : K.good s.frames c)
    (hafter : ∀ v ∈ after.held, K.Has c v) (ds : List VarDecl) :
    K.Moves s.frames (startDeclarations s after ds) c := by
  induction ds with
  | nil =>
    cases after with
    | done => exact yields h Value.within_undefined
    | loop l => exact round h hafter
  | cons d rest ih =>
    unfold Act.startDeclarations
    split
    · exact evalFor h (by exact hafter) _
    · exact ih

theorem startStatements {last : Value} (h : K.good fs c) (hlast : K.Has c last) (ts : List Stmt) :
    K.Moves fs (startStatements last ts) c := by
  cases ts with
  | nil => exact yields h hlast
  | cons t rest => exact .pure h ⟨hasAll_one.mpr nofun, nofun⟩

theorem startFor {l : Loop} (h : K.good s.frames c) (hl : ∀ v ∈ l.held, K.Has c v)
    (init : Option ForInit) : K.Moves s.frames (startFor s init l) c := by
  unfold Act.startFor
  split
  · exact startDeclarations h (by exact hl) _
  · exact evalFor h (by exact hl) _
  · exact round h hl

theorem startStmt (h : K.good s.frames c) (t : Stmt) (labels : List String) :
    K.Moves s.frames (startStmt s t labels) c := by
  unfold Act.startStmt
  cases t with
  | expression span e => exact .pure h ⟨hasAll_nil, nofun⟩
  | declare span ds => exact startDeclarations h (by nofun) ds
  | function | empty => exact yields h Value.within_undefined
  | ret span e =>
    cases e with
    | none => exact .throw h Value.within_undefined
    | some e => exact evalFor h (by nofun) e
  | cond span test yes no => exact evalFor h (by nofun) test
  | whileLoop | doLoop => exact round h fun _ hv => has_new hv
  | forLoop span init test update body => exact startFor h (by exact fun _ hv => has_new hv) init
  | forEach span kind target source body => exact evalFor h (by nofun) source
  | leave | next => exact .throw h trivial
  | raise span e => exact evalFor h (by nofun) e
  | guarded span body handler finalizer => exact .throw h (K.unsupported _)
  | labeled span label body => exact .pure h ⟨hasAll_one.mpr nofun, nofun⟩
  | block span body => exact startStatements h Value.within_undefined body

/-! ## Continuations -/

theorem assign {v : Value} (h : K.good s.frames c) (hv : K.Has c v) (ref : Reference) :
    K.Moves s.frames (assign s ref v) c :=
  (writeReference h hv ref).bind fun _ _ hd hl _ => give hd (hl.has hv)

theorem receive {k : Cont} {v : Value} (h : K.good s.frames c) (hk : ∀ w ∈ k.held, K.Has c w)
    (hv : K.Has c v) : K.Moves s.frames (receive s k v) c := by
  have hvalue : ∀ w ∈ [v], K.Has c w := fun _ hw => List.mem_singleton.mp hw ▸ hv
  unfold Act.receive
  cases k with
  | settle => exact give h hv
  | element use before rest =>
    obtain ⟨huse, hbefore⟩ := List.forall_mem_append.mp hk
    refine startList h huse (fun w hw => ?_) rest
    rcases List.mem_cons.mp hw with rfl | hw
    · exact hv
    · exact hbefore w hw
  | property object key rest =>
    have ho := (Value.within_object object).mp (hk _ List.mem_cons_self)
    exact (set h hv object key).bind fun _ _ hd hl _ => startProperties hd (hl.held _ ho) rest
  | memberTarget key use => exact startKey h hk hv key
  | memberKey target use =>
    obtain ⟨ht, huse⟩ := List.forall_mem_cons.mp hk
    exact Delivers.reading (useMember h huse ht _)
  | callee args =>
    refine startList h (fun w hw => ?_) (by nofun) args
    rcases List.mem_cons.mp hw with rfl | hw
    · exact hv
    · exact has_new hw
  | method receiver args =>
    refine startList h (fun w hw => ?_) (by nofun) args
    rcases List.mem_cons.mp hw with rfl | hw
    · exact hv
    · exact hk w hw
  | constructed args => exact construct h hv hk
  | made object =>
    refine give h ?_
    split
    · exact hv
    · exact hk _ List.mem_cons_self
  | typeOf => exact give h (Value.within_string _)
  | instead result => exact give h (hk result List.mem_cons_self)
  | unary op => exact Delivers.reading (give h (unary c.heap op v))
  | binaryLeft op right => exact evalFor h (by exact hvalue) right
  | binaryRight op left => exact (binary h hv op left).bind fun _ _ hd _ hw => give hd hw
  | logicalLeft op right =>
    dsimp only
    split
    · exact give h hv
    · exact evalFor h (by nofun) right
  | choose yes no => exact evalFor h (by nofun) _
  | sequence rest => exact startSequence h hv rest
  | updateOld ref op before =>
    refine Delivers.reading ?_
    exact (writeReference h (Value.within_number _) ref).bind fun _ _ hd _ _ =>
      give hd (Value.within_number _)
  | assignValue ref => exact assign h hv ref
  | compoundOld ref op value =>
    refine evalFor h (fun w hw => ?_) value
    rcases List.mem_cons.mp hw with rfl | hw
    · exact hv
    · exact hk w hw
  | compoundValue ref op old =>
    exact (binary h hv op old).bind fun _ _ hd _ hw => assign hd hw ref
  | logicalOld ref op value =>
    dsimp only
    split
    · exact give h hv
    · exact evalFor h (by exact hk) value
  | body rest => exact startStatements h hv rest
  | declare name rest after =>
    exact (setName h hv _ name).bind fun _ _ hd hl _ => startDeclarations hd (hl.all hk) rest
  | ret => exact .throw h hv
  | raise => exact .throw h hv
  | cond yes no =>
    dsimp only
    split
    · exact .pure h ⟨hasAll_nil, nofun⟩
    · cases no with
      | some t => exact .pure h ⟨hasAll_nil, nofun⟩
      | none => exact yields h Value.within_undefined
  | loopInit l | loopUpdate l => exact round h hk
  | loopTest l => exact afterTest h hk v
  | loopBody l =>
    refine afterBody h fun w hw => ?_
    rcases List.mem_cons.mp hw with rfl | hw
    · exact hv
    · exact hk w (List.mem_cons_of_mem _ hw)
  | eachSource kind target body labels =>
    refine (loopItems h hv kind).bind fun items d hd _ hitems => round hd fun w hw => ?_
    rcases List.mem_cons.mp hw with rfl | hw
    · exact Value.within_undefined
    · exact hitems w hw
  | labeled label => exact yields h hv

theorem intercept {k : Cont} {x : Abrupt} (h : K.good s.frames c) (hk : ∀ w ∈ k.held, K.Has c w)
    (hx : K.Bears c x) : K.Moves s.frames (intercept s k x) c := by
  unfold Act.intercept
  split
  · exact absorb h hk hx
  · split
    · exact yields h Value.within_undefined
    · exact .throw h hx
  · exact .throw h hx

/-! ## Machines -/

/-- The core is in order, and everything in the machine is in custody. -/
structure Safe (K : Custody) (m : Machine) (c : Core) : Prop where
  good : K.good m.frames c
  stack : ∀ a ∈ m.stack, K.HasActivation c a
  control : K.HasControl c m.control

/-- Where a step of a machine leads. A step that stands stands at an unsettled pending value, and
changes nothing but the watch. -/
inductive Steps (K : Custody) (m : Machine) (c : Core) : Progress × Core → Prop
  | running {m' d} : K.Safe m' d → K.Later c d → Steps K m c (.running m', d)
  | parked {p} : m.control = .checkpoint (.pending p) →
      (c.heap.pendings.get p).settlement? = none →
      K.Safe ⟨.waiting p, m.stack⟩ (c.watching .triggered) →
      Steps K m c (.parked ⟨.waiting p, m.stack⟩ p, c.watching .triggered)
  | done {outcome} : K.good [] c → (∀ v, outcome = .ok v → K.Has c v) →
      (∀ x, outcome = .error x → K.Bears c x) → Steps K m c (.done outcome, c)

theorem Safe.tail {control : Control} {a : Activation} {callers : List Activation}
    (h : K.Safe ⟨control, a :: callers⟩ c) {control' : Control} (hc : K.HasControl c control') :
    K.Safe ⟨control', callers⟩ c :=
  ⟨K.close h.good, fun b hb => h.stack b (List.mem_cons_of_mem a hb), hc⟩

theorem safe_perform {a : Activation} {callers : List Activation} {p : Act Move}
    (ha : K.HasActivation c a) (hcallers : ∀ b ∈ callers, K.HasActivation c b) {m : Machine}
    (hp : K.Moves (a.frame :: callers.map Activation.frame) p c) :
    K.Steps m c (Machine.perform a callers p c) := by
  unfold Machine.perform
  unfold Moves at hp
  generalize p c = r at hp
  have hstack : ∀ {d : Core} {ks : List Cont}, K.Later c d → K.HasAll d ks →
      ∀ b ∈ a.pushing ks :: callers, K.HasActivation d b := by
    intro d ks hl hks b hb
    rcases List.mem_cons.mp hb with rfl | hb
    · exact ⟨hasAll_append.mpr ⟨hks, hl.hasAll ha.1⟩, ha.2⟩
    · exact hl.activation (hcallers b hb)
  cases hp with
  | @ok move d hgood hl hmove =>
    refine .running ⟨?_, ?_, ?_⟩ hl
    · rw [Law.frames_apply]
      exact hgood
    · cases move with
      | go push control => exact hstack hl hmove.1
      | linked frame v =>
        intro b hb
        rcases List.mem_cons.mp hb with rfl | hb
        · exact ⟨hl.hasAll ha.1, fun hu => (hmove.2 a.frame rfl).record.trans (ha.2 hu)⟩
        · exact hl.activation (hcallers b hb)
      | enter push inner control =>
        intro b hb
        rcases List.mem_cons.mp hb with rfl | hb
        · exact hmove.2.1
        · exact hstack hl hmove.1 b hb
    · cases move with
      | go push control => exact hmove.2
      | linked frame v => exact fun _ hw => List.mem_singleton.mp hw ▸ hmove.1
      | enter push inner control => exact hmove.2.2
  | @error x d hgood hl hx =>
    refine .running ⟨hgood, fun b hb => ?_, hx⟩ hl
    rcases List.mem_cons.mp hb with rfl | hb
    · exact hl.activation ha
    · exact hl.activation (hcallers b hb)

theorem hasControl_close {b : Boundary} {end_ : Outcome} (hv : ∀ v, end_ = .ok v → K.Has c v)
    (hx : ∀ x, end_ = .error x → K.Bears c x) : K.HasControl c (Machine.close b end_) := by
  cases end_ with
  | ok v =>
    cases b with
    | unit => exact fun _ hw => List.mem_singleton.mp hw ▸ hv v rfl
    | function name => exact fun _ hw => has_new hw
  | error x =>
    have hx := hx x rfl
    cases b with
    | unit => exact hx
    | function name =>
      cases x with
      | ret v => exact fun _ hw => List.mem_singleton.mp hw ▸ hx
      | leave label | next label => exact K.escaped name
      | thrown v => exact hx
      | fault f => exact hx

/-- The checkpoint of a value in custody, while somebody watches. -/
theorem step_checkpoint {v : Value} {a : Activation} {callers : List Activation}
    (h : K.Safe ⟨.checkpoint v, a :: callers⟩ c) (hwatch : c.engine.watch = .armed) :
    K.Steps ⟨.checkpoint v, a :: callers⟩ c (Machine.step ⟨.checkpoint v, a :: callers⟩ c) := by
  have hv : K.Has c v := h.control v List.mem_cons_self
  cases v with
  | pending id =>
    have hid : K.held c (.pending id) := (Value.within_pending id).mp hv
    unfold Machine.step
    dsimp only
    unfold Act.pass
    dsimp only
    rw [reads_bind]
    cases hs : (c.heap.pendings.get id).settlement? with
    | some settlement =>
      have hvalue : K.Has c settlement.value := by
        refine Cell.forall_ofValues.mp (K.content h.good hid) _ ?_
        cases hp : c.heap.pendings.get id with
        | settled t =>
          rw [hp] at hs
          cases hs
          exact List.mem_cons_self
        | _ =>
          rw [hp] at hs
          cases hs
      cases settlement with
      | fulfilled w =>
        exact .running ⟨h.good, h.stack, fun _ hw => List.mem_singleton.mp hw ▸ hvalue⟩ (.refl c)
      | rejected reason => exact .running ⟨h.good, h.stack, hvalue⟩ (.refl c)
    | none =>
      dsimp only
      rw [touch_bind, hwatch]
      obtain ⟨hgood, hgrow⟩ := K.apart h.good .triggered c.engine.suspensionCount
        c.engine.lastSuspension
      refine .parked rfl hs ⟨hgood, fun b hb => ?_, fun w hw => ?_⟩
      · have hb := h.stack b hb
        exact ⟨fun w hw => (hb.1 w hw).mono hgrow, hb.2⟩
      · exact (h.control w hw).mono hgrow
  | _ => exact .running ⟨h.good, h.stack, h.control⟩ (.refl c)

/-- **A step keeps custody** of a machine that does not wait, while somebody watches. -/
theorem step {m : Machine} (h : K.Safe m c) (hwatch : c.engine.watch = .armed)
    (hwaits : ∀ p, m.control ≠ .waiting p)
    (hliteral : ∀ a callers span fn, m = ⟨.eval (.function span fn), a :: callers⟩ →
      K.literal a.frame.unit a.frame.record fn.id) : K.Steps m c (m.step c) := by
  obtain ⟨control, stack⟩ := m
  cases stack with
  | nil =>
    cases control with
    | value v =>
      refine .done h.good (fun w hw => ?_) nofun
      cases hw
      exact h.control v List.mem_cons_self
    | abrupt x =>
      refine .done h.good nofun fun y hy => ?_
      cases hy
      exact h.control
    | waiting p => exact absurd rfl (hwaits p)
    | _ =>
      refine .done h.good nofun fun y hy => ?_
      cases hy
      exact K.stranded
  | cons a callers =>
    have ha := h.stack a List.mem_cons_self
    have hcallers : ∀ b ∈ callers, K.HasActivation c b := fun b hb =>
      h.stack b (List.mem_cons_of_mem a hb)
    cases control with
    | eval e =>
      refine safe_perform (a := a.mark e.span) ha hcallers
        (startExpr (s := ⟨_, callers⟩) (K.mark h.good _) fun span fn he => ?_)
      subst he
      exact hliteral a callers span fn rfl
    | exec t labels =>
      exact safe_perform (a := a.mark t.span) ha hcallers
        (startStmt (s := ⟨_, callers⟩) (K.mark h.good _) t labels)
    | checkpoint v => exact step_checkpoint h hwatch
    | waiting p => exact absurd rfl (hwaits p)
    | value v =>
      have hv : K.Has c v := h.control v List.mem_cons_self
      obtain ⟨frame, boundary, conts⟩ := a
      cases conts with
      | nil =>
        refine .running (h.tail (hasControl_close (fun w hw => ?_) nofun)) (.refl c)
        cases hw
        exact hv
      | cons k conts =>
        obtain ⟨hk, hconts⟩ := List.forall_mem_append.mp ha.1
        exact safe_perform (a := ⟨frame, boundary, conts⟩) ⟨hconts, ha.2⟩ hcallers
          (receive (s := ⟨frame, callers⟩) h.good hk hv)
    | abrupt x =>
      have hx : K.Bears c x := h.control
      obtain ⟨frame, boundary, conts⟩ := a
      cases conts with
      | nil =>
        refine .running (h.tail (hasControl_close nofun fun y hy => ?_)) (.refl c)
        cases hy
        exact hx
      | cons k conts =>
        obtain ⟨hk, hconts⟩ := List.forall_mem_append.mp ha.1
        exact safe_perform (a := ⟨frame, boundary, conts⟩) ⟨hconts, ha.2⟩ hcallers
          (intercept (s := ⟨frame, callers⟩) h.good hk hx)

/-- A machine that starts with a call is safe. -/
theorem start {p : Act Move} (hp : K.Moves [] p c) :
    K.Safe (Machine.start p c).1 (Machine.start p c).2 ∧ K.Later c (Machine.start p c).2 := by
  unfold Machine.start
  unfold Moves at hp
  generalize p c = r at hp
  cases hp with
  | @ok move d hgood hl hmove =>
    refine ⟨?_, ?_⟩
    · cases move with
      | go push control => exact ⟨hgood, nofun, hmove.2⟩
      | linked frame v =>
        exact ⟨K.close hgood, nofun, fun _ hw => List.mem_singleton.mp hw ▸ hmove.1⟩
      | enter push a control =>
        exact ⟨hgood, fun b hb => List.mem_singleton.mp hb ▸ hmove.2.1, hmove.2.2⟩
    · cases move <;> exact hl
  | error hgood hl hx => exact ⟨⟨hgood, nofun, hx⟩, hl⟩

end Custody

end Fermata
