import Fermata.Proofs.Realm.Open
import Fermata.Proofs.Suspension.Lockstep

/-!
# Steps of a machine, on two cores

Two machines in the same state on cores that an evaluation cannot tell apart go on to the same state on
such cores. What stands in a machine is in sight (`Realm.Safe`), and a step hands values on or gets new
ones from acts that do the same on both cores.

* `Realm.startExpr`, `Realm.startStmt`, `Realm.receive`, `Realm.intercept`: the acts of a step.
* `Machine.copied`: the values that a step puts into cells although they did not pass the checkpoint.
* `Realm.step`: one step of a machine that somebody watches.
-/

namespace Fermata

open Act

namespace Realm

variable {K : Realm} {s : Site} {c c' d d' : Core} {v w : Value}

/-! ## Expressions -/

/-- The values that are kept may be held, and the items may be put into cells. -/
structure Ready (K : Realm) (c : Core) (kept items : List Value) : Prop where
  kept : ∀ v ∈ kept, K.Has c v
  items : ∀ v ∈ items, K.Puts c v

theorem Ready.nil : K.Ready c [] [] := ⟨nofun, nofun⟩

theorem Ready.later {kept items : List Value} (h : K.Ready c kept items) (hl : K.Later c c') :
    K.Ready c' kept items :=
  ⟨fun v hv => hl.has (h.kept v hv), fun v hv => hl.puts (h.items v hv)⟩

theorem Ready.cont {k : Cont} (h : K.Ready c k.kept k.items) : K.HasCont c k :=
  ⟨h.kept, fun v hv => K.lists_of_puts (h.items v hv)⟩

theorem Ready.cons {kept items : List Value} (hv : K.Has c v) (h : K.Ready c kept items) :
    K.Ready c (v :: kept) items :=
  ⟨List.forall_mem_cons.mpr ⟨hv, h.kept⟩, h.items⟩

theorem Ready.of_kept {kept : List Value} (h : ∀ v ∈ kept, K.Has c v) : K.Ready c kept [] :=
  ⟨h, nofun⟩

theorem Ready.one (hv : K.Has c v) : K.Ready c [v] [] := .cons hv .nil

theorem carries_go {k : Cont} {control : Control} (hk : K.Ready c k.kept k.items)
    (hcontrol : K.HasControl c [k] control) : K.Carries c (.go [k] control) :=
  ⟨fun _ hj => List.mem_singleton.mp hj ▸ hk.cont, hcontrol⟩

theorem give (h : K.rel c d) (hv : K.Meets c v) : K.Moves (give v) c d :=
  .pure h (carries_checkpoint hv)

theorem evalFor {k : Cont} (h : K.rel c d) (hk : K.Ready c k.kept k.items) (e : Expr) :
    K.Moves (evalFor k e) c d :=
  .pure h (carries_go hk trivial)

theorem yields (h : K.rel c d) (hv : K.Has c v) : K.Moves (yields v) c d :=
  .pure h ⟨List.forall_mem_nil _, .inl hv⟩

theorem readReference {ref : Reference} (h : K.rel c d) (hs : (K.sight c).held (.scope s.scope))
    (href : ∀ v ∈ ref.held, K.Has c v) : K.GivesMet (readReference s ref) c d := by
  cases ref with
  | binding name => exact getName h hs name
  | property object key implicit =>
    exact readMember h (K.meets_of_has (href object List.mem_cons_self)) key implicit

theorem writeReference {ref : Reference} (h : K.rel c d) (hs : (K.sight c).held (.scope s.scope))
    (href : ∀ v ∈ ref.held, K.Has c v) (hv : K.Puts c v) :
    K.Runs (writeReference s ref v) c d := by
  cases ref with
  | binding name => exact setName h hs hv name
  | property object key implicit =>
    exact setProperty h (K.meets_of_has (href object List.mem_cons_self)) hv key

theorem useReference {use : ReferenceUse} {ref : Reference} (h : K.rel c d)
    (hs : (K.sight c).held (.scope s.scope)) (huse : K.Ready c use.kept use.items)
    (href : ∀ v ∈ ref.held, K.Has c v) : K.Moves (useReference s use ref) c d := by
  have hread : ∀ k : Cont, k.kept = ref.held → k.items = [] → K.Moves (do
      return .go [k] (.checkpoint (← Act.readReference s ref))) c d := by
    intro k hk hi
    refine (readReference h hs href).bind fun v c' d' h' hl hv => .pure h' (carries_go ?_ hv)
    rw [hk, hi]
    exact .of_kept fun v hv => hl.has (href v hv)
  unfold Act.useReference
  cases use with
  | update op before => exact hread _ rfl rfl
  | assign op value =>
    cases op with
    | plain => exact evalFor h (by exact .of_kept href) value
    | compound op => exact hread _ rfl rfl
    | logical op => exact hread _ rfl rfl
  | delete =>
    cases ref with
    | binding name => exact give h (Value.within_bool _)
    | property object key implicit =>
      exact (deleteProperty h (K.meets_of_has (href object List.mem_cons_self)) key).bind
        fun _ _ _ h' _ hv => give h' (K.meets_of_has hv)
  | loopItem loop item =>
    obtain ⟨hitem, hitems⟩ := List.forall_mem_cons.mp huse.items
    have hloop : K.Ready c [loop.last] loop.items := ⟨huse.kept, hitems⟩
    exact (writeReference h hs href hitem).bind fun _ _ _ h' hl _ =>
      .pure h' (carries_go (hloop.later hl) trivial)

theorem useMember {use : MemberUse} (h : K.rel c d) (hs : (K.sight c).held (.scope s.scope))
    (huse : K.Ready c use.kept use.items) (hv : K.Has c v) (key : String) :
    K.Moves (useMember s use v key) c d := by
  have hmet := K.meets_of_has hv
  unfold Act.useMember
  cases use with
  | read implicit =>
    exact (readMember h hmet key implicit).bind fun _ _ _ h' _ hw => give h' hw
  | callee implicit args =>
    exact (readMember h hmet key implicit).bind fun w _ _ h' hl hw =>
      .pure h' (carries_go (.one (hl.has hv)) hw)
  | probe arg =>
    refine Gives.reading (lacks h hmet key) ?_
    split
    · exact give h (Value.within_string _)
    · exact evalFor h .nil arg
  | refer implicit use =>
    exact useReference h hs huse fun w hw => List.mem_singleton.mp hw ▸ hv

theorem startKey {use : MemberUse} (h : K.rel c d) (hs : (K.sight c).held (.scope s.scope))
    (huse : K.Ready c use.kept use.items) (hv : K.Has c v) (key : MemberKey) :
    K.Moves (startKey s use v key) c d := by
  cases key with
  | named name => exact useMember h hs huse hv name
  | computed e => exact evalFor h (by exact .cons hv huse) e

theorem startReference {use : ReferenceUse} (h : K.rel c d)
    (hs : (K.sight c).held (.scope s.scope)) (huse : K.Ready c use.kept use.items) (target : Expr) :
    K.Moves (startReference s use target) c d := by
  unfold Act.startReference
  split
  · exact useReference h hs huse nofun
  · exact evalFor h (by exact huse) _
  · exact raise h _ _

theorem useList {use : ListUse} {values : List Value} (h : K.rel c d)
    (hs : (K.sight c).held (.scope s.scope)) (huse : ∀ v ∈ use.held, K.Has c v)
    (hcopies : ∀ v ∈ use.copies c.heap, K.Puts c v) (hvalues : ∀ v ∈ values, K.Has c v) :
    K.Moves (useList s use values) c d := by
  have hputs : ∀ v ∈ values, K.Puts c v := fun v hv => K.puts_of_has (hvalues v hv)
  unfold Act.useList
  cases use with
  | array =>
    exact (newObject h (Object.stores_ofList hputs) nofun).bind fun o _ _ h' _ ho =>
      give h' (K.meets_of_has ((Value.within_object o).mpr ho))
  | call callee this =>
    have hcallee : K.Has c callee := huse callee List.mem_cons_self
    have hthis : K.Has c this := huse this (List.mem_cons_of_mem _ List.mem_cons_self)
    dsimp only
    split
    · exact (callValue h hs (K.meets_of_has hcallee) (K.puts_of_has hthis) hputs hcopies).bind
        fun m _ _ h' _ hm => .pure h' hm.settling
    · exact typeError h _
  | construct callee => exact evalFor h (by exact .of_kept hvalues) callee

theorem startList {use : ListUse} {before : List Value} {es : List Expr} (h : K.rel c d)
    (hs : (K.sight c).held (.scope s.scope)) (huse : ∀ v ∈ use.held, K.Has c v)
    (hbefore : ∀ v ∈ before, K.Has c v)
    (hcopies : es = [] → ∀ v ∈ use.copies c.heap, K.Puts c v) :
    K.Moves (startList s use before es) c d := by
  cases es with
  | nil => exact useList h hs huse (hcopies rfl) fun v hv => hbefore v (List.mem_reverse.mp hv)
  | cons e rest => exact evalFor h (by exact .of_kept (List.forall_mem_append.mpr ⟨huse, hbefore⟩)) e

theorem startProperties {object : ObjectId} (h : K.rel c d)
    (ho : (K.sight c).held (.object object)) (ps : List PropertyDef) :
    K.Moves (startProperties object ps) c d := by
  have hv : K.Has c (.object object) := (Value.within_object object).mpr ho
  cases ps with
  | nil => exact give h (K.meets_of_has hv)
  | cons p rest => exact evalFor h (by exact .one hv) p.value

theorem startSequence {last : Value} (h : K.rel c d) (hlast : K.Has c last) (es : List Expr) :
    K.Moves (startSequence last es) c d := by
  cases es with
  | nil => exact give h (K.meets_of_has hlast)
  | cons e rest => exact evalFor h .nil e

theorem startDelete (h : K.rel c d) (hs : (K.sight c).held (.scope s.scope)) (arg : Expr) :
    K.Moves (startDelete s arg) c d := by
  unfold Act.startDelete
  split
  · exact startReference h hs .nil _
  · exact give h (Value.within_bool _)
  · exact evalFor h (.one (Value.within_bool _)) _

theorem startTypeOf (h : K.rel c d) (arg : Expr) : K.Moves (startTypeOf arg) c d := by
  unfold Act.startTypeOf
  split
  · exact evalFor h .nil _
  · exact evalFor h .nil _

theorem startExpr (h : K.rel c d) (hs : (K.sight c).held (.scope s.scope)) (e : Expr) :
    K.Moves (startExpr s e) c d := by
  have hnone : ∀ {vs : List Value} {P : Value → Prop}, vs = [] → ∀ v ∈ vs, P v := by
    rintro vs P rfl
    exact List.forall_mem_nil _
  unfold Act.startExpr
  split
  case h_5 => exact startList h hs (hnone rfl) (hnone rfl) fun _ => hnone rfl
  case h_6 =>
    exact (newObject h (Object.stores_empty none) fun _ hp => by cases hp).bind fun o _ _ h' _ ho =>
      startProperties h' ho _
  case h_7 => exact (getName h hs _).bind fun _ _ _ h' _ hv => give h' hv
  case h_8 =>
    refine Gives.reading ?_ (give h ((K.agree h).meets_this hs))
    rw [(K.agree h).get_scope hs]
  case h_9 =>
    refine (instantiate h hs _).bind fun r c' _ h' hl hr => .pure h' ⟨?_, ?_⟩
    · exact (Value.within_function r.1).mpr hr.1
    · rw [hr.2]
      exact hl.held _ hs
  case h_13 => exact startList h hs (hnone rfl) (hnone rfl) fun _ => hnone rfl
  case h_14 => exact startTypeOf h _
  case h_15 => exact startDelete h hs _
  case h_18 => exact startReference h hs .nil _
  case h_21 => exact startReference h hs .nil _
  case h_23 => exact startSequence h Value.within_undefined _
  case h_16 => exact evalFor h (.one Value.within_undefined) _
  all_goals first
    | exact give h (Value.within_plain rfl)
    | exact evalFor h .nil _

/-! ## Statements -/

theorem enterBody {l : Loop} (h : K.rel c d) (hl : K.Ready c [l.last] l.items) :
    K.Moves l.enterBody c d :=
  .pure h (carries_go hl trivial)

theorem last {l : Loop} (hl : K.Ready c [l.last] l.items) : K.Has c l.last :=
  hl.kept _ List.mem_cons_self

theorem round {l : Loop} (h : K.rel c d) (hs : (K.sight c).held (.scope s.scope))
    (hl : K.Ready c [l.last] l.items) : K.Moves (l.round s) c d := by
  obtain ⟨kind, body, labels, last⟩ := l
  unfold Loop.round
  cases kind with
  | whileLoop test => exact evalFor h (by exact hl) test
  | doLoop test => exact enterBody h hl
  | forLoop test update =>
    cases test with
    | some test => exact evalFor h (by exact hl) test
    | none => exact enterBody h hl
  | forEach target items =>
    cases items with
    | nil => exact yields h (Realm.last hl)
    | cons item items =>
      obtain ⟨hitem, hitems⟩ := List.forall_mem_cons.mp hl.items
      have hrest : K.Ready c [last] (⟨.forEach target items, body, labels, last⟩ : Loop).items :=
        ⟨hl.kept, hitems⟩
      cases target with
      | declare kind name =>
        exact (setName h hs hitem name).bind fun _ _ _ h' hl' _ => enterBody h' (hrest.later hl')
      | expression e =>
        exact startReference h hs (by exact ⟨hl.kept, List.forall_mem_cons.mpr ⟨hitem, hitems⟩⟩) e

theorem afterTest {l : Loop} (h : K.rel c d) (hs : (K.sight c).held (.scope s.scope))
    (hl : K.Ready c [l.last] l.items) (v : Value) : K.Moves (l.afterTest s v) c d := by
  unfold Loop.afterTest
  split
  · exact yields h (last hl)
  · split
    · exact round h hs hl
    · exact enterBody h hl

theorem afterBody {l : Loop} (h : K.rel c d) (hs : (K.sight c).held (.scope s.scope))
    (hl : K.Ready c [l.last] l.items) : K.Moves (l.afterBody s) c d := by
  unfold Loop.afterBody
  split
  · exact evalFor h (by exact hl) _
  · exact evalFor h (by exact hl) _
  · exact round h hs hl

theorem absorb {l : Loop} {x : Abrupt} (h : K.rel c d) (hs : (K.sight c).held (.scope s.scope))
    (hl : K.Ready c [l.last] l.items) (hx : K.Bears c x) : K.Moves (l.absorb s x) c d := by
  unfold Loop.absorb
  split
  · split
    · exact yields h (last hl)
    · exact .throw h hx
  · split
    · exact afterBody h hs hl
    · exact .throw h hx
  · exact .throw h hx

theorem startDeclarations {after : DeclareEnd} (h : K.rel c d)
    (hs : (K.sight c).held (.scope s.scope))
    (hafter : ∀ l, after = .loop l → K.Ready c [l.last] l.items) (ds : List VarDecl) :
    K.Moves (startDeclarations s after ds) c d := by
  induction ds with
  | nil =>
    cases after with
    | done => exact yields h Value.within_undefined
    | loop l => exact round h hs (hafter l rfl)
  | cons d rest ih =>
    unfold Act.startDeclarations
    split
    · cases after with
      | done => exact evalFor h .nil _
      | loop l => exact evalFor h (by exact hafter l rfl) _
    · exact ih

theorem startStatements {last : Value} (h : K.rel c d) (hlast : K.Has c last) (ts : List Stmt) :
    K.Moves (startStatements last ts) c d := by
  cases ts with
  | nil => exact yields h hlast
  | cons t rest => exact .pure h (carries_go .nil trivial)

theorem startFor {l : Loop} (h : K.rel c d) (hs : (K.sight c).held (.scope s.scope))
    (hl : K.Ready c [l.last] l.items) (init : Option ForInit) : K.Moves (startFor s init l) c d := by
  unfold Act.startFor
  split
  · refine startDeclarations h hs (fun l' hl' => ?_) _
    cases hl'
    exact hl
  · exact evalFor h (by exact hl) _
  · exact round h hs hl

theorem startStmt (h : K.rel c d) (hs : (K.sight c).held (.scope s.scope)) (t : Stmt)
    (labels : List String) : K.Moves (startStmt s t labels) c d := by
  have hnew : K.Ready c [Value.undefined] [] := .one Value.within_undefined
  unfold Act.startStmt
  cases t with
  | expression span e => exact .pure h ⟨List.forall_mem_nil _, trivial⟩
  | declare span ds => exact startDeclarations h hs (fun l hl => by cases hl) ds
  | function | empty => exact yields h Value.within_undefined
  | ret span e =>
    cases e with
    | none => exact .throw h Value.within_undefined
    | some e => exact evalFor h .nil e
  | cond span test yes no => exact evalFor h .nil test
  | whileLoop | doLoop => exact round h hs hnew
  | forLoop span init test update body => exact startFor h hs hnew init
  | forEach span kind target source body => exact evalFor h .nil source
  | leave | next => exact .throw h trivial
  | raise span e => exact evalFor h .nil e
  | guarded span body handler finalizer => exact .throw h trivial
  | labeled span label body => exact .pure h (carries_go .nil trivial)
  | block span body => exact startStatements h Value.within_undefined body

/-! ## Continuations -/

theorem assign {ref : Reference} (h : K.rel c d) (hs : (K.sight c).held (.scope s.scope))
    (href : ∀ v ∈ ref.held, K.Has c v) (hv : K.Has c v) : K.Moves (assign s ref v) c d :=
  (writeReference h hs href (K.puts_of_has hv)).bind fun _ _ _ h' hl _ =>
    give h' (K.meets_of_has (hl.has hv))

/-- **A continuation does the same on both cores** with a value that passed the checkpoint. -/
theorem receive {k : Cont} (h : K.rel c d) (hs : (K.sight c).held (.scope s.scope))
    (hk : K.HasCont c k) (hcopies : ∀ w ∈ k.copies c.heap v, K.Puts c w)
    (hvalue : K.Has c v ∨ K.Meets c v ∧ k = .settle) : K.Moves (receive s k v) c d := by
  have hmet : K.Meets c v := hvalue.elim K.meets_of_has And.left
  by_cases hsettle : k = .settle
  · subst hsettle
    exact give h hmet
  have hv : K.Has c v := hvalue.resolve_right fun h => hsettle h.2
  clear hvalue
  unfold Act.receive
  cases k with
  | settle => exact give h hmet
  | element use before rest =>
    obtain ⟨huse, hbefore⟩ := List.forall_mem_append.mp hk.kept
    refine startList h hs huse (List.forall_mem_cons.mpr ⟨hv, hbefore⟩) fun hrest => ?_
    subst hrest
    exact hcopies
  | property object key rest =>
    have ho := (Value.within_object object).mp (hk.kept _ List.mem_cons_self)
    exact (set h ho (K.puts_of_has hv) key).bind fun _ _ _ h' hl _ =>
      startProperties h' (hl.held _ ho) rest
  | memberTarget key use => exact startKey h hs ⟨hk.kept, hcopies⟩ hv key
  | memberKey target use =>
    obtain ⟨ht, huse⟩ := List.forall_mem_cons.mp hk.kept
    exact Gives.reading ((K.agree h).key hmet) (useMember h hs ⟨huse, hcopies⟩ ht _)
  | callee args =>
    refine startList h hs (fun w hw => ?_) nofun fun _ w hw => ?_
    · rcases List.mem_cons.mp hw with rfl | hw
      · exact hv
      · exact List.mem_singleton.mp hw ▸ Value.within_undefined
    · unfold ListUse.copies Value.copies at hw
      dsimp only at hw
      split at hw
      · unfold Builtin.copies at hw
        split at hw <;> cases hw
      · cases hw
  | method receiver args =>
    refine startList h hs (fun w hw => ?_) nofun fun hargs => ?_
    · rcases List.mem_cons.mp hw with rfl | hw
      · exact hv
      · exact hk.kept w hw
    · subst hargs
      exact hcopies
  | constructed args => exact construct h hmet fun w hw => K.puts_of_has (hk.kept w hw)
  | made object =>
    refine give h ?_
    split
    · exact hmet
    · exact K.meets_of_has (hk.kept _ List.mem_cons_self)
  | typeOf => exact give h (Value.within_string _)
  | instead result => exact give h (K.meets_of_has (hk.kept result List.mem_cons_self))
  | unary op =>
    obtain ⟨heq, hheld⟩ := unary h hmet op
    exact Gives.reading heq (give h (K.meets_of_has hheld))
  | binaryLeft op right => exact evalFor h (by exact .one hv) right
  | binaryRight op left =>
    exact (binary h (K.meets_of_has (hk.kept left List.mem_cons_self)) hmet op).bind
      fun _ _ _ h' _ hw => give h' (K.meets_of_has hw)
  | logicalLeft op right =>
    dsimp only
    split
    · exact give h hmet
    · exact evalFor h .nil right
  | choose consequent alternate => exact evalFor h .nil _
  | sequence rest => exact startSequence h hv rest
  | updateOld ref op before =>
    refine Gives.reading ((K.agree h).number hmet) ?_
    exact (writeReference h hs hk.kept (Value.within_number _)).bind fun _ _ _ h' _ _ =>
      give h' (Value.within_number _)
  | assignValue ref => exact assign h hs hk.kept hv
  | compoundOld ref op value => exact evalFor h (by exact .cons hv (.of_kept hk.kept)) value
  | compoundValue ref op old =>
    obtain ⟨hold, href⟩ := List.forall_mem_cons.mp hk.kept
    exact (binary h (K.meets_of_has hold) hmet op).bind fun _ _ _ h' hl hw =>
      assign h' (hl.held _ hs) (fun w hw => hl.has (href w hw)) hw
  | logicalOld ref op value =>
    dsimp only
    split
    · exact give h hmet
    · exact evalFor (k := .assignValue ref) h (by exact .of_kept hk.kept) value
  | body rest => exact startStatements h hv rest
  | declare name rest after =>
    refine (setName h hs (K.puts_of_has hv) name).bind fun _ c' _ h' hl _ => ?_
    refine startDeclarations h' (hl.held _ hs) (fun l hl' => ?_) rest
    subst hl'
    have hready : K.Ready c [l.last] l.items := ⟨hk.kept, hcopies⟩
    exact hready.later hl
  | ret => exact .throw h hv
  | raise => exact .throw h hmet
  | cond yes no =>
    dsimp only
    split
    · exact .pure h ⟨List.forall_mem_nil _, trivial⟩
    · split
      · exact .pure h ⟨List.forall_mem_nil _, trivial⟩
      · exact yields h Value.within_undefined
  | loopInit l => exact round h hs ⟨hk.kept, hcopies⟩
  | loopTest l => exact afterTest h hs ⟨hk.kept, hcopies⟩ v
  | loopBody l =>
    exact afterBody (l := { l with last := v }) h hs
      ⟨fun w hw => List.mem_singleton.mp hw ▸ hv, hcopies⟩
  | loopUpdate l => exact round h hs ⟨hk.kept, hcopies⟩
  | eachSource kind target body labels =>
    refine (loopItems h hmet hcopies).bind fun items c' _ h' hl hitems => ?_
    exact round h' (hl.held _ hs) ⟨fun w hw => List.mem_singleton.mp hw ▸ Value.within_undefined, hitems⟩
  | labeled label => exact yields h hv

theorem intercept {k : Cont} {x : Abrupt} (h : K.rel c d) (hs : (K.sight c).held (.scope s.scope))
    (hk : K.Ready c k.kept k.items) (hx : K.Bears c x) : K.Moves (intercept s k x) c d := by
  unfold Act.intercept
  split
  · exact absorb h hs hk hx
  · split
    · exact yields h Value.within_undefined
    · exact .throw h hx
  · exact .throw h hx

end Realm

/-! ## Machines -/

/-- The values that the next step may put into cells although they did not pass the checkpoint. -/
def Machine.copied (m : Machine) (c : Core) : List Value :=
  match m.stack, m.control with
  | ⟨_, _, k :: _⟩ :: _, .value v => k.copies c.heap v
  | ⟨_, _, k :: _⟩ :: _, .abrupt _ => k.items
  | _, _ => []

theorem Machine.step_checkpoint_plain {c : Core} {v : Value} (a : Activation)
    (callers : List Activation) (hv : ∀ p, v ≠ .pending p) :
    step ⟨.checkpoint v, a :: callers⟩ c = (.running ⟨.value v, a :: callers⟩, c) := by
  cases v with
  | pending p => exact absurd rfl (hv p)
  | _ => rfl

namespace Realm

variable {K : Realm} {c c' d d' : Core} {v : Value} {a : Activation} {callers : List Activation}
  {m : Machine}

/-- The value of a control may be held, or it meets the checkpoint next. Without activations it goes to
the host as it is. -/
def HasTop (K : Realm) (c : Core) (control : Control) : List Activation → Prop
  | [] => K.HasControl c [.settle] control
  | a :: _ => K.HasControl c a.conts control

/-- What stands in the machine is in sight. -/
structure Safe (K : Realm) (m : Machine) (c : Core) : Prop where
  stack : ∀ a ∈ m.stack, K.HasActivation c a
  control : K.HasTop c m.control m.stack

theorem HasControl.weaken {ks ls : List Cont} {control : Control} (h : K.HasControl c ks control)
    (hks : ks.head? = some .settle → ls.head? = some .settle) : K.HasControl c ls control := by
  cases control with
  | value v => exact h.imp_right fun hv => ⟨hv.1, hks hv.2⟩
  | _ => exact h

theorem Safe.widen {L : Realm} (h : K.Safe m c) (hl : (K.sight c).Widens (L.sight d)) :
    L.Safe m d := by
  refine ⟨fun a ha => (h.stack a ha).widen hl, ?_⟩
  have hcontrol := h.control
  cases hstack : m.stack with
  | nil =>
    rw [hstack] at hcontrol
    exact hcontrol.widen hl
  | cons a callers =>
    rw [hstack] at hcontrol
    exact hcontrol.widen hl

/-- Where a step leads, on both cores. A machine that stands keeps waiting. -/
inductive Steps (K : Realm) (c : Core) : Progress × Core → Progress × Core → Prop
  | running {m' c' d'} : K.rel c' d' → K.Later c c' → K.Safe m' c' →
      Steps K c (.running m', c') (.running m', d')
  | parked {m' p c' d'} : K.rel c' d' → (K.sight c).Widens (K.sight c') → K.Safe m' c' →
      m'.control = .waiting p → Steps K c (.parked m' p, c') (.parked m' p, d')
  | done {outcome d} : K.rel c d → (∀ v, outcome = .ok v → K.Meets c v) →
      (∀ x, outcome = .error x → K.Bears c x) → Steps K c (.done outcome, c) (.done outcome, d)

theorem hasTop_pushing {push : List Cont} {control : Control}
    (h : K.HasControl c push control) : K.HasTop c control (a.pushing push :: callers) := by
  refine HasControl.weaken h fun hhead => ?_
  cases push with
  | nil => cases hhead
  | cons k push => exact hhead

theorem safe_apply {move : Move} (ha : K.HasActivation c a)
    (hcallers : ∀ b ∈ callers, K.HasActivation c b) (hmove : K.Carries c move) :
    K.Safe (Machine.apply a callers move) c := by
  have hpushing : ∀ push : List Cont, (∀ k ∈ push, K.HasCont c k) →
      K.HasActivation c (a.pushing push) := fun push hpush =>
    ⟨List.forall_mem_append.mpr ⟨hpush, ha.conts⟩, ha.scope⟩
  cases move with
  | go push control =>
    exact ⟨List.forall_mem_cons.mpr ⟨hpushing push hmove.1, hcallers⟩, hasTop_pushing hmove.2⟩
  | linked frame v =>
    exact ⟨List.forall_mem_cons.mpr ⟨⟨ha.conts, hmove.2⟩, hcallers⟩, K.meets_of_has hmove.1⟩
  | enter push inner control =>
    obtain ⟨hpush, hinner, hcontrol⟩ := hmove
    exact ⟨List.forall_mem_cons.mpr ⟨hinner, List.forall_mem_cons.mpr ⟨hpushing push hpush, hcallers⟩⟩,
      hcontrol⟩

theorem steps_perform {act : Act Move} (ha : K.HasActivation c a)
    (hcallers : ∀ b ∈ callers, K.HasActivation c b) (hact : K.Moves act c d) :
    K.Steps c (Machine.perform a callers act c) (Machine.perform a callers act d) := by
  unfold Machine.perform
  unfold Moves Gives at hact
  generalize act c = r at hact
  generalize act d = t at hact
  cases hact with
  | ok h hl hmove =>
    exact .running h hl (safe_apply (ha.widen hl.toWidens)
      (fun b hb => (hcallers b hb).widen hl.toWidens) hmove)
  | error h hl hx =>
    exact .running h hl ⟨List.forall_mem_cons.mpr ⟨ha.widen hl.toWidens,
      fun b hb => (hcallers b hb).widen hl.toWidens⟩, hx⟩

/-- What an activation that ends hands to the one that opened it may be held. -/
theorem hasTop_close {b : Boundary} {end_ : Outcome} (hv : ∀ v, end_ = .ok v → K.Has c v)
    (hx : ∀ x, end_ = .error x → K.Bears c x) :
    K.HasTop c (Machine.close b end_) callers := by
  have hcontrol : ∀ ks, K.HasControl c ks (Machine.close b end_) := by
    intro ks
    cases end_ with
    | ok v =>
      cases b with
      | unit => exact .inl (hv v rfl)
      | function name => exact .inl Value.within_undefined
    | error x =>
      have hx := hx x rfl
      cases b with
      | unit => exact hx
      | function name =>
        cases x with
        | ret v => exact .inl hx
        | thrown v => exact hx
        | _ => exact trivial
  cases callers with
  | nil => exact hcontrol _
  | cons a callers => exact hcontrol _

theorem has_of_empty {v : Value} (h : K.HasControl c [] (.value v)) : K.Has c v :=
  h.resolve_right fun hv => by cases hv.2

/-- A control that needs no continuation to take its value. -/
theorem safe_go {control : Control} (hstack : ∀ b ∈ a :: callers, K.HasActivation c b)
    (hcontrol : ∀ ks, K.HasControl c ks control) : K.Safe ⟨control, a :: callers⟩ c :=
  ⟨hstack, hcontrol _⟩

theorem hasControl_settlement {s : Settlement} (hs : K.Meets c s.value) (ks : List Cont) :
    K.HasControl c ks s.control := by
  cases s <;> exact hs

theorem watching (h : K.rel c d) (w : Watch) : K.rel (c.watching w) (d.watching w) ∧
    (K.sight c).Widens (K.sight (c.watching w)) := by
  have hd : d.watching w = d.apart d.heap.pendings w c.engine.suspensionCount
      c.engine.lastSuspension := by
    have hrest := (K.engine h).rest
    unfold Core.watching Core.apart
    rw [hrest]
    rfl
  rw [hd]
  exact K.apart h w c.engine.suspensionCount c.engine.lastSuspension

/-- The checkpoint does the same on both cores. -/
theorem step_checkpoint (h : K.rel c d) (hm : K.Safe ⟨.checkpoint v, a :: callers⟩ c)
    (hwatch : c.engine.watch = .armed) :
    K.Steps c ((⟨.checkpoint v, a :: callers⟩ : Machine).step c)
      ((⟨.checkpoint v, a :: callers⟩ : Machine).step d) := by
  have hmet : K.Meets c v := hm.control
  by_cases hpending : ∃ p, v = .pending p
  · obtain ⟨p, rfl⟩ := hpending
    have hp := (Value.within_pending p).mp hmet
    have hget : d.heap.pendings.get p = c.heap.pendings.get p := by
      rw [Store.get, Store.get, (K.agree h).pending hp]
    cases hs : (c.heap.pendings.get p).settlement? with
    | some s =>
      rw [Machine.step_checkpoint_settled a callers hs,
        Machine.step_checkpoint_settled a callers (hget ▸ hs)]
      exact .running h (.refl c) (safe_go hm.stack
        (hasControl_settlement ((K.agree h).settlement hp _ (Pending.value_mem_held hs))))
    | none =>
      have hd : d.engine.watch = .armed := by
        rw [(K.engine h).rest]
        exact hwatch
      rw [Machine.step_checkpoint_unsettled a callers hs hwatch,
        Machine.step_checkpoint_unsettled a callers (hget ▸ hs) hd]
      obtain ⟨hrel, hwidens⟩ := watching h .triggered
      exact .parked hrel hwidens (safe_go (fun b hb => (hm.stack b hb).widen hwidens)
        fun _ => hwidens.met _ hp) rfl
  · have hplain : ∀ p, v ≠ .pending p := fun p hp => hpending ⟨p, hp⟩
    rw [Machine.step_checkpoint_plain a callers hplain, Machine.step_checkpoint_plain a callers hplain]
    exact .running h (.refl c) (safe_go hm.stack fun ks => .inl (Sight.has_of_meets hmet hplain))

theorem stands (h : K.rel c d) (hm : K.Safe m c) {p : PendingId} (hp : m.control = .waiting p) :
    K.Steps c (.parked m p, c) (.parked m p, d) :=
  .parked h (Later.refl c).toWidens hm hp

/-- **A step does the same on both cores** as long as somebody watches and what the step copies may be
put into cells. -/
theorem step (h : K.rel c d) (hm : K.Safe m c) (hwatch : c.engine.watch = .armed)
    (hcopied : ∀ v ∈ m.copied c, K.Puts c v) : K.Steps c (m.step c) (m.step d) := by
  obtain ⟨control, stack⟩ := m
  cases stack with
  | nil =>
    have hcontrol := hm.control
    cases control with
    | value v =>
      refine .done h (fun w hw => ?_) nofun
      cases hw
      exact hcontrol.elim K.meets_of_has And.left
    | abrupt x =>
      refine .done h nofun fun y hy => ?_
      cases hy
      exact hcontrol
    | _ => exact .done h nofun fun y hy => by cases hy; trivial
  | cons a callers =>
    obtain ⟨ha, hcallers⟩ := List.forall_mem_cons.mp hm.stack
    have hcontrol := hm.control
    cases control with
    | eval e => exact steps_perform ⟨ha.conts, ha.scope⟩ hcallers (startExpr h (by exact ha.scope) e)
    | exec t labels => exact steps_perform ⟨ha.conts, ha.scope⟩ hcallers (startStmt h (by exact ha.scope) t labels)
    | checkpoint v => exact step_checkpoint h hm hwatch
    | waiting p => exact stands h hm rfl
    | value v =>
      obtain ⟨frame, boundary, conts⟩ := a
      cases conts with
      | nil =>
        refine .running h (.refl c) ⟨hcallers, hasTop_close (fun w hw => ?_) nofun⟩
        cases hw
        exact has_of_empty hcontrol
      | cons k conts =>
        obtain ⟨hk, hconts⟩ := List.forall_mem_cons.mp ha.conts
        refine steps_perform ⟨hconts, ha.scope⟩ hcallers
          (receive h ha.scope hk hcopied (hcontrol.imp_right fun hv => ⟨hv.1, ?_⟩))
        exact Option.some.inj hv.2
    | abrupt x =>
      obtain ⟨frame, boundary, conts⟩ := a
      cases conts with
      | nil =>
        refine .running h (.refl c) ⟨hcallers, hasTop_close nofun fun y hy => ?_⟩
        cases hy
        exact hcontrol
      | cons k conts =>
        obtain ⟨hk, hconts⟩ := List.forall_mem_cons.mp ha.conts
        exact steps_perform ⟨hconts, ha.scope⟩ hcallers
          (intercept h ha.scope ⟨hk.kept, hcopied⟩ hcontrol)

/-! ## Starts -/

/-- A machine that an act starts is the same on both cores. -/
theorem start {act : Act Move} (hact : K.Gives K.Brings act c d) :
    ∃ m c' d', Machine.start act c = (m, c') ∧ Machine.start act d = (m, d') ∧ K.rel c' d' ∧
      K.Later c c' ∧ K.Safe m c' := by
  unfold Machine.start
  unfold Gives at hact
  generalize act c = r at hact
  generalize act d = t at hact
  cases hact with
  | error h hl hx => exact ⟨_, _, _, rfl, rfl, h, hl, List.forall_mem_nil _, hx⟩
  | ok h hl hmove =>
    rcases hmove with ⟨a, control, rfl, ha, hcontrol⟩ | ⟨v, rfl, hv⟩
    · exact ⟨_, _, _, rfl, rfl, h, hl, List.forall_mem_singleton.mpr ha, hcontrol⟩
    · exact ⟨_, _, _, rfl, rfl, h, hl, List.forall_mem_nil _, .inr ⟨hv, rfl⟩⟩

end Realm

end Fermata
