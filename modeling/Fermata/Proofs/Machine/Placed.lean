import Fermata.Proofs.Machine.Parts

/-!
# Steps leave code in its place

Every act of a step takes a piece of code apart into pieces that stand in their places again: what it
pushes and what it goes on with belong to the same body, under the owners that the body gives them. A
call enters another body at its beginning.

* `Atlas.startExpr`, `Atlas.startStmt`, `Atlas.receive`, `Atlas.intercept`: the acts of a step.
* `Machine.Placed`: all code of a machine is in its place.
* `Atlas.step`: a step keeps it so.
-/

namespace Fermata

open Act

namespace Atlas

variable {A : Atlas} {P : Parts} {os : List Owner} {s : Site} {K : Core → Prop}

/-! ## Opening activations -/

/-- A body begins in its place. -/
theorem startBody_in {body : List Stmt} (hbody : ∀ t ∈ body, P.stmt ⟨[], [], t⟩) :
    Cont.AllIn P [] (startBody body).1 ∧ (startBody body).2.In P (owners (startBody body).1) := by
  cases body with
  | nil => exact ⟨trivial, trivial⟩
  | cons t rest =>
    exact ⟨⟨fun t ht => hbody t (List.mem_cons_of_mem _ ht), trivial⟩, hbody t List.mem_cons_self⟩

theorem openFrame {f : Frame} {b : Boundary} {body : List Stmt}
    (hbody : ∀ t ∈ body, (A.parts ⟨f, b, []⟩).stmt ⟨[], [], t⟩) :
    Ends K (openFrame f b body) A.Calls Abrupt.IsFailure := by
  refine (openFrame_ends f b body).weaken (fun m hm => ?_) fun _ hx => hx
  obtain ⟨g, hg, rfl⟩ := hm
  have hparts : A.parts ⟨g, b, (startBody body).1⟩ = A.parts ⟨f, b, []⟩ := by
    cases b <;> simp only [Bodies.parts, hg.unit, hg.record]
  refine ⟨rfl, ?_⟩
  unfold Opens
  rw [hparts]
  exact startBody_in hbody

/-- What follows a check of the depth runs on the same core. -/
theorem checkDepth_meets {α : Type} {Q : α → Prop} {q : Unit → Act α} {c : Core} (depth : Nat)
    (hq : Meets Q Abrupt.IsFailure (q () c)) :
    Meets Q Abrupt.IsFailure ((checkDepth depth >>= q) c) := by
  simp only [Bind.bind, EStateM.bind, Law.checkDepth_eq]
  by_cases hd : depth + c.engine.below.length ≥ c.engine.settings.maxCallDepth
  · rw [if_pos hd]
    exact .error trivial
  · rw [if_neg hd]
    exact hq

theorem callUnit {depth : Nat} {unit : CodeUnit} {scope : ScopeId}
    (hunit : ∀ t ∈ unit.program.body, (A.ofUnit unit).stmt ⟨[], [], t⟩) :
    Ends K (callUnit depth unit scope) A.Calls Abrupt.IsFailure :=
  fun c hc => checkDepth_meets depth (openFrame (K := K) hunit c hc)

theorem activationScope_ends (r : ScopeRecord) (id : ClosureId) (defining : ScopeId) (this : Value)
    (args : List Value) :
    Ends K (activationScope r id defining this args) (fun _ => True) Abrupt.IsFailure := by
  intro c _
  unfold activationScope
  split
  · obtain ⟨bindings, S, -, hvalues⟩ := Law.mapM_firstValue r id args r.bindings c
    have hown := hvalues c.heap.pendings c.engine.watch c.engine.suspensionCount
      c.engine.lastSuspension
    simp only [Bind.bind, EStateM.bind]
    rw [show (r.bindings.mapM (firstValue r id args)) c = _ from hown]
    exact .ok trivial
  · exact .ok trivial

theorem callClosure {c : Core} {depth : Nat} {id : ClosureId} {this : Value} {args : List Value}
    (hshows : A.Shows (c.heap.closures.get id)) :
    Meets A.Calls Abrupt.IsFailure (callClosure depth id this args c) := by
  unfold Act.callClosure
  refine checkDepth_meets depth ?_
  rw [get_bind]
  cases c.engine.links.scope? (c.heap.closures.get id).serial with
  | none => exact .error trivial
  | some defining =>
    dsimp only
    cases (c.heap.closures.get id).unit.record? (c.heap.closures.get id).node.id with
    | none => exact .error trivial
    | some r =>
      have hopen : ∀ scope, Ends (fun _ => True) (Act.openFrame
          ((c.heap.closures.get id).frame r scope)
          (.function (c.heap.closures.get id).internalName) (c.heap.closures.get id).node.body)
          A.Calls Abrupt.IsFailure := fun _ => openFrame hshows
      exact (activationScope_ends (K := fun _ => True) r id defining this args).bind
        (fun scope _ => hopen scope) c trivial

theorem evalCode (depth : Nat) (scope : ScopeId) (code : Value) :
    Ends K (evalCode depth scope code) A.Calls Abrupt.IsFailure := by
  unfold Act.evalCode
  cases code with
  | string source =>
    intro c hc
    refine (Law.Holds.reads (g := (·.visibleNames scope)) ?_).ends.bind (fun names _ => ?_) c hc
    · exact fun h P => h.visibleNames_awaiting P scope
    · cases hunit : CodeUnit.compile source names with
      | error e => exact fun _ _ => .error trivial
      | ok unit => exact callUnit (A.code hunit)
  | _ => exact Ends.pure ⟨rfl, _, rfl⟩

/-- A call gives the value of a native function or enters a body. -/
theorem callValue (hK : ∀ c, K c → A.Covers c) (depth : Nat) (scope : ScopeId)
    (callee this : Value) (args : List Value) :
    Ends K (callValue depth scope callee this args) A.Calls Abrupt.IsFailure := by
  unfold Act.callValue
  cases callee with
  | function id => exact fun c hc => callClosure (hK c hc id)
  | native id =>
    intro c _
    dsimp only
    rw [get_bind]
    split
    · exact evalCode (K := fun _ => True) depth scope _ c trivial
    · refine ((Law.Holds.reads (g := (·.natives.get id)) fun _ _ => rfl).ends.bind
        (K := fun _ => True) fun n _ => ?_) c trivial
      exact (Law.run n.builtin this args).ends.bind fun _ _ => Ends.pure ⟨rfl, _, rfl⟩
  | _ => exact fun _ _ => .error trivial

/-- Calling with `new` makes objects before the call and leaves the closures. -/
theorem construct (hK : ∀ c, K c → A.Covers c) (depth : Nat) (callee : Value) (args : List Value) :
    Ends K (construct depth callee args) (A.Allows P os s.frame) Abrupt.IsFailure := by
  unfold Act.construct
  cases callee with
  | function id =>
    intro c hc
    refine Meets.making_bind (fun h r => h.spares_prototypeOf r id) fun proto d hd => ?_
    refine Meets.making_bind (fun h r => h.spares_newObject r _) fun object e he => ?_
    have hshows : A.Shows (e.heap.closures.get id) := by
      rw [he, hd]
      exact hK c hc id
    have hcall : Ends (· = e) (Act.callClosure depth id (.object object) args) A.Calls
        Abrupt.IsFailure := fun _ he => he ▸ callClosure hshows
    have hmade : Cont.AllIn P os [.made object] := ⟨trivial, trivial⟩
    exact hcall.bind (fun m hm => Ends.pure (hm.allows.pushing hmade rfl)) e rfl
  | native id =>
    refine (Law.Holds.reads (g := (·.natives.get id)) fun _ _ => rfl).ends.bind fun n _ => ?_
    split
    · exact (Law.run n.builtin _ args).ends.bind fun _ _ => Ends.pure ⟨trivial, trivial⟩
    · exact fun _ _ => .error trivial
  | _ => exact fun _ _ => .error trivial

/-! ## Expressions -/

/-- An act of a site gives a move that leaves code in its place, and does not jump. -/
abbrev Moves (A : Atlas) (P : Parts) (os : List Owner) (s : Site) (K : Core → Prop) (p : Act Move) :
    Prop :=
  Ends K p (A.Allows P os s.frame) Abrupt.IsFailure

theorem give (v : Value) : A.Moves P os s K (give v) := Ends.pure ⟨trivial, trivial⟩

theorem yields (v : Value) : A.Moves P os s K (yields v) := Ends.pure ⟨trivial, trivial⟩

theorem evalFor {k : Cont} {e : Expr} (hk : k.In P os) (he : P.expr e) :
    A.Moves P os s K (evalFor k e) :=
  Ends.pure ⟨⟨hk, trivial⟩, he⟩

theorem useReference {use : ReferenceUse} {ref : Reference} (huse : use.In P os)
    (href : ref.In P) : A.Moves P os s K (useReference s use ref) := by
  unfold Act.useReference
  cases use with
  | update op before =>
    exact (Law.readReference s ref).ends.bind fun _ _ => Ends.pure ⟨⟨href, trivial⟩, trivial⟩
  | assign op value =>
    cases op with
    | plain => exact evalFor href huse
    | compound op =>
      exact (Law.readReference s ref).ends.bind fun _ _ =>
        Ends.pure ⟨⟨⟨href, huse⟩, trivial⟩, trivial⟩
    | logical op =>
      exact (Law.readReference s ref).ends.bind fun _ _ =>
        Ends.pure ⟨⟨⟨href, huse⟩, trivial⟩, trivial⟩
  | delete =>
    cases ref with
    | binding name => exact give _
    | property object key implicit =>
      exact (Law.deleteProperty _ _).ends.bind fun _ _ => give _
  | loopItem loop item =>
    exact (Law.writeReference s ref item).ends.bind fun _ _ =>
      Ends.pure ⟨⟨huse, trivial⟩, huse.2⟩

theorem useMember {use : MemberUse} (huse : use.In P os) (target : Value) (key : String) :
    A.Moves P os s K (useMember s use target key) := by
  unfold Act.useMember
  cases use with
  | read implicit => exact (Law.readMember _ _ _).ends.bind fun _ _ => give _
  | callee implicit args =>
    exact (Law.readMember _ _ _).ends.bind fun _ _ => Ends.pure ⟨⟨huse, trivial⟩, trivial⟩
  | probe arg =>
    refine (Law.Holds.reads fun h P => Law.lacks_awaiting h P target key).ends.bind fun b _ => ?_
    split
    · exact give _
    · exact evalFor trivial huse
  | refer implicit use => exact useReference huse trivial

theorem startKey {use : MemberUse} {key : MemberKey} (huse : use.In P os)
    (hkey : ∀ e ∈ key.exprs, P.expr e) (target : Value) :
    A.Moves P os s K (startKey s use target key) := by
  cases key with
  | named name => exact useMember huse _ _
  | computed e => exact evalFor huse (hkey e List.mem_cons_self)

theorem startReference {use : ReferenceUse} {target : Expr} (huse : use.In P os)
    (htarget : P.expr target) : A.Moves P os s K (startReference s use target) := by
  unfold Act.startReference
  split
  · exact useReference huse (P.expr_ident htarget)
  · have hparts := P.expr_parts htarget
    exact evalFor ⟨fun e he => hparts e (List.mem_cons_of_mem _ he), huse⟩
      (hparts _ List.mem_cons_self)
  · exact fun _ _ => .error trivial

theorem useList (hK : ∀ c, K c → A.Covers c) {use : ListUse} (huse : use.In P)
    (values : List Value) : A.Moves P os s K (useList s use values) := by
  unfold Act.useList
  cases use with
  | array => exact (Law.newObject _).ends.bind fun _ _ => give _
  | call callee this =>
    dsimp only
    split
    · have hsettle : Cont.AllIn P os [.settle] := ⟨trivial, trivial⟩
      exact (callValue hK s.depth s.scope callee this values).bind fun m hm =>
        Ends.pure (hm.allows.pushing hsettle rfl)
    · exact fun _ _ => .error trivial
  | construct callee => exact evalFor trivial huse

theorem startList (hK : ∀ c, K c → A.Covers c) {use : ListUse} {es : List Expr} (huse : use.In P)
    (hes : ∀ e ∈ es, P.expr e) (before : List Value) :
    A.Moves P os s K (startList s use before es) := by
  cases es with
  | nil => exact useList hK huse _
  | cons e rest =>
    exact evalFor ⟨huse, fun e he => hes e (List.mem_cons_of_mem _ he)⟩ (hes e List.mem_cons_self)

theorem startProperties {ps : List PropertyDef} (hps : ∀ p ∈ ps, P.expr p.value)
    (object : ObjectId) : A.Moves P os s K (startProperties object ps) := by
  cases ps with
  | nil => exact give _
  | cons p rest =>
    exact evalFor (fun q hq => hps q (List.mem_cons_of_mem _ hq)) (hps p List.mem_cons_self)

theorem startSequence {es : List Expr} (hes : ∀ e ∈ es, P.expr e) (last : Value) :
    A.Moves P os s K (startSequence last es) := by
  cases es with
  | nil => exact give _
  | cons e rest =>
    exact evalFor (fun e he => hes e (List.mem_cons_of_mem _ he)) (hes e List.mem_cons_self)

theorem startDelete {arg : Expr} (harg : P.expr arg) : A.Moves P os s K (startDelete s arg) := by
  unfold Act.startDelete
  split
  · exact startReference trivial harg
  · exact give _
  · exact evalFor trivial harg

theorem startTypeOf {arg : Expr} (harg : P.expr arg) : A.Moves P os s K (startTypeOf arg) := by
  unfold Act.startTypeOf
  split
  · have hparts := P.expr_parts harg
    exact evalFor ⟨fun e he => hparts e (List.mem_cons_of_mem _ he), harg⟩
      (hparts _ List.mem_cons_self)
  · exact evalFor trivial harg

theorem startExpr (hK : ∀ c, K c → A.Covers c) {e : Expr} (he : P.expr e) :
    A.Moves P os s K (startExpr s e) := by
  have hparts := P.expr_parts he
  unfold Act.startExpr
  cases e with
  | number | string | bool | null => exact give _
  | array span es =>
    have huse : ListUse.array.In P := trivial
    exact startList hK huse hparts _
  | object span ps =>
    refine (Law.newObject _).ends.bind fun _ _ => startProperties (fun p hp => ?_) _
    exact hparts p.value (List.mem_map_of_mem hp)
  | ident span name => exact (Law.getName _ _).ends.bind fun _ _ => give _
  | this => exact (Law.Holds.reads fun _ _ => rfl).ends.bind fun _ _ => give _
  | function span fn => exact (instantiate_ends _ _).bind fun r hr => Ends.pure hr
  | member span o k i =>
    exact evalFor ⟨fun e he => hparts e (List.mem_cons_of_mem _ he), trivial⟩
      (hparts _ List.mem_cons_self)
  | call span f args =>
    have hargs : ∀ e ∈ args, P.expr e := fun e he => hparts e (List.mem_cons_of_mem _ he)
    have hf := hparts f List.mem_cons_self
    cases f with
    | member span o k i =>
      have hof := P.expr_parts hf
      exact evalFor ⟨fun e he => hof e (List.mem_cons_of_mem _ he), hargs⟩
        (hof _ List.mem_cons_self)
    | _ => exact evalFor hargs hf
  | construct span f args =>
    have huse : (ListUse.construct f).In P := hparts f List.mem_cons_self
    exact startList hK huse (fun e he => hparts e (List.mem_cons_of_mem _ he)) _
  | unary span op arg =>
    have harg := hparts arg List.mem_cons_self
    cases op with
    | typeOf => exact startTypeOf harg
    | delete => exact startDelete harg
    | _ => exact evalFor trivial harg
  | update span op before target => exact startReference trivial (hparts _ List.mem_cons_self)
  | binary span op l r | logical span op l r =>
    exact evalFor (hparts r (List.mem_cons_of_mem _ List.mem_cons_self)) (hparts l List.mem_cons_self)
  | assign span op target value =>
    exact startReference (hparts value (List.mem_cons_of_mem _ List.mem_cons_self))
      (hparts target List.mem_cons_self)
  | conditional span test yes no =>
    exact evalFor ⟨hparts yes (by simp [Expr.parts]), hparts no (by simp [Expr.parts])⟩
      (hparts test List.mem_cons_self)
  | sequence span es => exact startSequence hparts _

/-! ## Loops and statements -/

theorem enterBody {l : Loop} (hl : l.In P os) : A.Moves P os s K l.enterBody :=
  Ends.pure ⟨⟨hl, trivial⟩, hl.2⟩

theorem round {l : Loop} (hl : l.In P os) : A.Moves P os s K (l.round s) := by
  obtain ⟨kind, body, labels, last⟩ := l
  obtain ⟨hkind, hbody⟩ := hl
  unfold Loop.round
  cases kind with
  | whileLoop test => exact evalFor ⟨hkind, hbody⟩ hkind
  | doLoop test => exact enterBody ⟨hkind, hbody⟩
  | forLoop test update =>
    cases test with
    | none => exact enterBody ⟨hkind, hbody⟩
    | some test => exact evalFor ⟨hkind, hbody⟩ (hkind.1 test rfl)
  | forEach target items =>
    cases items with
    | nil => exact yields _
    | cons item items =>
      cases target with
      | declare span name =>
        exact (Law.setName _ _ _).ends.bind fun _ _ => enterBody ⟨hkind, hbody⟩
      | expression e => exact startReference ⟨hkind, hbody⟩ hkind

theorem afterTest {l : Loop} (hl : l.In P os) (v : Value) :
    A.Moves P os s K (l.afterTest s v) := by
  unfold Loop.afterTest
  split
  · exact yields _
  · split
    · exact round hl
    · exact enterBody hl

theorem afterBody {l : Loop} (hl : l.In P os) : A.Moves P os s K (l.afterBody s) := by
  obtain ⟨kind, body, labels, last⟩ := l
  unfold Loop.afterBody
  cases kind with
  | whileLoop test => exact round hl
  | doLoop test => exact evalFor hl hl.1
  | forLoop test update =>
    cases update with
    | none => exact round hl
    | some update => exact evalFor hl (hl.1.2 update rfl)
  | forEach target items => exact round hl

theorem startDeclarations {after : DeclareEnd} {ds : List VarDecl} (hafter : after.In P os)
    (hds : VarDecl.AllIn P ds) : A.Moves P os s K (startDeclarations s after ds) := by
  induction ds with
  | nil =>
    cases after with
    | done => exact yields _
    | loop l => exact round hafter
  | cons d rest ih =>
    have hrest : VarDecl.AllIn P rest := fun d hd => hds d (List.mem_cons_of_mem _ hd)
    obtain ⟨hname, hinit⟩ := hds d List.mem_cons_self
    unfold Act.startDeclarations
    cases hi : d.init with
    | some e => exact evalFor ⟨hname, hrest, hafter⟩ (hinit e hi)
    | none => exact ih hrest

theorem startStatements {ts : List Stmt} (hts : ∀ t ∈ ts, P.stmt ⟨os, [], t⟩) (last : Value) :
    A.Moves P os s K (startStatements last ts) := by
  cases ts with
  | nil => exact yields _
  | cons t rest =>
    exact Ends.pure ⟨⟨fun t ht => hts t (List.mem_cons_of_mem _ ht), trivial⟩,
      hts t List.mem_cons_self⟩

/-- An act of a site gives a move that leaves code in its place, or a jump that belongs there. -/
abbrev Runs (A : Atlas) (P : Parts) (os : List Owner) (s : Site) (K : Core → Prop) (p : Act Move) :
    Prop :=
  Ends K p (A.Allows P os s.frame) (P.jump os)

theorem Moves.runs {p : Act Move} (hp : A.Moves P os s K p) : A.Runs P os s K p :=
  hp.weaken (fun _ hm => hm) fun _ => P.failure

theorem allIn_of_decls {ds : List VarDecl} (hnames : ∀ x ∈ ds.map VarDecl.name, P.name x)
    (hinits : ∀ e ∈ VarDecl.inits ds, P.expr e) : VarDecl.AllIn P ds := by
  intro d hd
  refine ⟨hnames d.name (List.mem_map_of_mem hd), fun e he => hinits e ?_⟩
  exact List.mem_filterMap.mpr ⟨d, hd, he⟩

theorem startFor {init : Option ForInit} {l : Loop} (hl : l.In P os)
    (hexprs : ∀ e ∈ (init.map ForInit.exprs).getD [], P.expr e)
    (hnames : ∀ x ∈ (init.map ForInit.names).getD [], P.name x) :
    A.Moves P os s K (startFor s init l) := by
  unfold Act.startFor
  cases init with
  | none => exact round hl
  | some init =>
    cases init with
    | declare ds =>
      have hafter : (DeclareEnd.loop l).In P os := hl
      exact startDeclarations hafter (allIn_of_decls hnames hexprs)
    | expression e => exact evalFor hl (hexprs e List.mem_cons_self)

theorem startStmt {t : Stmt} {labels : List String} (ht : P.stmt ⟨os, labels, t⟩) :
    A.Runs P os s K (startStmt s t labels) := by
  have hexprs := P.stmt_exprs ht
  have hnames := P.stmt_names ht
  have hinside := P.stmt_inside ht
  have hjumps := P.stmt_jumps ht
  unfold Act.startStmt
  cases t with
  | expression span e => exact Ends.pure ⟨trivial, hexprs e List.mem_cons_self⟩
  | declare span ds =>
    have hafter : DeclareEnd.done.In P os := trivial
    exact (startDeclarations hafter (allIn_of_decls hnames hexprs)).runs
  | function | empty => exact (yields _).runs
  | ret span e =>
    cases e with
    | none => exact Ends.throw (hjumps _ ⟨_, rfl⟩)
    | some e => exact Moves.runs (evalFor (fun v => hjumps _ ⟨v, rfl⟩) (hexprs e List.mem_cons_self))
  | cond span test yes no =>
    refine Moves.runs (evalFor ⟨hinside _ List.mem_cons_self, fun t ht => ?_⟩
      (hexprs test List.mem_cons_self))
    subst ht
    exact hinside ⟨os, [], t⟩ (by simp [Spot.inside])
  | whileLoop span test body =>
    exact Moves.runs (round ⟨hexprs test List.mem_cons_self, hinside _ List.mem_cons_self⟩)
  | doLoop span body test =>
    exact Moves.runs (round ⟨hexprs test List.mem_cons_self, hinside _ List.mem_cons_self⟩)
  | forLoop span init test update body =>
    refine Moves.runs (startFor ⟨⟨fun e he => hexprs e ?_, fun e he => hexprs e ?_⟩,
      hinside _ List.mem_cons_self⟩ (fun e he => hexprs e ?_) hnames)
    · simp [Stmt.exprs, he]
    · simp [Stmt.exprs, he]
    · simp [Stmt.exprs, he]
  | forEach span kind target source body =>
    refine Moves.runs (evalFor ⟨?_, hinside _ List.mem_cons_self⟩
      (hexprs source (by simp [Stmt.exprs])))
    cases target with
    | declare span name => exact hnames name List.mem_cons_self
    | expression e => exact hexprs e List.mem_cons_self
  | leave span label => exact Ends.throw (hjumps _ rfl)
  | next span label => exact Ends.throw (hjumps _ rfl)
  | raise span e => exact Moves.runs (evalFor trivial (hexprs e List.mem_cons_self))
  | guarded => exact Ends.throw (P.failure trivial)
  | labeled span label body =>
    exact Ends.pure ⟨⟨trivial, trivial⟩, hinside _ List.mem_cons_self⟩
  | block span body =>
    exact Moves.runs (startStatements (fun t ht => hinside _ (List.mem_map_of_mem ht)) _)

/-! ## Continuations -/

theorem assign {ref : Reference} (v : Value) : A.Moves P os s K (assign s ref v) :=
  (Law.writeReference s ref v).ends.bind fun _ _ => give _

theorem receive (hK : ∀ c, K c → A.Covers c) {k : Cont} (hk : k.In P os) (v : Value) :
    A.Runs P os s K (receive s k v) := by
  unfold Act.receive
  cases k with
  | settle | made | typeOf | instead => exact (give _).runs
  | element use before rest => exact (startList hK hk.1 hk.2 _).runs
  | property object key rest =>
    exact Moves.runs ((Law.set object key v).ends.bind fun _ _ => startProperties hk _)
  | memberTarget key use => exact (startKey hk.2 hk.1 _).runs
  | memberKey target use =>
    exact Moves.runs ((Law.Holds.reads fun h P => h.key_awaiting P v).ends.bind fun _ _ =>
      useMember hk _ _)
  | callee args =>
    have huse : (ListUse.call v .undefined).In P := trivial
    exact (startList hK huse hk _).runs
  | method receiver args =>
    have huse : (ListUse.call v receiver).In P := trivial
    exact (startList hK huse hk _).runs
  | constructed args => exact Moves.runs (construct hK _ v args)
  | unary op => exact Moves.runs ((Law.unary op v).ends.bind fun _ _ => give _)
  | binaryLeft op right => exact Moves.runs (evalFor trivial hk)
  | binaryRight op left => exact Moves.runs ((Law.binary op left v).ends.bind fun _ _ => give _)
  | logicalLeft op right =>
    dsimp only
    split
    · exact (give _).runs
    · exact Moves.runs (evalFor trivial hk)
  | choose yes no =>
    refine Moves.runs (evalFor trivial ?_)
    split
    · exact hk.1
    · exact hk.2
  | sequence rest => exact (startSequence hk _).runs
  | updateOld ref op before =>
    refine Moves.runs ((Law.Holds.reads fun h P => h.number_awaiting P v).ends.bind fun _ _ => ?_)
    exact (Law.writeReference s ref _).ends.bind fun _ _ => give _
  | assignValue ref => exact (assign v).runs
  | compoundOld ref op value => exact Moves.runs (evalFor hk.1 hk.2)
  | compoundValue ref op old =>
    exact Moves.runs ((Law.binary op old v).ends.bind fun _ _ => assign _)
  | logicalOld ref op value =>
    dsimp only
    split
    · exact (give _).runs
    · exact Moves.runs (evalFor hk.1 hk.2)
  | body rest => exact (startStatements hk _).runs
  | declare name rest after =>
    exact Moves.runs ((Law.setName _ _ _).ends.bind fun _ _ => startDeclarations hk.2.2 hk.2.1)
  | ret => exact Ends.throw (hk v)
  | raise => exact Ends.throw (P.failure trivial)
  | cond yes no =>
    dsimp only
    split
    · exact Ends.pure ⟨trivial, hk.1⟩
    · cases no with
      | none => exact (yields _).runs
      | some t => exact Ends.pure ⟨trivial, hk.2 t rfl⟩
  | loopInit l | loopUpdate l => exact (round hk).runs
  | loopTest l => exact (afterTest hk v).runs
  | loopBody l => exact Moves.runs (afterBody hk)
  | eachSource kind target body labels =>
    exact Moves.runs ((Law.loopItems kind v).ends.bind fun _ _ => round hk)
  | labeled label => exact (yields _).runs

/-- A loop stops the jumps that it owns. -/
theorem absorb {l : Loop} (hl : l.In P os) {x : Abrupt}
    (hx : P.jump (.loop l.labels :: os) x) : A.Runs P os s K (l.absorb s x) := by
  have hpass : (Owner.loop l.labels).stops x = false → A.Runs P os s K (throw x) :=
    fun hstop => Ends.throw (P.pass hx hstop)
  unfold Loop.absorb
  cases x with
  | leave label =>
    dsimp only
    split
    · exact (yields _).runs
    · rename_i hown
      cases label with
      | none => exact absurd rfl hown
      | some name => exact hpass (Bool.eq_false_iff.mpr hown)
  | next label =>
    dsimp only
    split
    · exact (afterBody hl).runs
    · rename_i hown
      cases label with
      | none => exact absurd rfl hown
      | some name => exact hpass (Bool.eq_false_iff.mpr hown)
  | ret v | thrown v | fault f => exact hpass rfl

/-- A jump that a continuation does not stop goes on to the owners below it. -/
theorem intercept {k : Cont} (hk : k.In P os) {x : Abrupt} (hx : P.jump (owners [k] ++ os) x) :
    A.Runs P os s K (intercept s k x) := by
  cases k with
  | loopBody l => exact absorb hk hx
  | labeled name =>
    have hpass : (Owner.label name).stops x = false → A.Runs P os s K (throw x) :=
      fun hstop => Ends.throw (P.pass hx hstop)
    cases x with
    | leave label =>
      cases label with
      | none => exact hpass rfl
      | some l =>
        unfold Act.intercept
        dsimp only
        split
        · exact (yields _).runs
        · rename_i hne
          exact hpass (decide_eq_false hne)
    | _ => exact hpass rfl
  | _ => exact Ends.throw hx

end Atlas

end Fermata
