import Fermata.Proofs.Capture.Plan
import Fermata.Proofs.Capture.This
import Fermata.Proofs.Suspension.Checkpoint

/-!
# Steps with different scopes

Two machines that do the same on cores related by a plan stay in step. Where an activation gets a scope of its
own on one side only, its record asks for no scope: it binds nothing, so the new scope is an annex of the one
in which the other side goes on; it lists no literal, so no closure remembers an annex; and its code does not
ask what `this` is. What an activation in an annex does is therefore the same on both sides.

* `Frame.Twins`, `Activation.Twins`, `Machine.Twins`: what a plan relates on the stack.
* `Act.Pairs.instantiate`, `Act.Pairs.callClosure`: closures are made and called alike.
* `Act.Pairs.receive`: a continuation does the same, unless it calls the function that evaluates code.
* `Machine.Twins.step`: so does a step.
-/

namespace Fermata

open Act

/-! ## Activations -/

/-- The frames run the same code. If the second one has an annex, their record asks for no scope. -/
structure Frame.Twins (P : Plan) (f g : Frame) : Prop where
  rest : g = { f with scope := g.scope, unit := g.unit }
  unit : f.unit.Captures g.unit
  code : f.unit.Compiled
  scope : P.same f.scope g.scope ∨ P.annex f.scope g.scope ∧ f.unit.Elides f.record

/-- The activations have the same to do. Only a function runs in an annex. -/
structure Activation.Twins (P : Plan) (a b : Activation) : Prop where
  frame : a.frame.Twins P b.frame
  rest : b = { a with frame := b.frame }
  function : P.same a.frame.scope b.frame.scope ∨ ∃ name, a.boundary = .function name

/-- The moves lead to the same. A frame that linked a literal is in no annex. -/
inductive Move.Twins (P : Plan) : Move → Move → Prop
  | go (push control) : Twins P (.go push control) (.go push control)
  | linked {f g} (v) : f.Twins P g → P.same f.scope g.scope → Twins P (.linked f v) (.linked g v)
  | enter {a b} (push control) : a.Twins P b → Twins P (.enter push a control) (.enter push b control)

/-- The sites are of the same step. -/
structure Site.Twins (P : Plan) (s t : Site) : Prop where
  frame : s.frame.Twins P t.frame
  depth : t.depth = s.depth

section Monotony

variable {P Q : Plan} {f g : Frame} {a b : Activation} {s t : Site} {m n : Move}

theorem Frame.Twins.mono (h : f.Twins P g) (hPQ : P.Le Q) : f.Twins Q g :=
  ⟨h.rest, h.unit, h.code, h.scope.imp hPQ.same fun h => ⟨hPQ.annex h.1, h.2⟩⟩

theorem Activation.Twins.mono (h : a.Twins P b) (hPQ : P.Le Q) : a.Twins Q b :=
  ⟨h.frame.mono hPQ, h.rest, h.function.imp_left hPQ.same⟩

theorem Site.Twins.mono (h : s.Twins P t) (hPQ : P.Le Q) : s.Twins Q t := ⟨h.frame.mono hPQ, h.depth⟩

theorem Frame.Twins.stands (h : f.Twins P g) : P.Stands f.scope g.scope := h.scope.imp_right And.left

theorem Site.Twins.stands (h : s.Twins P t) : P.Stands s.scope t.scope := h.frame.stands

theorem Move.Twins.mono (h : m.Twins P n) (hPQ : P.Le Q) : m.Twins Q n := by
  cases h with
  | go push control => exact .go _ _
  | linked v hf hsame => exact .linked v (hf.mono hPQ) (hPQ.same hsame)
  | enter push control ha => exact .enter _ _ (ha.mono hPQ)

theorem Move.Twins.pushing (h : m.Twins P n) (ks : List Cont) :
    (m.pushing ks).Twins P (n.pushing ks) := by
  cases h with
  | go push control => exact .go _ _
  | linked v hf hsame => exact .linked v hf hsame
  | enter push control ha => exact .enter _ _ ha

/-- What a frame looks at besides its scope. -/
theorem Frame.Twins.fields (h : f.Twins P g) : g.name = f.name ∧ g.record = f.record ∧
    g.nextChild = f.nextChild ∧ g.location = f.location := by
  rw [h.rest]
  exact ⟨rfl, rfl, rfl, rfl⟩

theorem Frame.Twins.marked (h : f.Twins P g) (span : Span) :
    Frame.Twins P { f with location := span } { g with location := span } := by
  refine ⟨?_, h.unit, h.code, h.scope⟩
  rw [h.rest]

theorem Activation.Twins.mark (h : a.Twins P b) (span : Span) : (a.mark span).Twins P (b.mark span) := by
  refine ⟨h.frame.marked span, ?_, h.function⟩
  rw [h.rest]
  rfl

end Monotony

/-! ## Closures -/

namespace Core.Twins

variable {P : Plan} {c d : Core} {u v : CodeUnit} {a b : ScopeId}

/-- A closure is made on both sides. -/
theorem bearing (h : c.Twins P d) (hu : u.Captures v) (hcode : u.Compiled) (fn : FunctionNode) :
    (c.bearing fn u).Twins P (d.bearing fn v) := by
  obtain ⟨hrest, hveil⟩ := h
  generalize d.veil = W at hrest hveil
  subst hrest
  exact ⟨rfl, hveil.closure (k := c.nextClosure fn u) (l := (c.veiled W).nextClosure fn v) ⟨rfl, hu⟩ hcode
    c.engine.region⟩

/-- A closure is made and linked on both sides. -/
theorem linking (h : c.Twins P d) (hu : u.Captures v) (hcode : u.Compiled) (fn : FunctionNode)
    (hab : P.same a b) : (c.linking fn u a).Twins P (d.linking fn v b) := by
  obtain ⟨hrest, hveil⟩ := h
  generalize d.veil = W at hrest hveil
  subst hrest
  have hnext := (hveil.closures.next c.engine.region).symm
  exact ⟨rfl, (hveil.closure (k := c.nextClosure fn u) (l := (c.veiled W).nextClosure fn v) ⟨rfl, hu⟩ hcode
    c.engine.region).associate (x := ⟨c.heap.closures.next c.engine.region, a, fn.id⟩)
    (y := ⟨W.closures.next c.engine.region, b, fn.id⟩) ⟨hnext, rfl, hab⟩ c.engine.nextSerial⟩

end Core.Twins

/-- A frame in an annex makes no closure. -/
theorem Frame.Twins.same_of_child {P : Plan} {f g : Frame} (h : f.Twins P g) {r : ScopeRecord}
    (hr : f.unit.record? f.record = some r) (hchildren : r.children ≠ []) : P.same f.scope g.scope := by
  refine h.scope.resolve_right ?_
  rintro ⟨-, r', hr', hneed⟩
  rw [hr] at hr'
  cases hr'
  exact hchildren (h.code.elided hr hneed).2.1

namespace Act.Pairs

variable {α β : Type} {P : Plan} {V : Plan → α → β → Prop} {f g : Frame}

/-- What is read on both sides. -/
theorem reading {p : Heap → α} {q : Heap → β}
    (h : ∀ Q c d, P.Le Q → Core.Twins Q c d → V Q (p c.heap) (q d.heap)) :
    Pairs P V (Act.reads p) (Act.reads q) :=
  fun Q c d hPQ htwins => .ok (.refl Q) htwins (h Q c d hPQ htwins)

/-- An act may depend on the cores that it begins with. -/
theorem getting {p : Core → Act α} {q : Core → Act β}
    (h : ∀ Q c d, P.Le Q → Core.Twins Q c d → Pairs Q V (p c) (q d)) :
    Pairs P V (MonadState.get >>= p) (MonadState.get >>= q) :=
  fun Q c d hPQ htwins => h Q c d hPQ htwins Q c d (.refl Q) htwins

/-- **Literals become closures alike**; in an annex they do not. -/
theorem instantiate (hf : f.Twins P g) (node : Nat) :
    Pairs P (fun Q x y => y.1 = x.1 ∧ x.2.Twins Q y.2 ∧ Q.same x.2.scope y.2.scope)
      (instantiate f node) (instantiate g node) := by
  intro Q c d hPQ htwins
  replace hf := hf.mono hPQ
  obtain ⟨hname, hrecord, hnext, -⟩ := hf.fields
  rw [Law.instantiate_eq, Law.instantiate_eq, hf.unit.function?, hname, hrecord, hnext]
  cases hfn : f.unit.function? node with
  | none => exact .error (.refl Q) htwins
  | some fn =>
    have hborn := htwins.bearing hf.unit hf.code fn
    dsimp only
    cases hr : f.unit.record? f.record with
    | none =>
      rw [hf.unit.record?_none hr]
      exact .error (.refl Q) hborn
    | some r =>
      obtain ⟨q, hq, hrel⟩ := hf.unit.record?_some hr
      have hchildren : q.children = r.children := by rw [hrel.rest]
      rw [hq]
      dsimp only
      rw [hchildren]
      cases hn : nextChildAfter? r.children f.nextChild fn.id with
      | none => exact .error (.refl Q) hborn
      | some next =>
        have hmem := Act.mem_of_nextChildAfter? hn
        have hsame := hf.same_of_child hr (List.ne_nil_of_mem hmem)
        refine .ok (.refl Q) (htwins.linking hf.unit hf.code fn hsame)
          ⟨?_, ⟨?_, hf.unit, hf.code, .inl hsame⟩, hsame⟩
        · have hregion : d.engine.region = c.engine.region := by rw [htwins.engine_eq]
          rw [hregion]
          exact (htwins.veil.closures.next c.engine.region).symm
        · rw [hf.rest]

/-- A declared function is bound alike. -/
theorem bindDeclared (hf : f.Twins P g) (hsame : P.same f.scope g.scope) (name : String)
    (id : ClosureId) : Pairs P Equal (bindDeclared f name id) (bindDeclared g name id) := by
  intro Q c d hPQ htwins
  replace hsame := hPQ.same hsame
  obtain ⟨-, hrecord, -, -⟩ := hf.fields
  unfold Act.bindDeclared
  rw [get_bind, get_bind, htwins.isRoot hsame, htwins.declares hsame, hrecord]
  split
  · refine blind (P := Q) (Blind.getting (fun _ _ _ => rfl) fun c => ?_) Q c d (.refl Q) htwins
    exact Blind.set _ _ _
  · split
    · exact setName (.inl hsame) name _ Q c d (.refl Q) htwins
    · exact .ok (.refl Q) htwins rfl

theorem hoistAll (hf : f.Twins P g) (nodes : List Nat) :
    Pairs P (fun Q x y => x.Twins Q y ∧ (P.same f.scope g.scope → Q.same x.scope y.scope))
      (hoistAll f nodes) (hoistAll g nodes) := by
  induction nodes generalizing P f g with
  | nil => exact pure fun Q hPQ => ⟨hf.mono hPQ, fun h => hPQ.same h⟩
  | cons node nodes ih =>
    refine (instantiate hf node).bind fun Q x y hPQ hxy => ?_
    obtain ⟨id, f'⟩ := x
    obtain ⟨id', g'⟩ := y
    obtain ⟨hid, hf', hsame⟩ := hxy
    obtain rfl : id' = id := hid
    have hrest : ∀ {R : Plan}, Q.Le R → Pairs R (fun S x y => x.Twins S y ∧
        (P.same f.scope g.scope → S.same x.scope y.scope)) (Act.hoistAll f' nodes)
        (Act.hoistAll g' nodes) := by
      intro R hQR S c d hRS htwins
      have hpr := ih (hf'.mono hQR) S c d hRS htwins
      generalize Act.hoistAll f' nodes c = r at hpr ⊢
      generalize Act.hoistAll g' nodes d = t at hpr ⊢
      cases hpr with
      | ok hle htwins' hxy => exact .ok hle htwins' ⟨hxy.1, fun _ => hxy.2 (hQR.same hsame)⟩
      | error hle htwins' => exact .error hle htwins'
    refine bind (V := fun _ k l => Closure.node l = Closure.node k)
      (reading fun R c d _ htwins => by rw [(htwins.get_closure id').rest]) fun R k l hQR hnode => ?_
    dsimp only
    rw [hnode]
    cases k.node.name with
    | none => exact hrest hQR
    | some name =>
      exact bind (r := fun _ => Act.hoistAll f' nodes) (t := fun _ => Act.hoistAll g' nodes)
        (bindDeclared (hf'.mono hQR) (hQR.same hsame) name id') fun S _ _ hRS _ => hrest (hQR.trans hRS)

theorem hoist (hf : f.Twins P g) :
    Pairs P (fun Q x y => x.Twins Q y ∧ (P.same f.scope g.scope → Q.same x.scope y.scope))
      (hoist f) (hoist g) := by
  unfold Act.hoist
  rw [hf.fields.2.1]
  cases hr : f.unit.record? f.record with
  | none =>
    rw [hf.unit.record?_none hr]
    exact pure fun Q hPQ => ⟨hf.mono hPQ, fun h => hPQ.same h⟩
  | some r =>
    obtain ⟨q, hq, hrel⟩ := hf.unit.record?_some hr
    have hhoisted : q.hoisted = r.hoisted := by rw [hrel.rest]
    rw [hq]
    dsimp only
    rw [hhoisted]
    exact hoistAll hf _

/-! ## Calls -/

theorem openFrame (hf : f.Twins P g) {b : Boundary}
    (hb : P.same f.scope g.scope ∨ ∃ name, b = .function name) (body : List Stmt) :
    Pairs P Move.Twins (openFrame f b body) (openFrame g b body) :=
  (hoist hf).bind fun _ _ _ _ hxy =>
    pure fun _ hle => .enter _ _ ⟨hxy.1.mono hle, rfl, hb.imp_left fun h => hle.same (hxy.2 h)⟩

theorem openUnit {u v : CodeUnit} {x y : ScopeId} (hu : u.Captures v) (hcode : u.Compiled)
    (hxy : P.same x y) : Pairs P Move.Twins (openUnit u x) (openUnit v y) := by
  have hframe : (unitFrame u x).Twins P (unitFrame v y) := by
    refine ⟨?_, hu, hcode, .inl hxy⟩
    have hname : (unitFrame v y).name = (unitFrame u x).name := by
      unfold unitFrame
      dsimp only
      cases hr : u.record? 0 with
      | none => rw [hu.record?_none hr]
      | some r =>
        obtain ⟨q, hq, hrel⟩ := hu.record?_some hr
        rw [hq, hrel.rest]
    rw [← hname]
    rfl
  unfold Act.openUnit
  rw [hu.body]
  exact openFrame hframe (.inl hxy) _

/-- A scope below scopes that are the same, on both sides. -/
theorem newChild {x y : ScopeId} (hxy : P.same x y) (owner : String) (bindings : List Binding)
    (this : Value) : Pairs P (fun Q a b => Q.same a b)
      (Act.making fun h _ => h.newChild x owner bindings this)
      (Act.making fun h _ => h.newChild y owner bindings this) := by
  intro Q c d hPQ htwins
  have hveil := htwins.veil.push (hPQ.same hxy) (s := ⟨some x, owner, .locals bindings, this⟩)
    (t := ⟨some y, owner, .locals bindings, this⟩) rfl rfl
  refine .ok (Q.le_pair _ _) ⟨?_, hveil⟩ (.inr ⟨rfl, rfl⟩)
  conv_lhs => rw [htwins.rest]
  rfl

/-- An annex, on one side. -/
theorem attach {x y : ScopeId} (hxy : P.same x y) (owner : String) (this : Value) :
    Pairs P (fun Q a e => Q.annex a e) (Pure.pure x)
      (Act.making fun h _ => h.newChild y owner [] this) := by
  intro Q c d hPQ htwins
  have hveil := htwins.veil.attach (hPQ.same hxy) (t := ⟨some y, owner, .locals [], this⟩) rfl rfl
  refine .ok (Q.le_attach _ _) ⟨?_, hveil⟩ (.inr ⟨rfl, rfl⟩)
  conv_lhs => rw [htwins.rest]
  rfl

/-- **The scope of an activation**: the same, or an annex of the one in which the function was made. -/
theorem activationScope {r q : ScopeRecord} (hrq : r.Captures q) {x y : ScopeId} (hxy : P.same x y)
    (hnone : r.requiresCapture = false → r.bindings = []) (id : ClosureId) (this : Value)
    (args : List Value) :
    Pairs P (fun Q a b => Q.same a b ∨ Q.annex a b ∧ r.requiresCapture = false)
      (activationScope r id x this args) (activationScope q id y this args) := by
  have hvalues : Act.firstValue q id args = Act.firstValue r id args := by
    rw [hrq.rest]
    rfl
  have hbindings : q.bindings = r.bindings := by rw [hrq.rest]
  have hname : q.name = r.name := by rw [hrq.rest]
  unfold Act.activationScope
  rw [hvalues, hbindings, hname]
  cases hr : r.requiresCapture with
  | true =>
    rw [hrq.needs hr]
    exact after (Blind.mapM (Blind.firstValue r id args) r.bindings) fun bindings => by
      intro Q c d hPQ htwins
      cases newChild (hPQ.same hxy) r.name bindings this Q c d (.refl Q) htwins with
      | ok hle htwins' hab => exact .ok hle htwins' (.inl hab)
  | false =>
    cases hq : q.requiresCapture with
    | false => exact pure fun Q hPQ => .inl (hPQ.same hxy)
    | true =>
      rw [hnone hr]
      intro Q c d hPQ htwins
      cases attach (hPQ.same hxy) r.name this Q c d (.refl Q) htwins with
      | ok hle htwins' hae => exact .ok hle htwins' (.inr ⟨hae, rfl⟩)

/-- **A closure is called alike.** -/
theorem callClosure (depth : Nat) (id : ClosureId) (this : Value) (args : List Value) :
    Pairs P Move.Twins (callClosure depth id this args) (callClosure depth id this args) := by
  refine after (Blind.checkDepth depth) fun _ => getting fun Q c d _ htwins => ?_
  dsimp only
  have hclosure := htwins.get_closure id
  have hserial : (d.heap.closures.get id).serial = (c.heap.closures.get id).serial := by
    rw [hclosure.rest]
  have hnode : (d.heap.closures.get id).node = (c.heap.closures.get id).node := by
    rw [hclosure.rest]
  rw [hclosure.internalName, hserial, hnode]
  have hscope := htwins.veil.scope? (c.heap.closures.get id).serial
  change c.engine.links.scope? _ = none ∧ d.engine.links.scope? _ = none ∨ _ at hscope
  rcases hscope with ⟨hx, hy⟩ | ⟨x, y, hx, hy, hxy⟩
  · rw [hx, hy]
    exact throw _
  · change c.engine.links.scope? _ = _ at hx
    change d.engine.links.scope? _ = _ at hy
    rw [hx, hy]
    dsimp only
    cases hr : (c.heap.closures.get id).unit.record? (c.heap.closures.get id).node.id with
    | none =>
      rw [hclosure.unit.record?_none hr]
      exact throw _
    | some r =>
      obtain ⟨q, hq, hrel⟩ := hclosure.unit.record?_some hr
      have hcode := htwins.veil.code id _ (Heap.get?_of_record hr)
      have hname : q.name = r.name := by rw [hrel.rest]
      rw [hq]
      dsimp only
      refine (activationScope hrel hxy (fun hneed => (hcode.elided hr hneed).1) id this args).bind
        fun R a b hQR hab => ?_
      refine openFrame ⟨?_, hclosure.unit, hcode, ?_⟩ (.inr ⟨_, rfl⟩) _
      · rw [hname]
      · exact hab.imp_right fun h => ⟨h.1, r, hr, h.2⟩

/-- **A value is called alike**, unless it is the function that evaluates code. -/
theorem callValue {depth : Nat} {x y : ScopeId} {callee : Value}
    (hcallee : callee ≠ .native P.evalFunction) (this : Value) (args : List Value) :
    Pairs P Move.Twins (callValue depth x callee this args) (callValue depth y callee this args) := by
  unfold Act.callValue
  cases callee with
  | function id => exact callClosure depth id this args
  | native id =>
    intro Q c d hPQ htwins
    have heval : id ≠ P.evalFunction := fun h => hcallee (congrArg Value.native h)
    have hc : id ≠ c.engine.evalFunction := by
      rw [show c.engine.evalFunction = Q.evalFunction from htwins.veil.evalFunction.1, hPQ.evalFunction]
      exact heval
    have hd : id ≠ d.engine.evalFunction := by
      rw [show d.engine.evalFunction = Q.evalFunction from htwins.veil.evalFunction.2, hPQ.evalFunction]
      exact heval
    dsimp only
    rw [get_bind, get_bind, if_neg hc, if_neg hd]
    exact after (P := Q) (Blind.reads fun _ _ _ => rfl) (fun (n : Native) =>
      after (Blind.run n.builtin this args) fun v => pure fun _ _ => .go _ _) Q c d (.refl Q) htwins
  | _ => exact typeError _

theorem construct (depth : Nat) (callee : Value) (args : List Value) :
    Pairs P Move.Twins (construct depth callee args) (construct depth callee args) := by
  have hrefuse : Pairs P Move.Twins (do
      Act.typeError ((← reads (describe · callee)) ++ " is not a constructor") : Act Move) (do
      Act.typeError ((← reads (describe · callee)) ++ " is not a constructor") : Act Move) :=
    after (Blind.describe callee) fun _ => typeError _
  unfold Act.construct
  cases callee with
  | function id =>
    refine after (Blind.prototypeOf id) fun proto => after (Blind.newObject _) fun object => ?_
    exact (callClosure depth id _ args).bind fun _ _ _ _ hm => pure fun _ hle => (hm.mono hle).pushing _
  | native id =>
    refine after (Blind.reads fun _ _ _ => rfl) fun (n : Native) => ?_
    split
    · exact after (Blind.run n.builtin _ args) fun _ => pure fun _ _ => .go _ _
    · exact hrefuse
  | _ => exact hrefuse

/-! ## Expressions -/

variable {s t : Site}

theorem give (v : Value) : Pairs P Move.Twins (give v) (give v) := pure fun _ _ => .go _ _

theorem evalFor (k : Cont) (e : Expr) : Pairs P Move.Twins (evalFor k e) (evalFor k e) :=
  pure fun _ _ => .go _ _

theorem yields (v : Value) : Pairs P Move.Twins (yields v) (yields v) := pure fun _ _ => .go _ _

theorem readReference (hs : s.Twins P t) (ref : Reference) :
    Pairs P Equal (readReference s ref) (readReference t ref) := by
  cases ref with
  | binding name => exact getName hs.stands name
  | property object key implicit => exact blind (Blind.readMember object key implicit)

theorem writeReference (hs : s.Twins P t) (ref : Reference) (v : Value) :
    Pairs P Equal (writeReference s ref v) (writeReference t ref v) := by
  cases ref with
  | binding name => exact setName hs.stands name v
  | property object key implicit => exact blind (Blind.setProperty object key v)

/-- What follows the same value on both sides. -/
theorem following {p q : Act α} {r t : α → Act Move} (hp : Pairs P Equal p q)
    (hr : ∀ Q a, P.Le Q → Pairs Q Move.Twins (r a) (t a)) :
    Pairs P Move.Twins (p >>= r) (q >>= t) :=
  hp.bind fun Q a b hPQ hab => by
    subst hab
    exact hr Q b hPQ

theorem useReference (hs : s.Twins P t) (use : ReferenceUse) (ref : Reference) :
    Pairs P Move.Twins (useReference s use ref) (useReference t use ref) := by
  unfold Act.useReference
  cases use with
  | update op before => exact (readReference hs ref).following fun _ _ _ => pure fun _ _ => .go _ _
  | assign op value =>
    cases op with
    | plain => exact evalFor _ _
    | compound op | logical op =>
      exact (readReference hs ref).following fun _ _ _ => pure fun _ _ => .go _ _
  | delete =>
    cases ref with
    | binding name => exact give _
    | property object key implicit => exact after (Blind.deleteProperty _ _) fun _ => give _
  | loopItem loop item =>
    exact (writeReference hs ref item).following fun _ _ _ => pure fun _ _ => .go _ _

theorem useMember (hs : s.Twins P t) (use : MemberUse) (target : Value) (key : String) :
    Pairs P Move.Twins (useMember s use target key) (useMember t use target key) := by
  unfold Act.useMember
  cases use with
  | read implicit => exact after (Blind.readMember _ _ _) fun _ => give _
  | callee implicit args => exact after (Blind.readMember _ _ _) fun _ => pure fun _ _ => .go _ _
  | probe arg =>
    refine after (Blind.lacks target key) fun b => ?_
    split
    · exact give _
    · exact evalFor _ _
  | refer implicit use => exact useReference hs _ _

theorem startKey (hs : s.Twins P t) (use : MemberUse) (target : Value) (key : MemberKey) :
    Pairs P Move.Twins (startKey s use target key) (startKey t use target key) := by
  cases key with
  | named name => exact useMember hs _ _ _
  | computed e => exact evalFor _ _

theorem startReference (hs : s.Twins P t) (use : ReferenceUse) (target : Expr) :
    Pairs P Move.Twins (startReference s use target) (startReference t use target) := by
  unfold Act.startReference
  split
  · exact useReference hs _ _
  · exact evalFor _ _
  · exact raise _ _


theorem useList (hs : s.Twins P t) {use : ListUse} (values : List Value)
    (huse : ∀ callee this, use = .call callee this → callee ≠ .native P.evalFunction) :
    Pairs P Move.Twins (useList s use values) (useList t use values) := by
  unfold Act.useList
  cases use with
  | array => exact after (Blind.newObject _) fun _ => give _
  | call callee this =>
    dsimp only
    split
    · rw [hs.depth]
      exact (callValue (huse callee this rfl) this values).bind fun _ _ _ _ hm =>
        pure fun _ hle => (hm.mono hle).pushing _
    · exact typeError _
  | construct callee => exact evalFor _ _

theorem startList (hs : s.Twins P t) {use : ListUse} (before : List Value) (es : List Expr)
    (huse : es = [] → ∀ callee this, use = .call callee this → callee ≠ .native P.evalFunction) :
    Pairs P Move.Twins (startList s use before es) (startList t use before es) := by
  cases es with
  | nil => exact useList hs _ (huse rfl)
  | cons e rest => exact evalFor _ _

theorem startProperties (object : ObjectId) (ps : List PropertyDef) :
    Pairs P Move.Twins (startProperties object ps) (startProperties object ps) := by
  cases ps with
  | nil => exact give _
  | cons p rest => exact evalFor _ _

theorem startSequence (last : Value) (es : List Expr) :
    Pairs P Move.Twins (startSequence last es) (startSequence last es) := by
  cases es with
  | nil => exact give _
  | cons e rest => exact evalFor _ _

theorem startDelete (hs : s.Twins P t) (arg : Expr) :
    Pairs P Move.Twins (startDelete s arg) (startDelete t arg) := by
  unfold Act.startDelete
  split
  · exact startReference hs _ _
  · exact give _
  · exact evalFor _ _

theorem startTypeOf (arg : Expr) : Pairs P Move.Twins (startTypeOf arg) (startTypeOf arg) := by
  unfold Act.startTypeOf
  split
  · exact evalFor _ _
  · exact evalFor _ _

/-- **An expression begins alike.** What `this` is, only an activation outside of an annex asks. -/
theorem startExpr (hs : s.Twins P t) {e : Expr}
    (hthis : ∀ span, e = .this span → P.same s.scope t.scope) :
    Pairs P Move.Twins (startExpr s e) (startExpr t e) := by
  unfold Act.startExpr
  cases e with
  | array span es => exact startList hs _ _ fun _ _ _ => nofun
  | object span ps => exact after (Blind.newObject _) fun _ => startProperties _ _
  | ident span name => exact (getName hs.stands name).following fun _ _ _ => give _
  | this span =>
    refine following (reading fun Q c d hPQ htwins => ?_) fun _ _ _ => give _
    rw [(htwins.get_same (hPQ.same (hthis span rfl))).rest]
  | function span fn =>
    refine (instantiate hs.frame fn.id).bind fun Q x y hPQ hxy => ?_
    obtain ⟨id, f'⟩ := x
    obtain ⟨id', g'⟩ := y
    obtain ⟨hid, hf', hsame⟩ := hxy
    obtain rfl : id' = id := hid
    exact pure fun _ hle => .linked _ (hf'.mono hle) (hle.same hsame)
  | call span callee args => cases callee <;> exact evalFor _ _
  | construct span callee args => exact startList hs _ _ fun _ _ _ => nofun
  | unary span op arg =>
    cases op with
    | typeOf => exact startTypeOf _
    | delete => exact startDelete hs _
    | _ => exact evalFor _ _
  | update => exact startReference hs _ _
  | assign => exact startReference hs _ _
  | sequence span es => exact startSequence _ _
  | _ => exact pure fun _ _ => .go _ _

/-! ## Statements -/

theorem round (hs : s.Twins P t) (l : Loop) : Pairs P Move.Twins (l.round s) (l.round t) := by
  unfold Loop.round
  split
  case h_6 =>
    split
    · exact (setName hs.stands _ _).following fun _ _ _ => pure fun _ _ => .go _ _
    · exact startReference hs _ _
  all_goals exact pure fun _ _ => .go _ _

theorem afterTest (hs : s.Twins P t) (l : Loop) (v : Value) :
    Pairs P Move.Twins (l.afterTest s v) (l.afterTest t v) := by
  unfold Loop.afterTest
  split
  · exact yields _
  · split
    · exact round hs l
    · exact pure fun _ _ => .go _ _

theorem afterBody (hs : s.Twins P t) (l : Loop) :
    Pairs P Move.Twins (l.afterBody s) (l.afterBody t) := by
  unfold Loop.afterBody
  split
  · exact evalFor _ _
  · exact evalFor _ _
  · exact round hs l

theorem absorb (hs : s.Twins P t) (l : Loop) (x : Abrupt) :
    Pairs P Move.Twins (l.absorb s x) (l.absorb t x) := by
  unfold Loop.absorb
  split
  · split
    · exact yields _
    · exact throw _
  · split
    · exact afterBody hs l
    · exact throw _
  · exact throw _

theorem startDeclarations (hs : s.Twins P t) (next : DeclareEnd) (ds : List VarDecl) :
    Pairs P Move.Twins (startDeclarations s next ds) (startDeclarations t next ds) := by
  induction ds with
  | nil =>
    cases next with
    | done => exact yields _
    | loop l => exact round hs l
  | cons d rest ih =>
    unfold Act.startDeclarations
    split
    · exact evalFor _ _
    · exact ih

theorem startStatements (last : Value) (ts : List Stmt) :
    Pairs P Move.Twins (startStatements last ts) (startStatements last ts) := by
  cases ts <;> exact pure fun _ _ => .go _ _

theorem startFor (hs : s.Twins P t) (init : Option ForInit) (l : Loop) :
    Pairs P Move.Twins (startFor s init l) (startFor t init l) := by
  unfold Act.startFor
  split
  · exact startDeclarations hs _ _
  · exact evalFor _ _
  · exact round hs l

/-- **A statement begins alike.** -/
theorem startStmt (hs : s.Twins P t) (u : Stmt) (labels : List String) :
    Pairs P Move.Twins (startStmt s u labels) (startStmt t u labels) := by
  unfold Act.startStmt
  cases u with
  | declare span ds => exact startDeclarations hs _ _
  | ret span e =>
    cases e with
    | none => exact throw _
    | some e => exact evalFor _ _
  | whileLoop | doLoop => exact round hs _
  | forLoop => exact startFor hs _ _
  | leave | next | guarded => exact throw _
  | block => exact startStatements _ _
  | _ => exact pure fun _ _ => .go _ _

/-! ## Continuations -/

theorem assign (hs : s.Twins P t) (ref : Reference) (v : Value) :
    Pairs P Move.Twins (assign s ref v) (assign t ref v) :=
  (writeReference hs ref v).following fun _ _ _ => give _

/-- **A continuation receives a value alike**, unless it calls the function that evaluates code. -/
theorem receive (hs : s.Twins P t) {k : Cont} {v : Value}
    (hcall : ∀ call, k.call? v = some call → call.isNew = false →
      call.callee ≠ .native P.evalFunction) :
    Pairs P Move.Twins (receive s k v) (receive t k v) := by
  unfold Act.receive
  cases k with
  | ret => exact throw _
  | element use before rest =>
    refine startList hs _ _ fun hrest callee this huse => ?_
    subst hrest huse
    exact hcall _ rfl rfl
  | callee args =>
    refine startList hs _ _ fun hargs callee this huse => ?_
    subst hargs
    cases huse
    exact hcall _ rfl rfl
  | method receiver args =>
    refine startList hs _ _ fun hargs callee this huse => ?_
    subst hargs
    cases huse
    exact hcall _ rfl rfl
  | property object key rest => exact after (Blind.set object key v) fun _ => startProperties _ _
  | memberTarget key use => exact startKey hs _ _ _
  | memberKey target use =>
    exact after (Blind.reads fun _ _ hV => Heap.key_veiled hV v) fun _ => useMember hs _ _ _
  | constructed args =>
    rw [hs.depth]
    exact construct _ v args
  | unary op => exact after (Blind.unary op v) fun _ => give _
  | binaryRight op left => exact after (Blind.binary op left v) fun _ => give _
  | logicalLeft | logicalOld =>
    dsimp only
    split
    · exact give _
    · exact evalFor _ _
  | sequence rest => exact startSequence _ _
  | updateOld ref op before =>
    refine after (Blind.reads fun _ _ hV => Heap.number_veiled hV v) fun old => ?_
    exact (writeReference hs ref _).following fun _ _ _ => give _
  | assignValue ref => exact assign hs _ _
  | compoundValue ref op old => exact after (Blind.binary op old v) fun _ => assign hs _ _
  | body rest => exact startStatements _ _
  | declare name rest next =>
    exact (setName hs.stands _ _).following fun _ _ hle => startDeclarations (hs.mono hle) _ _
  | raise => exact throw _
  | cond yes no =>
    dsimp only
    split
    · exact pure fun _ _ => .go _ _
    · cases no with
      | none => exact yields _
      | some t => exact pure fun _ _ => .go _ _
  | loopInit l | loopUpdate l => exact round hs l
  | loopTest l => exact afterTest hs l v
  | loopBody l => exact afterBody hs _
  | eachSource kind target body labels => exact after (Blind.loopItems kind v) fun _ => round hs _
  | _ => exact pure fun _ _ => .go _ _

/-- **A continuation meets a transfer alike.** -/
theorem intercept (hs : s.Twins P t) (k : Cont) (x : Abrupt) :
    Pairs P Move.Twins (intercept s k x) (intercept t k x) := by
  unfold Act.intercept
  split
  · exact absorb hs _ _
  · split
    · exact yields _
    · exact throw _
  · exact throw _

end Act.Pairs

/-! ## Machines -/

/-- The machines have the same to do. -/
structure Machine.Twins (P : Plan) (m n : Machine) : Prop where
  control : n.control = m.control
  stack : List.Forall₂ (Activation.Twins P) m.stack n.stack

/-- The steps lead to the same. -/
inductive Progress.Twins (P : Plan) : Progress → Progress → Prop
  | running {m n} : m.Twins P n → Twins P (.running m) (.running n)
  | parked {m n} (p) : m.Twins P n → Twins P (.parked m p) (.parked n p)
  | done (o) : Twins P (.done o) (.done o)

/-- The step that the machine is about to make calls the function that evaluates code. -/
def Machine.CallsEval (m : Machine) (c : Core) : Prop :=
  ∃ call, m.call? = some call ∧ call.isNew = false ∧ call.callee = .native c.engine.evalFunction

/-- Both sides came to the same, and a further plan relates them. -/
def Plan.Follows (P : Plan) (x y : Progress × Core) : Prop :=
  ∃ Q, P.Le Q ∧ x.1.Twins Q y.1 ∧ x.2.Twins Q y.2

namespace Machine.Twins

variable {P Q : Plan} {m n : Machine} {c d : Core} {a b : Activation} {callers others : List Activation}

theorem mono (h : m.Twins P n) (hPQ : P.Le Q) : m.Twins Q n :=
  ⟨h.control, h.stack.imp fun _ _ h => h.mono hPQ⟩

/-- The positions of the live activations are the same. -/
theorem positions (h : m.Twins P n) (limit : Nat) : n.positions limit = m.positions limit := by
  obtain ⟨-, hstack⟩ := h
  unfold Machine.positions
  generalize m.stack = as at hstack ⊢
  generalize n.stack = bs at hstack ⊢
  induction hstack generalizing limit with
  | nil => rfl
  | cons hab _ ih =>
    cases limit with
    | zero => rfl
    | succ limit =>
      obtain ⟨hname, -, -, hlocation⟩ := hab.frame.fields
      rw [List.take_succ_cons, List.take_succ_cons, List.map_cons, List.map_cons, ih limit]
      unfold Frame.position
      rw [hname, hlocation]

theorem apply {x y : Move} (ha : a.Twins P b) (hcallers : List.Forall₂ (Activation.Twins P) callers others)
    (hxy : x.Twins P y) : (Machine.apply a callers x).Twins P (Machine.apply b others y) := by
  obtain ⟨haf, har, hak⟩ := ha
  cases hxy with
  | go push control =>
    refine ⟨rfl, .cons ⟨haf, ?_, hak⟩ hcallers⟩
    rw [har]
    rfl
  | linked v hf hsame =>
    refine ⟨rfl, .cons ⟨hf, ?_, .inl hsame⟩ hcallers⟩
    rw [har]
  | enter push control hnew =>
    refine ⟨rfl, .cons hnew (.cons ⟨haf, ?_, hak⟩ hcallers)⟩
    rw [har]
    rfl

theorem perform {p q : Act Move} (hpq : Pairs P Move.Twins p q) (ha : a.Twins P b)
    (hcallers : List.Forall₂ (Activation.Twins P) callers others) (h : c.Twins P d) :
    P.Follows (Machine.perform a callers p c) (Machine.perform b others q d) := by
  have hpr := hpq P c d (.refl P) h
  unfold Machine.perform
  generalize p c = r at hpr
  generalize q d = t at hpr
  have hcallers' : ∀ {Q}, P.Le Q → List.Forall₂ (Activation.Twins Q) callers others :=
    fun hle => hcallers.imp fun _ _ h => h.mono hle
  cases hpr with
  | ok hle htwins hxy => exact ⟨_, hle, .running (apply (ha.mono hle) (hcallers' hle) hxy), htwins⟩
  | error hle htwins => exact ⟨_, hle, .running ⟨rfl, .cons (ha.mono hle) (hcallers' hle)⟩, htwins⟩

/-- What an act starts on an empty stack. -/
theorem start {p q : Act Move} (hpq : Pairs P Move.Twins p q) (h : c.Twins P d) :
    ∃ Q, P.Le Q ∧ (Machine.start p c).1.Twins Q (Machine.start q d).1 ∧
      (Machine.start p c).2.Twins Q (Machine.start q d).2 := by
  have hpr := hpq P c d (.refl P) h
  unfold Machine.start
  generalize p c = r at hpr
  generalize q d = t at hpr
  cases hpr with
  | ok hle htwins hxy =>
    cases hxy with
    | go push control => exact ⟨_, hle, ⟨rfl, .nil⟩, htwins⟩
    | linked v hf hsame => exact ⟨_, hle, ⟨rfl, .nil⟩, htwins⟩
    | enter push control ha => exact ⟨_, hle, ⟨rfl, .cons ha .nil⟩, htwins⟩
  | error hle htwins => exact ⟨_, hle, ⟨rfl, .nil⟩, htwins⟩

/-- An activation that is about to ask what `this` is is in no annex. -/
theorem same_of_this (ha : a.Twins P b) {span : Span} {e : Expr} (he : e = .this span)
    (hplaced : (Atlas.thisless.parts a).expr e) : P.same a.frame.scope b.frame.scope := by
  rcases ha.function with hsame | ⟨name, hboundary⟩
  · exact hsame
  · refine ha.frame.scope.resolve_right ?_
    rintro ⟨-, helides⟩
    obtain ⟨frame, boundary, conts⟩ := a
    obtain rfl : boundary = .function name := hboundary
    exact (hplaced helides).ne_this span he

/-- **A step is the same on both sides**, unless it calls the function that evaluates code. -/
theorem step (hm : m.Twins P n) (h : c.Twins P d) (hplaced : m.Placed .thisless)
    (heval : ¬m.CallsEval c) : P.Follows (m.step c) (n.step d) := by
  obtain ⟨control, stack⟩ := m
  obtain ⟨control', stack'⟩ := n
  obtain ⟨hcontrol, hstack⟩ := hm
  obtain rfl : control' = control := hcontrol
  dsimp only at hstack
  cases hstack with
  | nil => cases control' <;> exact ⟨P, .refl P, .done _, h⟩
  | @cons a b callers others ha hcallers =>
    obtain ⟨haf, har, hak⟩ := ha
    have hsite : ∀ {x y : Frame} {as bs : List Activation}, x.Twins P y →
        List.Forall₂ (Activation.Twins P) as bs → Site.Twins P ⟨x, as⟩ ⟨y, bs⟩ := fun hxy has =>
      ⟨hxy, congrArg (· + 1) has.length_eq.symm⟩
    cases control' with
    | eval e =>
      have hmarked := (Activation.Twins.mk haf har hak).mark e.span
      refine perform (Pairs.startExpr (hsite hmarked.frame hcallers) fun span he => ?_) hmarked hcallers h
      exact same_of_this (a := a) (b := b) ⟨haf, har, hak⟩ he hplaced.2
    | exec u labels =>
      have hmarked := (Activation.Twins.mk haf har hak).mark u.span
      exact perform (Pairs.startStmt (hsite hmarked.frame hcallers) u labels) hmarked hcallers h
    | checkpoint v =>
      have hpr := Pairs.blind (P := P) (Blind.pass v) P c d (.refl P) h
      unfold Machine.step
      dsimp only
      generalize Act.pass v c = r at hpr
      generalize Act.pass v d = t at hpr
      have hall : ∀ {Q}, P.Le Q → List.Forall₂ (Activation.Twins Q) (a :: callers) (b :: others) :=
        fun hle => .cons ((Activation.Twins.mk haf har hak).mono hle)
          (hcallers.imp fun _ _ h => h.mono hle)
      cases hpr with
      | @ok Q x y c' d' hle htwins hxy =>
        obtain rfl : y = x := hxy
        cases y with
        | waiting p => exact ⟨Q, hle, .parked p ⟨rfl, hall hle⟩, htwins⟩
        | _ => exact ⟨Q, hle, .running ⟨rfl, hall hle⟩, htwins⟩
      | error hle htwins => exact ⟨_, hle, .running ⟨rfl, hall hle⟩, htwins⟩
    | waiting p => exact ⟨P, .refl P, .parked p ⟨rfl, .cons ⟨haf, har, hak⟩ hcallers⟩, h⟩
    | value v =>
      obtain ⟨frame, boundary, conts⟩ := a
      obtain ⟨frame', boundary', conts'⟩ := b
      cases har
      cases conts with
      | nil => exact ⟨P, .refl P, .running ⟨rfl, hcallers⟩, h⟩
      | cons k conts =>
        refine perform (a := ⟨frame, boundary, conts⟩) (b := ⟨frame', boundary, conts⟩)
          (Pairs.receive (hsite haf hcallers) fun call hcall hnew hcallee => ?_) ⟨haf, rfl, hak⟩ hcallers h
        refine heval ⟨call, hcall, hnew, hcallee.trans (congrArg Value.native ?_)⟩
        exact h.veil.evalFunction.1.symm
    | abrupt x =>
      obtain ⟨frame, boundary, conts⟩ := a
      obtain ⟨frame', boundary', conts'⟩ := b
      cases har
      cases conts with
      | nil => exact ⟨P, .refl P, .running ⟨rfl, hcallers⟩, h⟩
      | cons k conts =>
        exact perform (a := ⟨frame, boundary, conts⟩) (b := ⟨frame', boundary, conts⟩)
          (Pairs.intercept (hsite haf hcallers) k x) ⟨haf, rfl, hak⟩ hcallers h

end Machine.Twins

end Fermata
