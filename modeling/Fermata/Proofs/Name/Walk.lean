import Fermata.Proofs.Name.Context
import Fermata.Proofs.Resolve.Pass

/-!
# The walk of the pass

Whatever tree the pass goes through, what it does to its state depends on the mentions of the tree
alone: a name is referred to, a literal is entered, walked through and left. `Resolve.Walk` says so,
and the rest of the theory goes by induction on it instead of on trees.

* `Resolve.Walk`: the steps of the pass along mentions.
* `Resolve.stmts_walks`: the pass walks along the mentions of a body, and puts in no names but
  `global` and `undefined`.
-/

namespace Fermata

/-- Names that the pass puts in. -/
def Inserted (x : String) : Prop := x = globalName ∨ x = "undefined"

/-- All names of the first mentions are among the second ones, or were put in; all literals have the
numbers of literals among the second ones. -/
structure Stems (ms ns : List Mention) : Prop where
  name : ∀ x, .name x ∈ ms → .name x ∈ ns ∨ Inserted x
  literal : ∀ fn, .literal fn ∈ ms → ∃ g, .literal g ∈ ns ∧ g.id = fn.id

/-- The function was resolved from this one. -/
structure FunctionNode.Resolves (fn g : FunctionNode) : Prop where
  id : fn.id = g.id
  name : fn.name = g.name
  params : fn.params = g.params
  isDeclaration : fn.isDeclaration = g.isDeclaration
  span : fn.span = g.span
  names : Stems (Mention.ofStmts true fn.body) g.mentions

theorem Stems.nil (ns : List Mention) : Stems [] ns :=
  ⟨fun _ hx => absurd hx List.not_mem_nil, fun _ hfn => absurd hfn List.not_mem_nil⟩

theorem Stems.append {ms ms' ns ns' : List Mention} (h : Stems ms ns) (h' : Stems ms' ns') :
    Stems (ms ++ ms') (ns ++ ns') := by
  refine ⟨fun x hx => ?_, fun fn hfn => ?_⟩
  · rcases List.mem_append.mp hx with hx | hx
    · exact (h.name x hx).imp_left fun hx => List.mem_append.mpr (.inl hx)
    · exact (h'.name x hx).imp_left fun hx => List.mem_append.mpr (.inr hx)
  · rcases List.mem_append.mp hfn with hfn | hfn
    · obtain ⟨g, hg, hid⟩ := h.literal fn hfn
      exact ⟨g, List.mem_append.mpr (.inl hg), hid⟩
    · obtain ⟨g, hg, hid⟩ := h'.literal fn hfn
      exact ⟨g, List.mem_append.mpr (.inr hg), hid⟩

theorem Stems.of_mem {ms ns : List Mention} (h : ∀ m ∈ ms, m ∈ ns) : Stems ms ns :=
  ⟨fun _ hx => .inl (h _ hx), fun fn hfn => ⟨fn, h _ hfn, rfl⟩⟩

theorem Stems.trans_mem {ms ns ns' : List Mention} (h : Stems ms ns) (h' : ∀ m ∈ ns, m ∈ ns') :
    Stems ms ns' := by
  refine ⟨fun x hx => (h.name x hx).imp_left (h' _), fun fn hfn => ?_⟩
  obtain ⟨g, hg, hid⟩ := h.literal fn hfn
  exact ⟨g, h' _ hg, hid⟩

/-- A name that was put in. -/
theorem Stems.inserted {x : String} (hx : Inserted x) (ns : List Mention) : Stems [.name x] ns := by
  refine ⟨fun y hy => ?_, fun fn hfn => ?_⟩
  · cases List.mem_singleton.mp hy
    exact .inr hx
  · cases List.mem_singleton.mp hfn

/-- A literal keeps its number. -/
theorem Stems.one {fn g : FunctionNode} (hid : g.id = fn.id) : Stems [.literal fn] [.literal g] := by
  refine ⟨fun x hx => ?_, fun fn' hfn => ?_⟩
  · cases List.mem_singleton.mp hx
  · cases List.mem_singleton.mp hfn
    exact ⟨g, List.mem_cons_self, hid⟩

/-- The first mentions are what became of the second ones, and these are their literals. -/
structure Renders (ms ns : List Mention) (fns : List FunctionNode) : Prop where
  stems : Stems ms ns
  literals : Mention.literals ms = fns

namespace Renders

variable {ms ms' ns ns' : List Mention} {fns fns' : List FunctionNode}

theorem nil (ns : List Mention) : Renders [] ns [] := ⟨.nil ns, rfl⟩

theorem append (h : Renders ms ns fns) (h' : Renders ms' ns' fns') :
    Renders (ms ++ ms') (ns ++ ns') (fns ++ fns') :=
  ⟨h.stems.append h'.stems, by rw [Mention.literals_append, h.literals, h'.literals]⟩

theorem name (x : String) : Renders [.name x] [.name x] [] := ⟨.of_mem fun _ h => h, rfl⟩

theorem inserted {x : String} (hx : Inserted x) (ns : List Mention) : Renders [.name x] ns [] :=
  ⟨.inserted hx ns, rfl⟩

theorem one {fn g : FunctionNode} (hid : g.id = fn.id) : Renders [.literal fn] [.literal g] [fn] :=
  ⟨.one hid, rfl⟩

/-- The order in which the parts were gone through does not matter, as long as the literals keep
theirs. -/
theorem reorder (h : Renders ms ns fns) (hmem : ∀ m ∈ ns, m ∈ ns') (hfns : fns = fns') :
    Renders ms ns' fns' := ⟨h.stems.trans_mem hmem, h.literals.trans hfns⟩

end Renders

namespace Resolve

/-! ## Steps along mentions -/

/-- Add a literal to the innermost context. -/
def addChild (g : FunctionNode) : List Context → List Context
  | ctx :: rest =>
    (if g.isDeclaration then { ctx with hoisted := ctx.hoisted ++ [g.id] }
      else { ctx with literals := ctx.literals ++ [g.id] }) :: rest
  | [] => []

namespace State

/-- After a reference to a name. -/
def refer (s : State) (x : String) : State := { s with stack := (referStack x s.stack).1 }

/-- Inside a literal. -/
def enter (s : State) (g : FunctionNode) : State :=
  { s with stack := Context.ofFunction g :: addChild g s.stack }

/-- The innermost context. -/
def top (s : State) : Context := s.stack.headD { id := 0, isRoot := true }

/-- Behind a literal. -/
def leave (s : State) (fn : FunctionNode) : State :=
  { s with
    stack := s.stack.tail
    records := s.records.setIfInBounds s.top.id
      (some (s.top.toRecord (fn.name.getD ("anonymous_" ++ toString fn.id)) fn.params fn.span))
    functions := s.functions.setIfInBounds fn.id (some fn) }

/-- No name was referred to and no literal met. -/
structure Like (s s' : State) : Prop where
  records : s'.records = s.records
  functions : s'.functions = s.functions
  stack : Grown [] s.stack s'.stack

theorem Like.refl (s : State) : s.Like s := ⟨rfl, rfl, .refl _⟩

theorem Like.trans {s t u : State} (h : s.Like t) (h' : t.Like u) : s.Like u :=
  ⟨h'.records.trans h.records, h'.functions.trans h.functions, h.stack.trans h'.stack⟩

/-- The pass is outside every function. -/
def atRoot (s : State) : Bool := s.top.isRoot

end State

/-- What the pass does along mentions, and what their literals become. -/
inductive Walk : List Mention → List FunctionNode → State → State → Prop
  | nil {s s'} : s.Like s' → Walk [] [] s s'
  | name {x ms fns s s₁ s'} : s.Like s₁ → Walk ms fns (s₁.refer x) s' → Walk (.name x :: ms) fns s s'
  | literal {g fn ms fns s s₁ s₂ s'} : s.Like s₁ →
      Walk g.mentions (Mention.literals fn.mentions) (s₁.enter g) s₂ →
      fn.Resolves g → Walk ms fns (s₂.leave fn) s' → Walk (.literal g :: ms) (fn :: fns) s s'

theorem addChild_grown (g : FunctionNode) (cs : List Context) :
    Grown [.literal g] cs (addChild g cs) := by
  cases cs with
  | nil => trivial
  | cons c cs =>
    refine ⟨?_, .refl cs⟩
    cases hd : g.isDeclaration with
    | true =>
      refine ⟨rfl, rfl, by simp, fun _ h => h, fun _ h => .inl h, id, ?_, ?_⟩ <;>
        simp [Mention.declarations, Mention.expressions, Mention.literals, hd]
    | false =>
      refine ⟨rfl, rfl, by simp, fun _ h => h, fun _ h => .inl h, id, ?_, ?_⟩ <;>
        simp [Mention.declarations, Mention.expressions, Mention.literals, hd]

namespace Walk

variable {ms ns : List Mention} {fns gns : List FunctionNode} {s t u : State}

/-- What a walk makes of the contexts. -/
theorem grown (h : Walk ms fns s t) : Grown ms s.stack t.stack := by
  induction h with
  | nil hlike => exact hlike.stack
  | name hlike _ ih => exact hlike.stack.trans ((referStack_grown _ _).1.trans ih)
  | @literal g fn ms fns s s₁ s₂ s' hlike _ _ _ ihbody ih =>
    cases hstack : s₂.stack with
    | nil =>
      rw [hstack] at ihbody
      exact ihbody.elim
    | cons c cs =>
      rw [hstack] at ihbody
      have hrest : Grown ms cs s'.stack := by
        have hleave : (s₂.leave fn).stack = cs := by
          unfold State.leave
          rw [hstack]
          rfl
        exact hleave ▸ ih
      exact hlike.stack.trans (((addChild_grown g s₁.stack).trans ihbody.2).trans hrest)

theorem like_left (hlike : s.Like t) (h : Walk ms fns t u) : Walk ms fns s u := by
  cases h with
  | nil hlike' => exact .nil (hlike.trans hlike')
  | name hlike' h => exact .name (hlike.trans hlike') h
  | literal hlike' hbody hfn h => exact .literal (hlike.trans hlike') hbody hfn h

theorem append (h : Walk ms fns s t) (h' : Walk ns gns t u) :
    Walk (ms ++ ns) (fns ++ gns) s u := by
  induction h with
  | nil hlike => exact h'.like_left hlike
  | name hlike _ ih => exact .name hlike (ih h')
  | literal hlike hbody hfn _ _ ih => exact .literal hlike hbody hfn (ih h')

theorem atRoot (h : Walk ms fns s t) : t.atRoot = s.atRoot := by
  have hgrown := h.grown
  unfold State.atRoot State.top
  cases hs : s.stack with
  | nil =>
    cases ht : t.stack with
    | nil => rfl
    | cons =>
      rw [hs, ht] at hgrown
      exact hgrown.elim
  | cons c cs =>
    cases ht : t.stack with
    | nil =>
      rw [hs, ht] at hgrown
      exact hgrown.elim
    | cons d ds =>
      rw [hs, ht] at hgrown
      exact hgrown.1.isRoot

end Walk

/-! ## Steps of the pass -/

variable {α β : Type} {root : Bool} {ms ns : List Mention} {Q : α → List FunctionNode → Prop}
  {R : β → List FunctionNode → Prop}

/-- At the top level or in a function, the step walks along the mentions and gives what `Q` allows
beside what their literals become. -/
def Walks (root : Bool) (ms : List Mention) (p : Pass α) (Q : α → List FunctionNode → Prop) : Prop :=
  ∀ s a s', s.atRoot = root → p s = .ok (a, s') → ∃ fns, Walk ms fns s s' ∧ Q a fns

/-- Without mentions there are no literals. -/
theorem Walk.fns_nil {fns : List FunctionNode} {s t : State} (h : Walk [] fns s t) : fns = [] := by
  cases h
  rfl

namespace Walks

theorem pure {a : α} (ha : Q a []) : Walks root [] (Pure.pure a) Q := by
  intro s b s' _ heq
  cases heq
  exact ⟨[], .nil (.refl s), ha⟩

theorem bind {p : Pass α} {q : α → Pass β} (hp : Walks root ms p Q)
    (hq : ∀ a fns, Q a fns → Walks root ns (q a) fun b gns => R b (fns ++ gns)) :
    Walks root (ms ++ ns) (p >>= q) R := by
  intro s b s'' hroot heq
  simp only [Bind.bind, StateT.bind, Except.bind] at heq
  cases hps : p s with
  | error e =>
    rw [hps] at heq
    cases heq
  | ok r =>
    obtain ⟨a, s'⟩ := r
    rw [hps] at heq
    obtain ⟨fns, hwalk, ha⟩ := hp s a s' hroot hps
    obtain ⟨gns, hwalk', hb⟩ := hq a fns ha s' b s'' (hwalk.atRoot.trans hroot) heq
    exact ⟨fns ++ gns, hwalk.append hwalk', hb⟩

/-- A step behind all mentions. -/
theorem before {p : Pass α} {q : α → Pass β} (hp : Walks root ms p Q)
    (hq : ∀ a fns, Q a fns → Walks root [] (q a) fun b _ => R b fns) :
    Walks root ms (p >>= q) R := by
  have h : Walks root (ms ++ []) (p >>= q) R := by
    refine hp.bind fun a fns ha s b s' hroot heq => ?_
    obtain ⟨gns, hwalk, hb⟩ := hq a fns ha s b s' hroot heq
    obtain rfl := hwalk.fns_nil
    refine ⟨[], hwalk, ?_⟩
    change R b (fns ++ [])
    rwa [List.append_nil]
  rwa [List.append_nil] at h

/-- A step that gives the result its shape. -/
theorem map {p : Pass α} {f : α → β} (hp : Walks root ms p Q) (hf : ∀ a fns, Q a fns → R (f a) fns) :
    Walks root ms (p >>= fun a => Pure.pure (f a)) R :=
  hp.before fun a fns ha => pure (hf a fns ha)

/-- A step before all mentions. -/
theorem after {p : Pass α} {q : α → Pass β} (hp : Walks root [] p Q)
    (hq : ∀ a, Q a [] → Walks root ns (q a) R) : Walks root ns (p >>= q) R := by
  intro s b s'' hroot heq
  simp only [Bind.bind, StateT.bind, Except.bind] at heq
  cases hps : p s with
  | error e =>
    rw [hps] at heq
    cases heq
  | ok r =>
    obtain ⟨a, s'⟩ := r
    rw [hps] at heq
    obtain ⟨fns, hwalk, ha⟩ := hp s a s' hroot hps
    obtain rfl := hwalk.fns_nil
    obtain ⟨gns, hwalk', hb⟩ := hq a ha s' b s'' (hwalk.atRoot.trans hroot) heq
    exact ⟨gns, hwalk.append hwalk', hb⟩

theorem refuse {cause : InvalidCause} {span : Span} : Walks root ms (refuse cause span) Q :=
  fun _ _ _ _ heq => nomatch heq

/-- A change that refers to nothing. -/
theorem modify {f : State → State} (hf : ∀ s : State, s.Like (f s)) :
    Walks root [] (modify f) fun _ _ => True := by
  intro s a s' _ heq
  cases heq
  exact ⟨[], .nil (hf s), trivial⟩

theorem modifyTop {f : Context → Context} (hf : ∀ c : Context, c.Grows [] (f c)) :
    Walks root [] (modifyTop f) fun _ _ => True := by
  refine modify fun s => ?_
  cases hstack : s.stack with
  | nil => exact .refl s
  | cons c cs =>
    refine ⟨rfl, rfl, ?_⟩
    rw [hstack]
    exact ⟨hf c, .refl cs⟩

end Walks

/-! ## Names -/

theorem resolve_walks (root : Bool) (x : String) :
    Walks root [.name x] (resolve x) fun _ fns => fns = [] := by
  intro s a s' _ heq
  cases heq
  exact ⟨[], .name (.refl s) (.nil (.refl _)), rfl⟩

theorem atRoot_walks : Walks root [] atRoot fun b _ => b = root := by
  intro s a s' hroot heq
  cases heq
  exact ⟨[], .nil (.refl s), hroot⟩

/-- All functions around an `eval` keep their names. -/
theorem keepNames_like (s : State) :
    s.Like { s with stack := s.stack.map fun c =>
      if c.isRoot then c else { c with hasEval := true } } := by
  refine ⟨rfl, rfl, ?_⟩
  dsimp only
  generalize s.stack = cs
  induction cs with
  | nil => trivial
  | cons c cs ih =>
    refine ⟨?_, ih⟩
    dsimp only
    split
    · exact .refl c
    · exact .aside rfl rfl rfl rfl rfl rfl

theorem identifier_walks (root : Bool) (x : String) (span : Span) :
    Walks root [.name x] (identifier x span) fun e fns => Renders (Mention.ofExpr e) [.name x] fns := by
  have hident : Renders (Mention.ofExpr (.ident span x)) [.name x] [] := by
    simp only [Mention.ofExpr]
    exact .name x
  have hmember : Renders (Mention.ofExpr (globalMember x span true)) [.name x] [] := by
    simp only [globalMember, Mention.ofExpr, Mention.ofKey, List.append_nil]
    exact .inserted (.inl rfl) _
  refine (resolve_walks root x).before fun bound fns hfns => ?_
  subst hfns
  split
  · exact Walks.pure hident
  · split
    · exact (Walks.modify keepNames_like).after fun _ _ => Walks.pure hmember
    · exact Walks.pure hmember

theorem State.refer_root {s : State} (hroot : s.atRoot = true) (x : String) : s.refer x = s := by
  unfold State.refer
  unfold State.atRoot State.top at hroot
  obtain ⟨stack, records, functions, outer⟩ := s
  cases stack with
  | nil => rfl
  | cons c cs => rw [referStack_root (show c.isRoot = true from hroot)]

/-- A `var` at the top level is referred to in no function. -/
theorem rootTarget_walks (x : String) (span : Span) :
    Walks true [.name x] (rootTarget x span) fun e fns =>
      Renders (Mention.ofExpr e) [.name x] fns ∧ fns = [] := by
  intro s e s' hroot heq
  have hwalk : Walk [.name x] [] s s := by
    refine .name (.refl s) ?_
    rw [s.refer_root hroot x]
    exact .nil (.refl s)
  simp only [rootTarget, Bind.bind, StateT.bind, get, getThe, MonadStateOf.get, StateT.get, pure,
    Except.bind, Except.pure] at heq
  split at heq
  · cases heq
    refine ⟨[], hwalk, ?_, rfl⟩
    simp only [Mention.ofExpr]
    exact .name x
  · cases heq
    refine ⟨[], hwalk, ?_, rfl⟩
    simp only [globalMember, Mention.ofExpr, Mention.ofKey, List.append_nil]
    exact .inserted (.inl rfl) _

/-! ## Functions -/

theorem enter_eq (g : FunctionNode) (s : State) : enter g s = .ok ((), s.enter g) := by
  obtain ⟨stack, records, functions, outer⟩ := s
  cases stack <;> rfl

/-- A literal is entered, its body walked through, and left again. -/
theorem function_walks (g : FunctionNode) (hbody : Walks false g.mentions (stmts g.body)
    fun body fns => Renders (Mention.ofStmts true body) g.mentions fns) :
    Walks root [.literal g] (function g) fun fn fns => g.id = fn.id ∧ fns = [fn] := by
  intro s fn s' _ heq
  obtain ⟨id, name, params, body, isDeclaration, span⟩ := g
  rw [function] at heq
  simp only [Bind.bind, StateT.bind, Except.bind, enter_eq] at heq
  cases hs : stmts body (s.enter ⟨id, name, params, body, isDeclaration, span⟩) with
  | error e =>
    rw [hs] at heq
    cases heq
  | ok r =>
    obtain ⟨body', s₂⟩ := r
    rw [hs] at heq
    cases heq
    have hroot : (s.enter ⟨id, name, params, body, isDeclaration, span⟩).atRoot = false := by
      obtain ⟨declared, selfName, heq⟩ :=
        Context.ofFunction_eq ⟨id, name, params, body, isDeclaration, span⟩
      unfold State.enter State.atRoot State.top
      rw [heq]
      rfl
    obtain ⟨fns, hwalk, hrenders⟩ := hbody _ _ _ hroot hs
    obtain rfl : Mention.literals (FunctionNode.mentions
        ⟨id, name, params, body', isDeclaration, span⟩) = fns :=
      (Mention.literals_ofStmts true body').symm.trans hrenders.literals
    have hfn : FunctionNode.Resolves ⟨id, name, params, body', isDeclaration, span⟩
        ⟨id, name, params, body, isDeclaration, span⟩ := ⟨rfl, rfl, rfl, rfl, rfl, hrenders.stems⟩
    exact ⟨_, .literal (.refl s) hwalk hfn (.nil (.refl _)), rfl, rfl⟩

/-! ## Jumps -/

theorem top_walks : Walks root [] top fun _ _ => True := by
  intro s c s' _ heq
  cases heq
  exact ⟨[], .nil (.refl s), trivial⟩

theorem checkBreak_walks (label : Option String) (span : Span) :
    Walks root [] (checkBreak label span) fun _ _ => True := by
  refine top_walks.after fun ctx _ => ?_
  cases label <;> dsimp only <;> split <;> first | exact Walks.pure trivial | exact Walks.refuse

theorem checkContinue_walks (label : Option String) (span : Span) :
    Walks root [] (checkContinue label span) fun _ _ => True := by
  refine top_walks.after fun ctx _ => ?_
  cases label <;> dsimp only <;> split <;> first | exact Walks.pure trivial | exact Walks.refuse

theorem inLoop_walks {p : Pass α} (hp : Walks root ms p Q) : Walks root ms (inLoop p) Q := by
  have hdepth : ∀ n : Context → Nat,
      Walks root [] (modifyTop fun ctx => { ctx with loopDepth := n ctx }) fun _ _ => True :=
    fun n => Walks.modifyTop fun c => .aside rfl rfl rfl rfl rfl rfl
  refine (hdepth (·.loopDepth + 1)).after fun _ _ => hp.before fun a _ ha => ?_
  exact (hdepth (·.loopDepth - 1)).after fun _ _ => Walks.pure ha

theorem underLabel_walks (label : String) (isLoop : Bool) {p : Pass α} (hp : Walks root ms p Q) :
    Walks root ms (underLabel label isLoop p) Q := by
  have hlabels : ∀ ls : Context → List (String × Bool),
      Walks root [] (modifyTop fun ctx => { ctx with labels := ls ctx }) fun _ _ => True :=
    fun ls => Walks.modifyTop fun c => .aside rfl rfl rfl rfl rfl rfl
  refine (hlabels ((label, isLoop) :: ·.labels)).after fun _ _ => hp.before fun a _ ha => ?_
  exact (hlabels (·.labels.tail)).after fun _ _ => Walks.pure ha

/-! ## Trees -/

open Mention

theorem mentions_asExpr (es : List Expr) (span : Span) : ofExpr (asExpr es span) = ofExprs es := by
  match es with
  | [] => simp only [asExpr, ofExpr]
  | [e] => simp only [asExpr, ofExprs, List.append_nil]
  | e :: e' :: es => simp only [asExpr, ofExpr]

mutual

theorem expr_walks (root : Bool) : (e : Expr) →
    Walks root (ofExpr e) (expr e) fun e' fns => Renders (ofExpr e') (ofExpr e) fns
  | .ident s x => by
    rw [expr, ofExpr]
    exact identifier_walks root x s
  | .this s => by
    rw [expr, ofExpr]
    refine (Walks.modifyTop fun c => ?_).after fun _ _ => Walks.pure (.nil _)
    exact .aside rfl rfl rfl rfl rfl rfl
  | .function s ⟨id, x, params, body, isDeclaration, span⟩ => by
    rw [expr, ofExpr]
    refine (function_walks ⟨id, x, params, body, isDeclaration, span⟩
      (stmts_walks false body)).map fun fn' fns hfn => ?_
    obtain ⟨hid, rfl⟩ := hfn
    rw [ofExpr]
    exact .one hid
  | .array s es => by
    rw [expr, ofExpr]
    refine (exprs_walks root es).map fun es' _ hes => ?_
    rwa [ofExpr]
  | .sequence s es => by
    rw [expr, ofExpr]
    refine (exprs_walks root es).map fun es' _ hes => ?_
    rwa [ofExpr]
  | .object s ps => by
    rw [expr, ofExpr]
    refine (properties_walks root ps).map fun ps' _ hps => ?_
    rwa [ofExpr]
  | .member s o k i => by
    rw [expr, ofExpr]
    refine (expr_walks root o).bind fun o' _ ho => (memberKey_walks root k).map fun k' _ hk => ?_
    rw [ofExpr]
    exact ho.append hk
  | .call s f args => by
    rw [expr, ofExpr]
    refine (expr_walks root f).bind fun f' _ hf => (exprs_walks root args).map fun args' _ hargs => ?_
    rw [ofExpr]
    exact hf.append hargs
  | .construct s f args => by
    rw [expr, ofExpr]
    refine (expr_walks root f).bind fun f' _ hf => (exprs_walks root args).map fun args' _ hargs => ?_
    rw [ofExpr]
    exact hf.append hargs
  | .unary s op a => by
    rw [expr, ofExpr]
    refine (expr_walks root a).map fun a' _ ha => ?_
    rwa [ofExpr]
  | .update s op b t => by
    rw [expr, ofExpr]
    refine (expr_walks root t).map fun t' _ ht => ?_
    rwa [ofExpr]
  | .binary s op l r => by
    rw [expr, ofExpr]
    refine (expr_walks root l).bind fun l' _ hl => (expr_walks root r).map fun r' _ hr => ?_
    rw [ofExpr]
    exact hl.append hr
  | .logical s op l r => by
    rw [expr, ofExpr]
    refine (expr_walks root l).bind fun l' _ hl => (expr_walks root r).map fun r' _ hr => ?_
    rw [ofExpr]
    exact hl.append hr
  | .assign s op t v => by
    rw [expr, ofExpr]
    refine (expr_walks root t).bind fun t' _ ht => (expr_walks root v).map fun v' _ hv => ?_
    rw [ofExpr]
    exact ht.append hv
  | .conditional s t y n => by
    rw [expr, ofExpr]
    refine (expr_walks root t).bind fun t' _ ht => (expr_walks root y).bind fun y' _ hy =>
      (expr_walks root n).map fun n' _ hn => ?_
    rw [ofExpr]
    exact ht.append (hy.append hn)
  | .number .. | .string .. | .bool .. | .null .. => by
    rw [expr, ofExpr]
    refine Walks.pure ?_
    rw [ofExpr]
    exact .nil _

theorem exprs_walks (root : Bool) : (es : List Expr) →
    Walks root (ofExprs es) (exprs es) fun es' fns => Renders (ofExprs es') (ofExprs es) fns
  | [] => by
    rw [exprs]
    exact Walks.pure (.nil _)
  | e :: es => by
    rw [exprs, ofExprs]
    refine (expr_walks root e).bind fun e' _ he => (exprs_walks root es).map fun es' _ hes => ?_
    rw [ofExprs]
    exact he.append hes

theorem optionalExpr_walks (root : Bool) : (e : Option Expr) →
    Walks root (ofOptionalExpr e) (optionalExpr e) fun e' fns =>
      Renders (ofOptionalExpr e') (ofOptionalExpr e) fns
  | none => by
    rw [optionalExpr]
    exact Walks.pure (.nil _)
  | some e => by
    rw [optionalExpr]
    exact (expr_walks root e).map fun _ _ he => he

theorem memberKey_walks (root : Bool) : (k : MemberKey) →
    Walks root (ofKey k) (memberKey k) fun k' fns => Renders (ofKey k') (ofKey k) fns
  | .named key => by
    rw [memberKey, ofKey]
    refine Walks.pure ?_
    rw [ofKey]
    exact .nil _
  | .computed e => by
    rw [memberKey, ofKey]
    refine (expr_walks root e).map fun e' _ he => ?_
    rwa [ofKey]

theorem properties_walks (root : Bool) : (ps : List PropertyDef) →
    Walks root (ofProperties ps) (properties ps) fun ps' fns =>
      Renders (ofProperties ps') (ofProperties ps) fns
  | [] => by
    rw [properties]
    exact Walks.pure (.nil _)
  | ⟨key, value, span⟩ :: ps => by
    rw [properties, ofProperties]
    refine (expr_walks root value).bind fun v' _ hv => (properties_walks root ps).map fun ps' _ hps => ?_
    rw [ofProperties]
    exact hv.append hps

theorem assignments_walks : (ds : List VarDecl) →
    Walks true (ofDecls true ds) (assignments ds) fun es fns =>
      Renders (ofExprs es) (ofDecls true ds) fns
  | [] => by
    rw [assignments]
    exact Walks.pure (.nil _)
  | ⟨x, init, span⟩ :: ds => by
    have hdecls : ofDecls true (⟨x, init, span⟩ :: ds) =
        ofOptionalExpr init ++ ([.name x] ++ ofDecls true ds) := by
      cases init <;> simp [ofDecls, ofOptionalExpr]
    rw [assignments, hdecls]
    refine (optionalExpr_walks true init).bind fun v vs hv => (rootTarget_walks x span).bind
      fun t ts ht => (assignments_walks ds).map fun rest rs hrest => ?_
    obtain ⟨ht, rfl⟩ := ht
    have hvalue : Renders (ofExpr (v.getD (.ident span "undefined"))) (ofOptionalExpr init) vs := by
      cases v with
      | some v => exact hv
      | none =>
        obtain rfl : [] = vs := hv.literals
        rw [Option.getD_none, ofExpr]
        exact .inserted (.inr rfl) _
    rw [ofExprs, ofExpr]
    refine ((ht.append hvalue).append hrest).reorder (fun y hy => ?_) rfl
    simp only [List.mem_append] at hy ⊢
    rcases hy with (hy | hy) | hy
    · exact .inr (.inl hy)
    · exact .inl hy
    · exact .inr (.inr hy)

theorem localDecls_walks : (ds : List VarDecl) →
    Walks false (ofDecls false ds) (localDecls ds) fun ds' fns =>
      Renders (ofDecls true ds') (ofDecls false ds) fns
  | [] => by
    rw [localDecls]
    exact Walks.pure (.nil _)
  | ⟨x, none, span⟩ :: ds => by
    rw [localDecls, ofDecls]
    exact localDecls_walks ds
  | ⟨x, some e, span⟩ :: ds => by
    have hdecls : ofDecls false (⟨x, some e, span⟩ :: ds) =
        [.name x] ++ (ofExpr e ++ ofDecls false ds) := by
      simp [ofDecls]
    rw [localDecls, hdecls]
    refine (resolve_walks false x).bind fun _ _ hx => (expr_walks false e).bind fun e' es he =>
      (localDecls_walks ds).map fun ds' gs hds => ?_
    subst hx
    rw [ofDecls, if_pos rfl]
    refine ((he.append (.name x)).append hds).reorder (fun y hy => ?_) (by simp)
    simp only [List.mem_append] at hy ⊢
    rcases hy with (hy | hy) | hy
    · exact .inr (.inl hy)
    · exact .inl hy
    · exact .inr (.inr hy)

theorem forInit_walks (root : Bool) (span : Span) : (init : Option ForInit) →
    Walks root (ofInit root init) (forInit span init) fun init' fns =>
      Renders (ofInit true init') (ofInit root init) fns
  | none => by
    rw [forInit]
    exact Walks.pure (.nil _)
  | some (.expression e) => by
    rw [forInit]
    exact (expr_walks root e).map fun _ _ he => he
  | some (.declare ds) => by
    rw [forInit]
    refine atRoot_walks.after fun b hb => ?_
    subst hb
    cases b with
    | true =>
      refine (assignments_walks ds).map fun es _ hes => ?_
      rw [ofInit, mentions_asExpr]
      exact hes
    | false =>
      refine (localDecls_walks ds).before fun ds' _ hds => ?_
      cases ds' with
      | nil => exact Walks.pure hds
      | cons => exact Walks.pure hds

theorem forTarget_walks (root : Bool) : (target : ForTarget) →
    Walks root (ofTarget target) (forTarget target) fun target' fns =>
      Renders (ofTarget target') (ofTarget target) fns
  | .expression e => by
    rw [forTarget]
    exact (expr_walks root e).map fun _ _ he => he
  | .declare span x => by
    rw [forTarget]
    refine atRoot_walks.after fun b hb => ?_
    subst hb
    cases b with
    | true => exact (rootTarget_walks x span).map fun _ _ he => he.1
    | false =>
      refine (resolve_walks false x).map fun _ fns hfns => ?_
      subst hfns
      exact .name x

theorem handler_walks (root : Bool) : (h : Option CatchClause) →
    Walks root (ofHandler root h) (handler h) fun h' fns =>
      Renders (ofHandler true h') (ofHandler root h) fns
  | none => by
    rw [handler, ofHandler]
    refine Walks.pure ?_
    rw [ofHandler]
    exact .nil _
  | some ⟨param, body⟩ => by
    rw [handler, ofHandler]
    refine (stmt_walks root body).map fun body' _ hbody => ?_
    rwa [ofHandler]

theorem optionalStmt_walks (root : Bool) : (t : Option Stmt) →
    Walks root (ofOptionalStmt root t) (optionalStmt t) fun t' fns =>
      Renders (ofOptionalStmt true t') (ofOptionalStmt root t) fns
  | none => by
    rw [optionalStmt, ofOptionalStmt]
    refine Walks.pure ?_
    rw [ofOptionalStmt]
    exact .nil _
  | some t => by
    rw [optionalStmt, ofOptionalStmt]
    refine (stmt_walks root t).map fun t' _ ht => ?_
    rwa [ofOptionalStmt]

theorem stmt_walks (root : Bool) : (t : Stmt) →
    Walks root (ofStmt root t) (stmt t) fun t' fns => Renders (ofStmt true t') (ofStmt root t) fns
  | .expression s e => by
    rw [stmt, ofStmt]
    refine (expr_walks root e).map fun e' _ he => ?_
    rwa [ofStmt]
  | .raise s e => by
    rw [stmt, ofStmt]
    refine (expr_walks root e).map fun e' _ he => ?_
    rwa [ofStmt]
  | .declare s ds => by
    rw [stmt, ofStmt]
    refine atRoot_walks.after fun b hb => ?_
    subst hb
    cases b with
    | true =>
      refine (assignments_walks ds).map fun es _ hes => ?_
      rw [ofStmt, mentions_asExpr]
      exact hes
    | false =>
      refine (localDecls_walks ds).before fun ds' _ hds => ?_
      cases ds' with
      | nil =>
        refine Walks.pure ?_
        rw [ofStmt]
        exact hds
      | cons d ds' =>
        refine Walks.pure ?_
        rw [ofStmt]
        exact hds
  | .function s ⟨id, x, params, body, isDeclaration, span⟩ => by
    rw [stmt, ofStmt]
    refine (function_walks ⟨id, x, params, body, isDeclaration, span⟩
      (stmts_walks false body)).map fun fn' fns hfn => ?_
    obtain ⟨hid, rfl⟩ := hfn
    rw [ofStmt]
    exact .one hid
  | .ret s arg => by
    rw [stmt, ofStmt]
    refine atRoot_walks.after fun b _ => ?_
    have harg : Walks root (ofOptionalExpr arg) (do return Stmt.ret s (← optionalExpr arg))
        fun t' fns => Renders (ofStmt true t') (ofOptionalExpr arg) fns := by
      refine (optionalExpr_walks root arg).map fun e' _ he => ?_
      rwa [ofStmt]
    cases b with
    | true => exact (Walks.refuse (Q := fun _ _ => True)).after fun _ _ => harg
    | false => exact harg
  | .cond s test yes no => by
    rw [stmt, ofStmt]
    refine (expr_walks root test).bind fun test' _ htest => (stmt_walks root yes).bind fun yes' _ hyes =>
      (optionalStmt_walks root no).map fun no' _ hno => ?_
    rw [ofStmt]
    exact htest.append (hyes.append hno)
  | .whileLoop s test body => by
    rw [stmt, ofStmt]
    refine (expr_walks root test).bind fun test' _ htest =>
      (inLoop_walks (stmt_walks root body)).map fun body' _ hbody => ?_
    rw [ofStmt]
    exact htest.append hbody
  | .doLoop s body test => by
    rw [stmt, ofStmt]
    refine (inLoop_walks (stmt_walks root body)).bind fun body' _ hbody =>
      (expr_walks root test).map fun test' _ htest => ?_
    rw [ofStmt]
    exact hbody.append htest
  | .forLoop s init test update body => by
    rw [stmt, ofStmt]
    refine (forInit_walks root s init).bind fun init' _ hinit =>
      (optionalExpr_walks root test).bind fun test' _ htest =>
        (optionalExpr_walks root update).bind fun update' _ hupdate =>
          (inLoop_walks (stmt_walks root body)).map fun body' _ hbody => ?_
    rw [ofStmt]
    exact hinit.append (htest.append (hupdate.append hbody))
  | .forEach s kind target source body => by
    rw [stmt, ofStmt]
    refine (forTarget_walks root target).bind fun target' _ htarget =>
      (expr_walks root source).bind fun source' _ hsource =>
        (inLoop_walks (stmt_walks root body)).map fun body' _ hbody => ?_
    rw [ofStmt]
    exact htarget.append (hsource.append hbody)
  | .leave s label => by
    rw [stmt, ofStmt]
    refine (checkBreak_walks label s).after fun _ _ => Walks.pure ?_
    rw [ofStmt]
    exact .nil _
  | .next s label => by
    rw [stmt, ofStmt]
    refine (checkContinue_walks label s).after fun _ _ => Walks.pure ?_
    rw [ofStmt]
    exact .nil _
  | .guarded s body h finalizer => by
    rw [stmt, ofStmt]
    refine (stmt_walks root body).bind fun body' _ hbody => (handler_walks root h).bind fun h' _ hh =>
      (optionalStmt_walks root finalizer).map fun f' _ hf => ?_
    rw [ofStmt]
    exact hbody.append (hh.append hf)
  | .labeled s label body => by
    rw [stmt, ofStmt]
    refine (underLabel_walks label _ (stmt_walks root body)).map fun body' _ hbody => ?_
    rwa [ofStmt]
  | .block s body => by
    rw [stmt, ofStmt]
    refine (stmts_walks root body).map fun body' _ hbody => ?_
    rwa [ofStmt]
  | .empty s => by
    rw [stmt, ofStmt]
    refine Walks.pure ?_
    rw [ofStmt]
    exact .nil _

/-- **The pass walks along the mentions** of a body, and puts in no names but `global` and
`undefined`. -/
theorem stmts_walks (root : Bool) : (ts : List Stmt) →
    Walks root (ofStmts root ts) (stmts ts) fun ts' fns =>
      Renders (ofStmts true ts') (ofStmts root ts) fns
  | [] => by
    rw [stmts, ofStmts]
    refine Walks.pure ?_
    rw [ofStmts]
    exact .nil _
  | t :: ts => by
    rw [stmts, ofStmts]
    refine (stmt_walks root t).bind fun t' _ ht => (stmts_walks root ts).map fun ts' _ hts => ?_
    rw [ofStmts]
    exact ht.append hts

end

end Resolve

end Fermata
