import Fermata.Proofs.Course.Run
import Fermata.Proofs.Course.Expression
import Fermata.Proofs.Lexical.Coherence
import Fermata.Proofs.Name.Again

/-!
# Assignments with an operator

`x op= e` stands for `x = x op e`, and `x ||= e` for `x || (x = e)`. The machine does not expand them: it reads
the reference, evaluates the right side and writes the reference, where the long form looks the name up anew
each time. Both do alike as long as the name leads to the same place each time. A name that is bound always
does. One that is not is a member of what `global` names, which is the global object unless a function around
has bound that name.

* `Heap.GlobalFrom`: the name `global` means the global object, and goes on doing so (`Strand.Runs.retains`).
* `Strand.StandsFor`: an expression that stands for a reference, as what the compiler makes of a name does
  (`Strand.exists_standsFor`).
* `Strand.agree_compound`, `Strand.agree_logical`: the two forms.
* `Machine.assignments_desugar`: assignments to names of the source, in every machine.
-/

namespace Fermata

/-! ## Operators give plain values -/

/-- What an operator gives is not pending. -/
theorem Act.binary_ready {op : BinaryOp} {a b v : Value} {c d : Core} (h : Act.binary op a b c = .ok v d)
    (p : PendingId) : v ≠ .pending p := by
  cases op with
  | add =>
    cases h
    unfold Act.add
    dsimp only
    split <;> nofun
  | hasKey =>
    change Act.hasProperty a b c = _ at h
    unfold Act.hasProperty at h
    rw [Act.get_bind] at h
    cases hb : c.heap.holder? b with
    | some id =>
      rw [hb] at h
      cases h
      nofun
    | none =>
      rw [hb] at h
      cases h
  | instanceOf =>
    change Act.instanceOf a b c = _ at h
    unfold Act.instanceOf at h
    cases b with
    | function f =>
      dsimp only at h
      rw [Act.reads_bind] at h
      cases ha : c.heap.holder? a with
      | none =>
        rw [ha] at h
        cases h
        nofun
      | some id =>
        rw [ha] at h
        cases h
        nofun
    | native m =>
      cases h
      nofun
    | _ => cases h
  | _ =>
    cases h
    nofun

/-! ## The global object -/

namespace Heap

/-- From the scope on, the name `global` means the global object: no scope on the way up to the root binds
it. -/
def GlobalFrom (h : Heap) (id : ScopeId) (g : ObjectId) : Prop :=
  ∃ root links, h.Chain root id links ∧ h.outline root = some (none, .inl g) ∧
    binder? globalName links = none

variable {h k : Heap} {id : ScopeId} {g : ObjectId}

theorem GlobalFrom.retains (hg : h.GlobalFrom id g) (hk : h.Retains k) : k.GlobalFrom id g := by
  obtain ⟨root, links, hchain, hroot, hnone⟩ := hg
  exact ⟨root, links, hchain.retains hk, hk _ _ hroot, hnone⟩

theorem GlobalFrom.getName (hg : h.GlobalFrom id g) : h.getName id globalName = .ok (.object g) := by
  obtain ⟨root, links, hchain, hroot, hnone⟩ := hg
  have hplace : h.place id globalName = .global g := by
    rw [hchain.place_eq hroot, hnone]
    rfl
  unfold Heap.getName
  rw [show isValidName globalName = true by decide, hplace]
  rfl

end Heap

/-! ## Scopes stay what they are -/

namespace Strand

open Behaviour

variable {f : Frame} {n : Nat} {w w' : Strand} {c c' d : Core}

theorem Steps.retains (h : Steps f n w c w' c') : c.heap.Retains c'.heap := by
  intro t o ho
  obtain ⟨m, hm⟩ := exists_in f (bare n) w
  obtain ⟨m', hstep, -⟩ := h _ m hm
  have hnext := (Invariant.outlined t o).step (m := m) (c := c) ho
  rwa [hstep] at hnext

theorem Parks.retains {p : PendingId} (h : Parks f n w c w' p c') : c.heap.Retains c'.heap := by
  intro t o ho
  obtain ⟨m, hm⟩ := exists_in f (bare n) w
  obtain ⟨m', hstep, -⟩ := h _ m hm
  have hnext := (Invariant.outlined t o).step (m := m) (c := c) ho
  rwa [hstep] at hnext

/-- **A run keeps all scopes**, since steps and pauses do. -/
theorem Runs.retains {t : Nat} {ps : List Pause} {E : Ending Value} (h : Runs f n t w c ps E d) :
    c.heap.Retains d.heap := by
  induction h with
  | back => exact fun _ _ ho => ho
  | parked hpark => exact hpark.retains
  | step hstep _ ih => exact fun t o ho => ih t o (hstep.retains t o ho)
  | @resume t w c w' ps E d q hpark _ ih =>
    exact fun t o ho => ih t o (q.retains t o (hpark.retains t o ho))

end Strand

/-! ## References -/

namespace Strand

open Behaviour

variable {f : Frame} {n : Nat} {P : Core → Prop} {target left old : Expr} {ref : Reference}

/-- What an operator gives needs no checkpoint. -/
theorem binary_settle (op : BinaryOp) (a b : Value) :
    act (Act.binary op a b) >>= settle f n = act (Act.binary op a b) := by
  refine Eq.trans (b := act (Act.binary op a b) >>= pure) (ext fun i c => ?_) (bind_pure _)
  refine Agree.bind (P := fun _ => True) (Q := fun v _ => ∀ p, v ≠ .pending p) (.of_eq rfl) ?_ ?_ i c trivial
  · intro i c ps v j d _ hback
    obtain ⟨-, heq, -⟩ := hback
    cases hr : Act.binary op a b c with
    | ok w e =>
      rw [hr] at heq
      cases heq
      exact Act.binary_ready hr
    | error x e =>
      rw [hr] at heq
      cases heq
  · intro v i c hv ps E d
    rw [settle_of_ready hv]

/-- From these cores on, the expression stands for the reference. -/
structure StandsFor (f : Frame) (n : Nat) (P : Core → Prop) (target : Expr) (ref : Reference) : Prop where
  read : Agree P (evaluate f n target) (act (Act.readReference (here f n) ref) >>= settle f n)
  assign : ∀ span op value, Agree P (evaluate f n (.assign span op target value)) (assigning f n ref op value)
  /-- Reading it leaves such a core. -/
  stays : ∀ {i c ps v j d}, P c → evaluate f n target i c ps (.back (.ok v) j) d → P d

/-- **A compound assignment is a plain one** of what the operator gives. -/
theorem agree_compound (htarget : StandsFor f n P target ref) (hleft : StandsFor f n P left ref)
    (hold : StandsFor f n P old ref) (span span₁ span₂ : Span) (op : BinaryOp) (value : Expr) :
    Agree P (evaluate f n (.assign span (.compound op) target value))
      (evaluate f n (.assign span₁ .plain left (.binary span₂ op old value))) := by
  let store (v : Value) : Behaviour Value := do
    act (Act.writeReference (here f n) ref v)
    settle f n v
  let combine (a : Value) : Behaviour Value := do
    let b ← evaluate f n value
    let v ← act (Act.binary op a b)
    store v
  have hcompound : assigning f n ref (.compound op) value =
      (act (Act.readReference (here f n) ref) >>= settle f n) >>= combine := (bind_assoc _ _ _).symm
  have hplain : assigning f n ref .plain (.binary span₂ op old value) = evaluate f n old >>= combine := by
    change evaluate f n (.binary span₂ op old value) >>= store = _
    rw [evaluate_binary, bind_assoc]
    refine bind_congr fun a => ?_
    rw [bind_assoc]
    refine bind_congr fun b => ?_
    rw [binary_settle]
  refine (htarget.assign _ _ _).trans (.trans ?_ (hleft.assign _ _ _).symm)
  rw [hcompound, hplain]
  exact hold.read.symm.first combine

/-- **A logical assignment is a plain one** under the logical operator. -/
theorem agree_logical (htarget : StandsFor f n P target ref) (hleft : StandsFor f n P left ref)
    (hold : StandsFor f n P old ref) (span span₁ span₂ : Span) (op : LogicalOp) (value : Expr) :
    Agree P (evaluate f n (.assign span (.logical op) target value))
      (evaluate f n (.logical span₁ op old (.assign span₂ .plain left value))) := by
  let decide (a : Value) (assign : Behaviour Value) : Behaviour Value :=
    if Act.shortCircuits op a then settle f n a else assign
  have hlogical : assigning f n ref (.logical op) value =
      (act (Act.readReference (here f n) ref) >>= settle f n) >>= fun a =>
        decide a (assigning f n ref .plain value) := (bind_assoc _ _ _).symm
  have hplain : assigning f n ref .plain value >>= settle f n = assigning f n ref .plain value := by
    refine (bind_assoc _ _ _).trans (bind_congr fun v => (bind_assoc _ _ _).trans (bind_congr fun _ => ?_))
    exact settle_settle v
  refine (htarget.assign _ _ _).trans ?_
  rw [hlogical, evaluate_logical]
  refine (hold.read.symm.first _).trans ?_
  refine Agree.bind (Q := fun _ => P) (.of_eq rfl) (fun hc hback => hold.stays hc hback) fun a => ?_
  by_cases ha : Act.shortCircuits op a = true
  · exact .of_eq ((if_pos ha).trans (if_pos ha).symm)
  · rw [if_neg ha]
    refine (Agree.of_eq ((if_neg ha).trans hplain.symm)).trans ?_
    exact (hleft.assign _ _ _).symm.first _

/-! ## Names -/

theorem standsFor_ident (x : String) (span : Span) :
    StandsFor f n (fun _ => True) (.ident span x) (.binding x) where
  read := .of_eq (evaluate_ident span x)
  assign span' op value := .of_eq (evaluate_assign_ident span' span op x value)
  stays _ _ := trivial

/-- The name `global` is read at once. -/
theorem evaluate_global {g : ObjectId} (span : Span) :
    Agree (fun c => c.heap.GlobalFrom f.scope g) (evaluate f n (.ident span globalName))
      (pure (.object g)) := by
  have hread : Agree (fun c => c.heap.GlobalFrom f.scope g) (act (Act.getName f.scope globalName))
      (pure (.object g)) := by
    intro i c hc ps E d
    have hname : Act.getName f.scope globalName c = .ok (.object g) c := by
      unfold Act.getName
      rw [Act.reads_bind, hc.getName]
      rfl
    unfold act
    rw [hname]
    exact Iff.rfl
  rw [evaluate_ident]
  refine (hread.first _).trans (.of_eq ?_)
  rw [pure_bind]
  exact settle_of_ready nofun

theorem standsFor_globalMember {g : ObjectId} (x : String) (span : Span) :
    StandsFor f n (fun c => c.heap.GlobalFrom f.scope g) (Resolve.globalMember x span true)
      (.property (.object g) x true) where
  read := by
    unfold Resolve.globalMember
    rw [evaluate_member]
    refine ((evaluate_global span).first _).trans (.of_eq ?_)
    exact pure_bind _ _
  assign span' op value := by
    unfold Resolve.globalMember
    rw [evaluate_assign_member]
    refine ((evaluate_global span).first _).trans (.of_eq ?_)
    exact (pure_bind _ _).trans (pure_bind _ _)
  stays hc := by
    rintro ⟨t, hrun⟩
    exact hc.retains hrun.retains

variable {x : String} {bound : Bool}

/-- **What the compiler makes of a name stands for one reference**, from this core on. -/
theorem exists_standsFor {c : Core} (x : String)
    (hglobal : bound = false → ∃ g, c.heap.GlobalFrom f.scope g) :
    ∃ P ref, P c ∧ ∀ span, StandsFor f n P (.ofName bound x span) ref := by
  cases bound with
  | true => exact ⟨_, _, trivial, standsFor_ident x⟩
  | false =>
    obtain ⟨g, hg⟩ := hglobal rfl
    exact ⟨_, _, hg, standsFor_globalMember x⟩

end Strand

/-! ## Whole machines -/

namespace Machine

open Strand Behaviour

variable {a : Activation} {callers : List Activation} {c : Core}

theorem Alike.of_agree {P : Core → Prop} {e e' : Expr} (hc : P c)
    (h : Behaviour.Agree P (evaluate a.frame callers.length e) (evaluate a.frame callers.length e')) :
    Alike ⟨.eval e, a :: callers⟩ ⟨.eval e', a :: callers⟩ c :=
  fun _ _ _ => runs_congr fun ps E d => h a.frame.nextChild c hc ps E d

/-- The source expressions are compiled to expressions that do alike in the activation, and the compiler goes
on in the same state. -/
def Desugars (s : Resolve.State) (a : Activation) (callers : List Activation) (c : Core) (source plain : Expr) :
    Prop :=
  ∀ e u, Resolve.expr source s = .ok (e, u) → ∃ e', Resolve.expr plain s = .ok (e', u) ∧
    Alike ⟨.eval e, a :: callers⟩ ⟨.eval e', a :: callers⟩ c

theorem Desugars.of_map {s : Resolve.State} {source plain : Expr} {p : Except CompileError (Expr × Resolve.State)}
    {make make' : Expr → Expr} (hsource : Resolve.expr source s = p.map (Prod.map make id))
    (hplain : Resolve.expr plain s = p.map (Prod.map make' id))
    (halike : ∀ e, Alike ⟨.eval (make e), a :: callers⟩ ⟨.eval (make' e), a :: callers⟩ c) :
    Desugars s a callers c source plain := by
  intro e u he
  rw [hsource] at he
  cases p with
  | error x => cases he
  | ok r =>
    cases he
    exact ⟨make' r.1, hplain, halike r.1⟩

/-- **Assignments with an operator stand for plain ones.** For a name that something binds, or one that is a
property of the global object, the two forms do alike from any core on. For a member, the object and the key
come once and first, then the old value, then the right side, then the write. -/
theorem assignments_desugar {s : Resolve.State} {x : String}
    (hglobal : s.answers x = true ∨ ∃ g, c.heap.GlobalFrom a.frame.scope g) :
    (∀ (op : BinaryOp) (e : Expr) (s₁ s₂ s₃ s₄ s₅ s₆ : Span), Desugars s a callers c
      (.assign s₁ (.compound op) (.ident s₂ x) e)
      (.assign s₃ .plain (.ident s₄ x) (.binary s₅ op (.ident s₆ x) e))) ∧
    (∀ (op : LogicalOp) (e : Expr) (s₁ s₂ s₃ s₄ s₅ s₆ : Span), Desugars s a callers c
      (.assign s₁ (.logical op) (.ident s₂ x) e)
      (.logical s₃ op (.ident s₄ x) (.assign s₅ .plain (.ident s₆ x) e))) ∧
    ∀ (f : Frame) (n : Nat) (object : Expr) (key : MemberKey) (implicit : Bool) (value : Expr) (s₁ s₂ : Span),
      (∀ op, evaluate f n (.assign s₁ (.compound op) (.member s₂ object key implicit) value) = (do
        let target ← evaluate f n object
        let name ← evaluateKey f n key
        let old ← settle f n (← act (Act.readMember target name implicit))
        let v ← evaluate f n value
        let new ← act (Act.binary op old v)
        act (Act.setProperty target name new)
        settle f n new)) ∧
      ∀ op, evaluate f n (.assign s₁ (.logical op) (.member s₂ object key implicit) value) = (do
        let target ← evaluate f n object
        let name ← evaluateKey f n key
        let old ← settle f n (← act (Act.readMember target name implicit))
        if Act.shortCircuits op old then settle f n old
        else do
          let v ← evaluate f n value
          act (Act.setProperty target name v)
          settle f n v) := by
  have hname : s.answers x = false → ∃ g, c.heap.GlobalFrom a.frame.scope g := fun hx =>
    hglobal.resolve_left fun hx' => by rw [hx] at hx'; cases hx'
  obtain ⟨P, ref, hc, hstands⟩ := exists_standsFor (n := callers.length) x hname
  refine ⟨fun op e s₁ s₂ s₃ s₄ s₅ s₆ => ?_, fun op e s₁ s₂ s₃ s₄ s₅ s₆ => ?_,
    fun f n object key implicit value s₁ s₂ => ⟨fun op => ?_, fun op => ?_⟩⟩
  · refine .of_map (Resolve.expr_assign s₁ s₂ _) (Resolve.expr_assign_binary s₃ s₄ s₅ s₆ op) fun value => ?_
    exact .of_agree hc (agree_compound (hstands s₂) (hstands s₄) (hstands s₆) s₁ s₃ s₅ op value)
  · refine .of_map (Resolve.expr_assign s₁ s₂ _) (Resolve.expr_logical_assign s₃ s₄ s₅ s₆ op) fun value => ?_
    exact .of_agree hc (agree_logical (hstands s₂) (hstands s₆) (hstands s₄) s₁ s₃ s₅ op value)
  · exact evaluate_assign_member ..
  · exact evaluate_assign_member ..

/-- In a function, an assignment to a name that nothing binds. -/
theorem assignments_desugar_global :
    let h := ((Heap.nextGlobal {} 1 none).newChild ⟨1, 0⟩ "f" [⟨"y", .null⟩] .undefined).2
    let s : Resolve.State := ⟨[{ id := 0, isRoot := true }], #[], #[], []⟩
    let a : Activation := ⟨{ (default : Frame) with scope := ⟨1, 1⟩ }, .unit, []⟩
    (s.answers "x" = true ∨ ∃ g, h.GlobalFrom a.frame.scope g) ∧
      ∃ e e', Resolve.expr (.assign {} (.logical .or) (.ident {} "x") (.number {} 5)) s = .ok (e, s) ∧
        Resolve.expr (.logical {} .or (.ident {} "x") (.assign {} .plain (.ident {} "x") (.number {} 5))) s =
          .ok (e', s) ∧
        Alike ⟨.eval e, [a]⟩ ⟨.eval e', [a]⟩ { (default : Core) with heap := h } := by
  intro h s a
  have hglobal : s.answers "x" = true ∨ ∃ g, h.GlobalFrom a.frame.scope g :=
    .inr ⟨⟨1, 0⟩, ⟨1, 0⟩, _, Heap.Chain.root.newChild rfl "f" [⟨"y", .null⟩] .undefined, rfl, by decide⟩
  have hmade : Resolve.expr (.assign {} (.logical .or) (.ident {} "x") (.number {} 5)) s =
      .ok (.assign {} (.logical .or) (Resolve.globalMember "x" {} true) (.number {} 5), s) := rfl
  obtain ⟨e', hplain, halike⟩ := (assignments_desugar (a := a) (c := { (default : Core) with heap := h }) hglobal).2.1 .or (.number {} 5) {} {} {} {} {} {} _ _ hmade
  exact ⟨hglobal, _, e', hmade, hplain, halike⟩

end Machine

end Fermata
