import Fermata.Proofs.Act.Quiet

/-!
# Acts that make closures and open activations

Linking a literal and opening an activation change the live frames: `Move.frames` says which frames
are live after a move. An act that fails on the way leaves its caller's frames as they were.

* `Law.instantiate`, `Law.hoist`: literals become closures of the frame's scope.
* `Law.callClosure`, `Law.callUnit`, `Law.callValue`, `Law.construct`: calls.
-/

namespace Fermata

open Act

/-- The live frames after a move made under these frames. -/
def Move.frames (fs : List Frame) : Move → List Frame
  | .go _ _ => fs
  | .linked frame _ => frame :: fs.tail
  | .enter _ a _ => a.frame :: fs

@[simp]
theorem Move.frames_pushing (fs : List Frame) (ks : List Cont) (m : Move) :
    (m.pushing ks).frames fs = m.frames fs := by
  cases m <;> rfl

/-- Opening a unit that declares no functions makes nothing. -/
theorem Act.start_openUnit {u : CodeUnit} {scope : ScopeId} {r : ScopeRecord} (hr : u.record? 0 = some r)
    (hnone : r.hoisted = []) (c : Core) :
    Machine.start (Act.openUnit u scope) c =
      (⟨(Act.startBody u.program.body).2,
        [⟨unitFrame u scope, .unit, (Act.startBody u.program.body).1⟩]⟩, c) := by
  have hhoist : Act.hoist (unitFrame u scope) = pure (unitFrame u scope) := by
    unfold Act.hoist
    rw [show (unitFrame u scope).unit.record? (unitFrame u scope).record = some r from hr]
    dsimp only
    rw [hnone]
    rfl
  unfold Machine.start Act.openUnit Act.openFrame
  rw [hhoist]
  rfl

namespace Law

variable {α : Type} {L : Law} {fs : List Frame} {f : Frame}

/-! ## Linking -/

/-- What making and linking a closure comes to: nothing, an unlinked closure, or a linked one. -/
theorem instantiate_eq (f : Frame) (node : Nat) (c : Core) :
    Act.instantiate f node c =
      match f.unit.function? node with
      | none => .error (.fault (.link f.name node .noLiteral)) c
      | some fn =>
        match f.unit.record? f.record with
        | none =>
          .error (.fault (.link f.name f.record .noActivationRecord)) (c.bearing fn f.unit)
        | some r =>
          match nextChildAfter? r.children f.nextChild fn.id with
          | some next =>
            .ok (c.heap.closures.next c.engine.region, { f with nextChild := next })
              (c.linking fn f.unit f.scope)
          | none =>
            .error (.fault (.link f.name fn.id (.notAChild r.children.length)))
              (c.bearing fn f.unit) := by
  unfold Act.instantiate
  cases hfn : f.unit.function? node with
  | none => rfl
  | some fn =>
    cases hr : f.unit.record? f.record with
    | none =>
      simp only [linkChild, hr]
      rfl
    | some r =>
      cases hn : nextChildAfter? r.children f.nextChild fn.id with
      | none =>
        simp only [linkChild, hr, hn]
        rfl
      | some next =>
        simp only [linkChild, hr, hn]
        rfl

theorem instantiate (f : Frame) (node : Nat) :
    L.Keeps (f :: fs) (instantiate f node) (fun r => r.2 :: fs) (f :: fs) := by
  intro c d h
  rw [instantiate_eq, instantiate_eq]
  obtain ⟨P, w, n, l, rfl⟩ := L.apart h
  cases hfn : f.unit.function? node with
  | none => exact .error trivial h
  | some fn =>
    cases hr : f.unit.record? f.record with
    | none => exact .error trivial (L.birth h hfn)
    | some r =>
      dsimp only
      cases hn : nextChildAfter? r.children f.nextChild fn.id with
      | none => exact .error trivial (L.birth h hfn)
      | some next => exact .ok (L.link h hfn hr hn)

theorem bindDeclared (f : Frame) (name : String) (id : ClosureId) :
    L.Holds fs (bindDeclared f name id) := by
  refine Keeps.getting (fun c P w n l => ?_) fun c => ?_
  · simp only [Core.apart, Heap.scopes_awaiting, Heap.declares_awaiting]
  · dsimp only
    split
    · exact Keeps.getting (fun c P w n l => rfl) fun c => set _ _ _
    · split
      · exact setName _ _ _
      · exact Keeps.pure _ rfl

theorem hoistAll (f : Frame) (nodes : List Nat) :
    L.Keeps (f :: fs) (hoistAll f nodes) (fun f' => f' :: fs) fs := by
  induction nodes generalizing f with
  | nil => exact Keeps.pure _ rfl
  | cons node nodes ih =>
    refine Keeps.bind ((instantiate f node).weakenErr fun _ _ => L.close) fun ⟨id, f'⟩ => ?_
    have hread : L.Holds (f' :: fs) (reads (·.closures.get id)) := Holds.reads fun _ _ => rfl
    refine Keeps.bind (hread.weakenErr fun _ _ => L.close) fun k => ?_
    dsimp only
    split
    · exact ((bindDeclared f' _ id).weakenErr fun _ _ => L.close).bind fun _ => ih f'
    · exact ih f'

theorem hoist (f : Frame) : L.Keeps (f :: fs) (hoist f) (fun f' => f' :: fs) fs := by
  unfold Act.hoist
  split
  · exact hoistAll f _
  · exact Keeps.pure _ rfl

/-! ## Opening -/

theorem openFrame (f : Frame) (b : Boundary) (body : List Stmt) :
    L.Keeps (f :: fs) (openFrame f b body) (Move.frames fs) fs :=
  Keeps.bind (hoist f) fun _ => Keeps.pure _ rfl

theorem checkDepth_eq (depth : Nat) (c : Core) :
    checkDepth depth c =
      if depth + c.engine.below.length ≥ c.engine.settings.maxCallDepth then
        (Act.raise rangeErrorKind "Maximum call stack size exceeded" : Act Unit) c
      else .ok () c := by
  change (if depth + c.engine.below.length ≥ c.engine.settings.maxCallDepth then
    (Act.raise rangeErrorKind "Maximum call stack size exceeded" : Act Unit) else pure ()) c = _
  split <;> rfl

/-- What follows a check of the depth may count on it. -/
theorem checkDepth_bind {q : Unit → Act α} {post : α → List Frame} {c d : Core} (depth : Nat)
    (h : L.rel fs c d) (hq : depth < c.engine.settings.maxCallDepth →
      L.Agree Abrupt.IsFailure post fs (q () c) (q () d)) :
    L.Agree Abrupt.IsFailure post fs ((checkDepth depth >>= q) c) ((checkDepth depth >>= q) d) := by
  obtain ⟨P, w, n, l, rfl⟩ := L.apart h
  have hsame : (c.apart P w n l).engine.settings = c.engine.settings := rfl
  have hbelow : (c.apart P w n l).engine.below = c.engine.below := rfl
  simp only [Bind.bind, EStateM.bind, checkDepth_eq, hsame, hbelow]
  by_cases hd : depth + c.engine.below.length ≥ c.engine.settings.maxCallDepth
  · rw [if_pos hd, if_pos hd]
    exact .error trivial (L.objects h _)
  · rw [if_neg hd, if_neg hd]
    exact hq (by omega)

/-- The bindings of an activation are those of its record, and making them makes objects alone. -/
theorem mapM_firstValue (r : ScopeRecord) (id : ClosureId) (args : List Value) (names : List String)
    (c : Core) : ∃ bindings S, bindings.map Binding.name = names ∧ ∀ P w n l,
      (names.mapM (firstValue r id args)) (c.apart P w n l) =
        .ok bindings ((c.withObjects S).apart P w n l) := by
  induction names generalizing c with
  | nil => exact ⟨[], c.heap.objects, rfl, fun _ _ _ _ => rfl⟩
  | cons name names ih =>
    have hfirst : ∃ v S, ∀ P w n l, firstValue r id args name (c.apart P w n l) =
        .ok ⟨name, v⟩ ((c.withObjects S).apart P w n l) := by
      unfold firstValue
      cases lastIndexOf? r.params name with
      | some i => exact ⟨_, c.heap.objects, fun _ _ _ _ => rfl⟩
      | none =>
        dsimp only
        split
        · exact ⟨.object (c.heap.objects.next c.engine.region),
            c.heap.objects.push c.engine.region (.ofList args), fun _ _ _ _ => rfl⟩
        · split <;> exact ⟨_, c.heap.objects, fun _ _ _ _ => rfl⟩
    obtain ⟨v, S, hv⟩ := hfirst
    obtain ⟨bindings, T, hnames, hrest⟩ := ih (c.withObjects S)
    refine ⟨⟨name, v⟩ :: bindings, T, by simp only [List.map_cons, hnames], fun P w n l => ?_⟩
    rw [List.mapM_cons]
    simp only [Bind.bind, EStateM.bind, hv, hrest]
    rfl

theorem callUnit {c d : Core} (unit : CodeUnit) (scope : ScopeId) (h : L.rel fs c d)
    (hcode : fs.length < c.engine.settings.maxCallDepth →
      L.rel (unitFrame unit scope :: fs) c d) :
    L.Agree Abrupt.IsFailure (Move.frames fs) fs (callUnit fs.length unit scope c)
      (callUnit fs.length unit scope d) := by
  unfold Act.callUnit
  exact checkDepth_bind _ h fun hdepth => openFrame _ _ _ c d (hcode hdepth)

/-- The scope of an activation, and the frame that is live from then on. -/
theorem activationScope_bind {q : ScopeId → Act Move} {c d : Core} (id : ClosureId)
    (r : ScopeRecord) (defining : ScopeId) (this : Value) (args : List Value) (h : L.rel fs c d)
    (hdepth : fs.length < c.engine.settings.maxCallDepth)
    (hscope : c.engine.links.scope? (c.heap.closures.get id).serial = some defining)
    (hr : (c.heap.closures.get id).unit.record? (c.heap.closures.get id).node.id = some r)
    (hq : ∀ scope, L.Keeps ((c.heap.closures.get id).frame r scope :: fs) (q scope)
      (Move.frames fs) fs) :
    L.Agree Abrupt.IsFailure (Move.frames fs) fs ((activationScope r id defining this args >>= q) c)
      ((activationScope r id defining this args >>= q) d) := by
  obtain ⟨P, w, n, l, rfl⟩ := L.apart h
  cases hc : r.requiresCapture with
  | false =>
    simp only [activationScope, hc]
    exact hq defining _ _ (L.share id h hdepth hscope hr hc)
  | true =>
    obtain ⟨bindings, S, hnames, hvalues⟩ := mapM_firstValue r id args r.bindings c
    have hmade : ∀ P w n l, activationScope r id defining this args (c.apart P w n l) =
        .ok (c.heap.scopes.next defining.region)
          (((c.withObjects S).apart P w n l).under defining r.name bindings this) := by
      intro P w n l
      simp only [activationScope, hc, if_true, Bind.bind, EStateM.bind, hvalues]
      rfl
    have hown := hmade c.heap.pendings c.engine.watch c.engine.suspensionCount
      c.engine.lastSuspension
    simp only [Bind.bind, EStateM.bind, hmade]
    rw [show activationScope r id defining this args c = _ from hown]
    exact hq _ _ _ (L.capture id (L.objects h S) hdepth hscope hr hc hnames)

theorem callClosure (id : ClosureId) (this : Value) (args : List Value) :
    L.Keeps fs (callClosure fs.length id this args) (Move.frames fs) fs := by
  intro c d h
  unfold Act.callClosure
  refine checkDepth_bind _ h fun hdepth => ?_
  refine Agree.getting h (fun P w n l => ?_) ?_
  · rfl
  cases hscope : c.engine.links.scope? (c.heap.closures.get id).serial with
  | none => exact .error trivial h
  | some defining =>
    dsimp only
    cases hr : (c.heap.closures.get id).unit.record? (c.heap.closures.get id).node.id with
    | none => exact .error trivial h
    | some r =>
      exact activationScope_bind id r defining this args h hdepth hscope hr fun _ =>
        openFrame _ _ _

/-! ## Calls -/

/-- Code can be opened in this scope under these frames. -/
def Admits (L : Law) (fs : List Frame) (scope : ScopeId) : Prop :=
  ∀ c d source unit, L.rel fs c d → fs.length < c.engine.settings.maxCallDepth →
    CodeUnit.compile source (c.heap.visibleNames scope) = .ok unit →
    L.rel (unitFrame unit scope :: fs) c d

theorem admits_frame (f : Frame) (fs : List Frame) : L.Admits (f :: fs) f.scope :=
  fun _ _ _ _ h hdepth hunit => L.code h hdepth hunit

theorem evalCode (scope : ScopeId) (code : Value) (hcode : L.Admits fs scope) :
    L.Keeps fs (evalCode fs.length scope code) (Move.frames fs) fs := by
  unfold Act.evalCode
  cases code with
  | string source =>
    intro c d h
    refine Agree.reads (g := (·.visibleNames scope)) h ?_ ?_
    · exact fun P => c.heap.visibleNames_awaiting P scope
    cases hunit : CodeUnit.compile source (c.heap.visibleNames scope) with
    | error e => exact raise _ _ _ _ h
    | ok unit =>
      exact callUnit unit scope h fun hdepth => hcode _ _ source unit h hdepth hunit
  | _ => exact Keeps.pure _ rfl

/-- **A call keeps every law**, whatever is called. -/
theorem callValue (scope : ScopeId) (callee this : Value) (args : List Value)
    (hcode : L.Admits fs scope) :
    L.Keeps fs (callValue fs.length scope callee this args) (Move.frames fs) fs := by
  unfold Act.callValue
  cases callee with
  | function id => exact callClosure id this args
  | native id =>
    refine Keeps.getting (fun _ _ _ _ _ => rfl) fun c => ?_
    dsimp only
    split
    · exact evalCode scope _ hcode
    · exact Keeps.bind (Holds.reads fun _ _ => rfl) fun n =>
        Keeps.bind (run n.builtin this args) fun _ => Keeps.pure _ rfl
  | _ => exact typeError _

theorem describe_awaiting (h : Heap) (P : Store .pending Pending) (v : Value) :
    describe (h.awaiting P) v = describe h v := by
  unfold describe
  split
  · rfl
  · rfl
  · exact h.text_awaiting P _

theorem construct (callee : Value) (args : List Value) :
    L.Keeps fs (construct fs.length callee args) (Move.frames fs) fs := by
  have hrefuse : L.Keeps fs (do
      Act.typeError ((← reads (describe · callee)) ++ " is not a constructor") : Act Move)
      (Move.frames fs) fs :=
    Keeps.bind (Holds.reads fun h P => describe_awaiting h P callee) fun _ => typeError _
  unfold Act.construct
  cases callee with
  | function id =>
    refine Keeps.bind (prototypeOf id) fun proto => Keeps.bind (newObject _) fun object => ?_
    refine Keeps.bind (callClosure id _ args) fun m => Keeps.pure _ ?_
    exact m.frames_pushing fs _
  | native id =>
    refine Keeps.bind (Holds.reads fun _ _ => rfl) fun n => ?_
    split
    · exact Keeps.bind (run n.builtin _ args) fun _ => Keeps.pure _ rfl
    · exact hrefuse
  | _ => exact hrefuse

end Law

end Fermata
