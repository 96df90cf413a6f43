import Fermata.Proofs.Lexical.Resolution

/-!
# What the compiler puts in

The compiler puts in two names of its own: `global`, whose members stand for all names that nothing
binds, and `undefined`, which a `var` at the top level is set to. They are looked up like any other
name. So they mean what they were put in for as long as no function around the place, and no scope
around the unit, has kept a binding of that name.

* `Heap.Descends`: scopes whose chains end at the root of an engine.
* `Enclosed.place_eq`: the functions around a place that keep no binding of a name do not matter to it.
* `Session.inserted_hygienic`: what the names mean, in every state of every evaluation.
-/

namespace Fermata

open Act

/-! ## Chains that end at the root -/

namespace Heap

variable {h : Heap} {root id p : ScopeId} {o : ObjectId} {x : String} {ns : List String} {n m : Nat}

/-- The scope lies on a chain down from the root, each scope younger than its parent. -/
inductive Descends (h : Heap) (root : ScopeId) : ScopeId → Prop
  | root : Descends h root root
  | child {i j names} : h.outline i = some (some j, .inr names) → j.index < i.index →
      Descends h root j → Descends h root i

theorem Descends.parent (hd : h.Descends root id)
    (hroot : h.outline root = some (none, .inl o)) (ho : h.outline id = some (some p, .inr ns)) :
    p.index < id.index ∧ h.Descends root p := by
  cases hd with
  | root =>
    rw [hroot] at ho
    cases ho
  | child ho' hage hp =>
    rw [ho'] at ho
    cases ho
    exact ⟨hage, hp⟩

theorem placeWithin_root (hroot : h.outline root = some (none, .inl o)) (x : String) (n : Nat) :
    h.placeWithin x (n + 1) root = .global o := by
  obtain ⟨s, hs, heq⟩ := Option.map_eq_some_iff.mp hroot
  have hstorage : s.storage = .global o := Storage.shape_eq_inl (congrArg Prod.snd heq)
  rw [placeWithin, Store.get, hs]
  dsimp only [Option.getD_some]
  rw [hstorage]

/-- A walk up such a chain needs no more steps than the age of the scope allows. -/
theorem Descends.placeWithin_eq (hd : h.Descends root id)
    (hroot : h.outline root = some (none, .inl o)) (hn : id.index < n) (hm : id.index < m) :
    h.placeWithin x n id = h.placeWithin x m id := by
  induction hd generalizing n m with
  | root =>
    obtain ⟨n, rfl⟩ := Nat.exists_eq_add_of_lt hn
    obtain ⟨m, rfl⟩ := Nat.exists_eq_add_of_lt hm
    rw [placeWithin_root hroot, placeWithin_root hroot]
  | @child id p ns ho hage _ ih =>
    obtain ⟨n, rfl⟩ := Nat.exists_eq_add_one_of_ne_zero (Nat.ne_zero_of_lt hn)
    obtain ⟨m, rfl⟩ := Nat.exists_eq_add_one_of_ne_zero (Nat.ne_zero_of_lt hm)
    by_cases hx : x ∈ ns
    · rw [placeWithin_own ho hx, placeWithin_own ho hx]
    · rw [placeWithin_below ho hx, placeWithin_below ho hx]
      exact ih (by omega) (by omega)

/-- A name that the scope does not bind leads to where it leads from the parent. -/
theorem Descends.place_parent (hd : h.Descends root id)
    (hroot : h.outline root = some (none, .inl o)) (ho : h.outline id = some (some p, .inr ns))
    (hx : x ∉ ns) : h.place id x = h.place p x := by
  obtain ⟨hage, hp⟩ := hd.parent hroot ho
  unfold place chainBound
  rw [placeWithin_below ho hx]
  exact hp.placeWithin_eq hroot hage (Nat.lt_succ_self _)

/-- A name leads to a binding on the way, or to the global object at the end. -/
theorem Descends.place_cases (hd : h.Descends root id)
    (hroot : h.outline root = some (none, .inl o)) (x : String) :
    (∃ b, h.place id x = .binding b) ∨ h.place id x = .global o := by
  induction hd with
  | root => exact .inr (placeWithin_root hroot x _)
  | @child id p ns ho hage hp ih =>
    by_cases hx : x ∈ ns
    · exact .inl ⟨id, place_own ho hx⟩
    · rw [(Descends.child ho hage hp).place_parent hroot ho hx]
      exact ih

end Heap

/-- **Functions that keep no binding of a name do not matter to it**: it leads to where it leads from
the base of the unit. -/
theorem Enclosed.place_eq {u : CodeUnit} {h : Heap} {outer : List String} {base root s : ScopeId}
    {path : List FunctionNode} {o : ObjectId} {x : String} (he : Enclosed u h outer base path s)
    (hroot : h.outline root = some (none, .inl o)) (hs : h.Descends root s)
    (hnot : ∀ g ∈ path, ∀ r, u.record? g.id = some r → x ∉ r.bindings) :
    h.Descends root base ∧ h.place s x = h.place base x := by
  induction he with
  | top => exact ⟨hs, rfl⟩
  | @own g path s t r _ hr _ ho _ ih =>
    obtain ⟨hbase, heq⟩ := ih (hs.parent hroot ho).2 fun f hf => hnot f (List.mem_cons_of_mem g hf)
    exact ⟨hbase, (hs.place_parent hroot ho (hnot g List.mem_cons_self r hr)).trans heq⟩
  | @shared g path s r _ hr _ ih => exact ih hs fun f hf => hnot f (List.mem_cons_of_mem g hf)

/-! ## What inserted names mean -/

/-- What a name that the compiler puts in is meant to be. -/
def Engine.meant (e : Engine) (x : String) : Value :=
  if x = globalName then .object e.global else .undefined

theorem Inserted.valid {x : String} (hx : Inserted x) : isValidName x = true := by
  rcases hx with rfl | rfl <;> decide

/-- The root answers for the inserted names, whatever the properties of the global object. -/
theorem Heap.globalValue?_inserted {x : String} (hx : Inserted x) (h : Heap) (e : Engine) :
    h.globalValue? e.global x = some (e.meant x) := by
  rcases hx with rfl | rfl
  · rfl
  · rfl

/-- No function around the place of the frame, and no scope around its unit, has kept a binding of the
name. -/
structure Core.Clear (c : Core) (f : Frame) (x : String) : Prop where
  chain : c.heap.Descends c.engine.root f.scope
  place : ∃ p outer path base, c.Resolves f p outer path base ∧
    (∀ g ∈ path, ∀ r, f.unit.record? g.id = some r → x ∉ r.bindings) ∧
      ∀ b, c.heap.place base x ≠ .binding b

theorem Core.Clear.getName {c : Core} {f : Frame} {x : String} (h : c.Clear f x)
    (hroot : c.heap.outline c.engine.root = some (none, .inl c.engine.global)) (hx : Inserted x) :
    c.heap.getName f.scope x = .ok (c.engine.meant x) := by
  obtain ⟨p, outer, path, base, hresolves, hkept, hbase⟩ := h.place
  obtain ⟨hdescends, hplace⟩ := hresolves.scope.place_eq hroot h.chain hkept
  have hglobal : c.heap.place base x = .global c.engine.global :=
    (hdescends.place_cases hroot x).resolve_left fun ⟨b, hb⟩ => hbase b hb
  unfold Heap.getName
  rw [hx.valid, hplace, hglobal]
  dsimp only
  rw [Heap.globalValue?_inserted hx]
  rfl

/-- A name that can be read is read in one step. -/
theorem Act.startExpr_ident {s : Site} {span : Span} {x : String} {v : Value} {c : Core}
    (h : c.heap.getName s.scope x = .ok v) :
    startExpr s (.ident span x) c = .ok (.go [] (.checkpoint v)) c := by
  have hread : Act.getName s.scope x c = .ok v c := by
    unfold Act.getName
    rw [reads_bind, h]
    rfl
  change (Act.getName s.scope x >>= give) c = _
  simp only [Bind.bind, EStateM.bind, hread]
  rfl

/-- The names that the compiler put in mean what they were put in for, in one state of a machine. -/
structure Machine.Hygienic (m : Machine) (c : Core) : Prop where
  /-- Code reads the names of its place, and the inserted ones. -/
  resolves : m.Resolves c
  means : ∀ f ∈ m.frames, ∀ x, Inserted x → c.Clear f x →
    c.heap.getName f.scope x = .ok (c.engine.meant x)
  /-- What stands for a name that nothing binds is a member of the engine's own global object. -/
  member {span a callers} : m = ⟨.eval (.ident span globalName), a :: callers⟩ →
    c.Clear a.frame globalName → ∃ m', m.step c = (.running m', c) ∧
      m'.step c = (.running ⟨.value (.object c.engine.global), a.mark span :: callers⟩, c)

theorem Custody.Guards.hygienic {m : Machine} {c : Core}
    (h : (Tolerance.free .lexical).custody.Guards .mentioned m c) : m.Hygienic c := by
  have hlexical : c.Lexical m.frames := h.safe.good
  refine ⟨h.resolves, fun f _ x hx hclear => hclear.getName hlexical.root hx, ?_⟩
  rintro span a callers rfl hclear
  have hname := hclear.getName hlexical.root (.inl rfl)
  refine ⟨⟨.checkpoint (.object c.engine.global), a.mark span :: callers⟩, ?_, rfl⟩
  unfold Machine.step Machine.perform
  dsimp only [Expr.span]
  rw [startExpr_ident hname]
  rfl

namespace Session

variable {s : Session}

/-- **What the compiler puts in is not redirected.** On a single engine, in every state of every
evaluation, an inserted name means the engine's own global object or the undefined value, unless a
function around it or a scope around its unit has kept a binding of that very name. -/
theorem inserted_hygienic (hs : Live .faithful s) (hsize : s.stations.size = 1) :
    ∀ m c, Running .faithful s 0 m c → m.Hygienic c := by
  have hkeeps : Tolerance.Keeps Regime.lexical s :=
    Tolerance.live (Tolerance.charted_free _) hs fun _ => Nat.le_of_eq hsize
  intro m c hm
  exact (Tolerance.running (Tolerance.charted_free _) hkeeps (hsize ▸ Nat.one_pos) hm).hygienic

/-- The first engine of a session, when it begins to run `x`. -/
theorem inserted_hygienic_first :
    (addEngine { fuel := 100 } none {} none []).stations.size = 1 ∧
      ∃ u m c f, CodeUnit.compile "x" [] = .ok u ∧
        Running .faithful (addEngine { fuel := 100 } none {} none []) 0 m c ∧ f ∈ m.frames ∧
        f.unit = u ∧ c.Clear f globalName ∧
        c.heap.getName f.scope globalName = .ok (.object c.engine.global) := by
  have hsize : (addEngine { fuel := 100 } none {} none []).stations.size = 1 := by
    simp only [addEngine, Array.size_push]
    rfl
  have hlive : Live .faithful (addEngine { fuel := 100 } none {} none []) :=
    .step (.empty 100) (.edit (.engine _ none {} none []))
  have hroot := ((Regime.live (R := .lexical) hlive fun _ => Nat.le_of_eq hsize).core 0
    (hsize ▸ Nat.one_pos)).root
  have hcompiled : ((CodeUnit.compile "x" []).toOption.bind (·.record? 0)).map
      ScopeRecord.hoisted = some [] := by decide +kernel
  obtain ⟨r, hr, hnone⟩ := Option.map_eq_some_iff.mp hcompiled
  obtain ⟨u, hu, hr⟩ := Option.bind_eq_some_iff.mp hr
  have hu : CodeUnit.compile "x" [] = .ok u := by
    cases hc : CodeUnit.compile "x" [] with
    | error e =>
      rw [hc] at hu
      cases hu
    | ok u' =>
      rw [hc] at hu
      cases hu
      rfl
  generalize hs : addEngine { fuel := 100 } none {} none [] = s at hsize hlive hroot
  have hrun : Running .faithful s 0 _ _ := .start (hs ▸ rfl) (.unit ⟨"x", [], hu⟩)
  rw [Act.start_openUnit hr hnone] at hrun
  have hhygienic := inserted_hygienic hlive hsize _ _ hrun
  have hclear : Core.Clear (s.armed 0) (unitFrame u (s.engine 0).root) globalName := by
    obtain ⟨p, outer, path, base, hresolves⟩ := hhygienic.resolves.names _ List.mem_cons_self
    -- the unit runs at its top level, which is nested in no function
    have hpath : path = [] := by
      cases path with
      | nil => rfl
      | cons g path =>
        have hid := hresolves.place.unit.numbered.within hresolves.place.nested.head
        have hrecord : 0 = g.id := hresolves.place.record
        omega
    subst hpath
    refine ⟨.root, p, outer, [], base, hresolves, fun g hg => absurd hg List.not_mem_nil,
      fun b hb => ?_⟩
    cases hresolves.scope
    have hglobal := (Heap.placeWithin_root hroot globalName _).symm.trans hb
    cases hglobal
  exact ⟨hsize, u, _, _, _, hu, hrun, List.mem_cons_self, rfl, hclear,
    hhygienic.means _ List.mem_cons_self _ (.inl rfl) hclear⟩

end Session

end Fermata
