import Fermata.Proofs.Act.Step

/-!
# What acts give

`Act.Ends` says which values an act gives and in which transfers of control it can end, from the
cores of some set. It looks at one run and says nothing about the core afterwards; a `Law` says the
rest.

* `Law.Keeps.ends`: an act that keeps every law does not jump.
* `openFrame_ends`, `instantiate_ends`: which frames and bodies acts open.
-/

namespace Fermata

open Act

/-- The place behind a child that is linked is no earlier than before, and no later than the last
child. -/
theorem Act.nextChildAfter?_bounds {children : List Nat} {index node next : Nat}
    (h : nextChildAfter? children index node = some next) :
    index ≤ next ∧ (index ≤ children.length → next ≤ children.length) := by
  unfold nextChildAfter? at h
  split at h
  next offset hfound =>
    cases h
    obtain ⟨hoffset, -⟩ := List.findIdx?_eq_some_iff_getElem.mp hfound
    rw [List.length_drop] at hoffset
    omega
  next =>
    split at h
    · cases h
      exact ⟨Nat.le_refl _, id⟩
    · cases h

/-- A frame passes no more children than its record has. -/
def Frame.Bounded (f : Frame) : Prop :=
  ∀ r, f.unit.record? f.record = some r → f.nextChild ≤ r.children.length

/-- Two frames are of one activation, the second one as it is later: it may be somewhere else, and
further children may have been passed. -/
structure Frame.Same (f g : Frame) : Prop where
  unit : g.unit = f.unit
  record : g.record = f.record
  scope : g.scope = f.scope
  name : g.name = f.name
  passed : f.nextChild ≤ g.nextChild
  bounded : f.Bounded → g.Bounded

namespace Frame.Same

theorem refl (f : Frame) : f.Same f := ⟨rfl, rfl, rfl, rfl, Nat.le_refl _, id⟩

theorem trans {f g h : Frame} (hg : f.Same g) (hh : g.Same h) : f.Same h where
  unit := hh.unit.trans hg.unit
  record := hh.record.trans hg.record
  scope := hh.scope.trans hg.scope
  name := hh.name.trans hg.name
  passed := Nat.le_trans hg.passed hh.passed
  bounded h := hh.bounded (hg.bounded h)

/-- Linking a literal leaves the activation what it is. -/
theorem linked {f : Frame} {r : ScopeRecord} {node next : Nat}
    (hr : f.unit.record? f.record = some r)
    (hn : nextChildAfter? r.children f.nextChild node = some next) :
    f.Same { f with nextChild := next } := by
  obtain ⟨hle, hbound⟩ := nextChildAfter?_bounds hn
  refine ⟨rfl, rfl, rfl, rfl, hle, fun hf q hq => ?_⟩
  obtain rfl : r = q := Option.some.inj (hr.symm.trans hq)
  exact hbound (hf r hr)

end Frame.Same

variable {α β : Type}

/-- The result is a value of `Q` or a transfer of `R`. -/
inductive Meets (Q : α → Prop) (R : Abrupt → Prop) : EStateM.Result Abrupt Core α → Prop
  | ok {a c} : Q a → Meets Q R (.ok a c)
  | error {x c} : R x → Meets Q R (.error x c)

namespace Act

variable {K : Core → Prop} {Q : α → Prop} {T : β → Prop} {R : Abrupt → Prop}

/-- From cores of `K`, the act gives only values of `Q` and ends only in transfers of `R`. -/
def Ends (K : Core → Prop) (p : Act α) (Q : α → Prop) (R : Abrupt → Prop) : Prop :=
  ∀ c, K c → Meets Q R (p c)

theorem Ends.pure {a : α} (ha : Q a) : Ends K (Pure.pure a) Q R := fun _ _ => .ok ha

theorem Ends.throw {x : Abrupt} (hx : R x) : Ends K (throw x : Act α) Q R := fun _ _ => .error hx

theorem Ends.bind {p : Act α} {q : α → Act β} (hp : Ends K p Q R)
    (hq : ∀ a, Q a → Ends (fun _ => True) (q a) T R) : Ends K (p >>= q) T R := by
  intro c hc
  have h := hp c hc
  simp only [Bind.bind, EStateM.bind]
  generalize p c = r at h
  cases h with
  | ok ha => exact hq _ ha _ trivial
  | error hx => exact .error hx

theorem Ends.weaken {p : Act α} {Q' : α → Prop} {R' : Abrupt → Prop} (hp : Ends K p Q R)
    (hQ : ∀ a, Q a → Q' a) (hR : ∀ x, R x → R' x) : Ends K p Q' R' := by
  intro c hc
  have h := hp c hc
  generalize p c = r at h ⊢
  cases h with
  | ok ha => exact .ok (hQ _ ha)
  | error hx => exact .error (hR _ hx)

theorem get_bind (q : Core → Act α) (c : Core) : (MonadState.get >>= q) c = q c c := rfl

theorem reads_bind (g : Heap → α) (q : α → Act β) (c : Core) :
    (reads g >>= q) c = q (g c.heap) c := rfl

theorem touch_bind (q : Touch → Act α) (c : Core) :
    (touch >>= q) c = q c.engine.watch.touch.1 (c.watching c.engine.watch.touch.2) := rfl

/-- Making objects leaves the closures. -/
theorem Meets.making_bind {g : Heap → Nat → α × Heap} {q : α → Act β} {c : Core}
    (hs : ∀ (h : Heap) r, h.Spares (g h r).2)
    (hq : ∀ a d, d.heap.closures = c.heap.closures → Meets T R (q a d)) :
    Meets T R ((making g >>= q) c) := by
  refine hq (g c.heap c.engine.region).1 ⟨(g c.heap c.engine.region).2, c.engine⟩ ?_
  rw [hs c.heap]

end Act

/-- Every core is related to itself. -/
def Law.same : Law where
  rel _ c d := d = c
  apart := by
    rintro fs c d rfl
    exact ⟨_, _, _, _, rfl⟩
  next := by
    rintro fs c d rfl region
    rfl
  objects h _ := by rw [h]
  console h _ := by rw [h]
  pending h _ := by rw [h]
  binding h _ _ _ := by rw [h]
  birth h _ := by rw [h]
  link h _ _ _ := by rw [h]
  capture _ h _ _ _ _ _ := by rw [h]
  share _ h _ _ _ _ := h
  code h _ _ := h
  mark h _ := h
  close h := h

/-- What keeps the law of equality ends in no jump. -/
theorem Law.Keeps.ends {K : Core → Prop} {p : Act α} {post : α → List Frame}
    (hp : Law.same.Keeps [] p post []) : Ends K p (fun _ => True) Abrupt.IsFailure := by
  intro c _
  have h := hp c c rfl
  generalize p c = r at h ⊢
  cases h with
  | ok _ => exact .ok trivial
  | error hx _ => exact .error hx

namespace Act

variable {K : Core → Prop}

/-- Linking a literal leaves the activation what it is. -/
theorem instantiate_ends (f : Frame) (node : Nat) :
    Ends K (instantiate f node) (fun r => f.Same r.2) Abrupt.IsFailure := by
  intro c _
  rw [Law.instantiate_eq]
  cases f.unit.function? node with
  | none => exact .error trivial
  | some fn =>
    cases hr : f.unit.record? f.record with
    | none => exact .error trivial
    | some r =>
      dsimp only
      cases hn : nextChildAfter? r.children f.nextChild fn.id with
      | none => exact .error trivial
      | some next => exact .ok (.linked hr hn)

theorem hoistAll_ends (f : Frame) (nodes : List Nat) :
    Ends K (hoistAll f nodes) f.Same Abrupt.IsFailure := by
  induction nodes generalizing f K with
  | nil => exact Ends.pure (.refl f)
  | cons node nodes ih =>
    refine (instantiate_ends f node).bind fun ⟨id, g⟩ hg => ?_
    have hrest : Ends (fun _ => True) (hoistAll g nodes) f.Same Abrupt.IsFailure :=
      (ih g).weaken (fun _ => hg.trans) fun _ hx => hx
    refine (Law.Holds.reads fun _ _ => rfl).ends.bind fun k _ => ?_
    dsimp only
    split
    · exact (Law.bindDeclared g _ id).ends.bind fun _ _ => hrest
    · exact hrest

theorem hoist_ends (f : Frame) : Ends K (hoist f) f.Same Abrupt.IsFailure := by
  unfold hoist
  split
  · exact hoistAll_ends f _
  · exact Ends.pure (.refl f)

/-- An activation that is opened on a frame begins its body. -/
theorem openFrame_ends (f : Frame) (b : Boundary) (body : List Stmt) :
    Ends K (openFrame f b body)
      (fun m => ∃ g, f.Same g ∧ m = .enter [] ⟨g, b, (startBody body).1⟩ (startBody body).2)
      Abrupt.IsFailure :=
  (hoist_ends f).bind fun g hg => Ends.pure ⟨g, hg, rfl⟩

end Act

end Fermata
