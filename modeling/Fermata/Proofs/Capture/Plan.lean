import Fermata.Proofs.Act.Ends
import Fermata.Proofs.Capture.Veil
import Fermata.Proofs.Name.Unit
import Fermata.Proofs.Zone.Prune

/-!
# Two evaluations with different scopes

Some records of a unit ask for no scope: activations of their functions run in the scope in which the function
was made. The second of two evaluations runs the same code with some of these records changed, so that there
such an activation gets a scope of its own, without bindings. A `Plan` says which scope of the first
evaluation stands for which of the second: a scope is the `same`, or it is an `annex` of one, an empty scope
below the one that is the same. Names lead through an annex as if it were not there.

* `CodeUnit.Captures`: the unit with some records asking for a scope.
* `Core.Twins`: two cores that a plan relates.
* `Act.Pairs`: two acts that do the same on related cores, whatever is planned later.
* `Core.Twins.place`: a name leads to the same place.
* `Act.Pairs.getName`, `Act.Pairs.setName`: names are read and written alike.
* `Core.Twins.reaches_iff`: the same is reached from the same roots, and no annex is.
* `Core.Twins.ended`: pruning does the same.
-/

namespace Fermata

/-! ## Records that ask for a scope -/

/-- The second record is the first one, or asks for a scope besides. -/
def ScopeRecord.Captures (r q : ScopeRecord) : Prop := q = r ∨ q = { r with requiresCapture := true }

/-- The second unit is the first one with some records asking for a scope. -/
structure CodeUnit.Captures (u v : CodeUnit) : Prop where
  rest : v = { u with records := v.records }
  records : ∀ id, Option.Rel ScopeRecord.Captures (u.record? id) (v.record? id)

/-- The second closure is the first one with some records of its unit asking for a scope. -/
structure Closure.Captures (k l : Closure) : Prop where
  rest : l = { k with unit := l.unit }
  unit : k.unit.Captures l.unit

theorem ScopeRecord.Captures.refl (r : ScopeRecord) : r.Captures r := .inl rfl

theorem ScopeRecord.Captures.rest {r q : ScopeRecord} (h : r.Captures q) :
    q = { r with requiresCapture := q.requiresCapture } := by
  rcases h with rfl | rfl <;> rfl

/-- A record that asked for a scope still does. -/
theorem ScopeRecord.Captures.needs {r q : ScopeRecord} (h : r.Captures q)
    (hr : r.requiresCapture = true) : q.requiresCapture = true := by
  rcases h with rfl | rfl
  · exact hr
  · rfl

theorem CodeUnit.Captures.refl (u : CodeUnit) : u.Captures u :=
  ⟨rfl, fun id => by cases u.record? id <;> constructor; exact .refl _⟩

theorem Closure.Captures.refl (k : Closure) : k.Captures k := ⟨rfl, .refl _⟩

/-- The unit with the records of these numbers asking for a scope. -/
def CodeUnit.capturing (u : CodeUnit) (E : Nat → Bool) : CodeUnit :=
  { u with records := u.records.mapIdx fun id r => if E id then { r with requiresCapture := true } else r }

/-- Any set of records can be made to ask for a scope. -/
theorem CodeUnit.captures_capturing (u : CodeUnit) (E : Nat → Bool) : u.Captures (u.capturing E) := by
  refine ⟨rfl, fun id => ?_⟩
  have hget : (u.capturing E).record? id = (u.record? id).map fun r =>
      if E id then { r with requiresCapture := true } else r := Array.getElem?_mapIdx
  rw [hget]
  cases u.record? id with
  | none => exact .none
  | some r =>
    refine .some ?_
    dsimp only
    split
    · exact .inr rfl
    · exact .inl rfl

namespace CodeUnit.Captures

variable {u v : CodeUnit}

theorem function? (h : u.Captures v) (id : Nat) : v.function? id = u.function? id := by
  rw [h.rest]
  rfl

theorem body (h : u.Captures v) : v.program.body = u.program.body := by
  rw [h.rest]

theorem record?_none (h : u.Captures v) {id : Nat} (hr : u.record? id = none) : v.record? id = none := by
  have hrel := h.records id
  rw [hr] at hrel
  cases hq : v.record? id with
  | none => rfl
  | some q =>
    rw [hq] at hrel
    cases hrel

theorem record?_some (h : u.Captures v) {id : Nat} {r : ScopeRecord} (hr : u.record? id = some r) :
    ∃ q, v.record? id = some q ∧ r.Captures q := by
  have hrel := h.records id
  rw [hr] at hrel
  cases hq : v.record? id with
  | none =>
    rw [hq] at hrel
    cases hrel
  | some q =>
    rw [hq] at hrel
    cases hrel with
    | some hrel => exact ⟨q, rfl, hrel⟩

end CodeUnit.Captures

/-- The closures show the same from outside. -/
theorem Closure.Captures.internalName {k l : Closure} (h : k.Captures l) :
    l.internalName = k.internalName := by
  have hnode : l.node = k.node := by rw [h.rest]
  unfold Closure.internalName Closure.name
  rw [hnode]
  cases hr : k.unit.record? k.node.id with
  | none => rw [h.unit.record?_none hr]
  | some r =>
    obtain ⟨q, hq, hrel⟩ := h.unit.record?_some hr
    rw [hq, hrel.rest]

namespace Store

variable {κ : Kind} {α : Type} {R : α → α → Prop} {S T : Store κ α} {a : Addr κ}

/-- The stores have values at the same addresses, and these are related. -/
def Alike (R : α → α → Prop) (S T : Store κ α) : Prop := ∀ a, Option.Rel R (S.get? a) (T.get? a)

theorem Alike.isSome (h : Alike R S T) (a : Addr κ) : (S.get? a).isSome ↔ (T.get? a).isSome := by
  have hrel := h a
  generalize S.get? a = x at hrel ⊢
  generalize T.get? a = y at hrel ⊢
  cases hrel <;> simp

theorem Alike.next (h : Alike R S T) (region : Nat) : S.next region = T.next region :=
  next_congr fun a _ => h.isSome a

theorem Alike.push (h : Alike R S T) {x y : α} (hxy : R x y) (region : Nat) :
    Alike R (S.push region x) (T.push region y) := by
  intro a
  rw [get?_push, get?_push, h.next]
  split
  · exact .some hxy
  · exact h a

theorem Alike.get [Inhabited α] (h : Alike R S T) (hdefault : R default default) (a : Addr κ) :
    R (S.get a) (T.get a) := by
  have hrel := h a
  unfold Store.get
  generalize S.get? a = x at hrel ⊢
  generalize T.get? a = y at hrel ⊢
  cases hrel with
  | none => exact hdefault
  | some hxy => exact hxy

theorem alike_refl (hR : ∀ x, R x x) (S : Store κ α) : Alike R S S := fun a => by
  cases S.get? a with
  | none => exact .none
  | some x => exact .some (hR x)

end Store

/-! ## Plans -/

/-- Which scopes of a first evaluation stand for which scopes of a second one. -/
structure Plan where
  /-- They are the same scope. -/
  same : ScopeId → ScopeId → Prop
  /-- The second one is empty and lies below what is the first one. -/
  annex : ScopeId → ScopeId → Prop
  /-- The function that evaluates code where it is called. -/
  evalFunction : NativeId

namespace Plan

/-- Everything that was planned still is. -/
structure Le (P Q : Plan) : Prop where
  same : ∀ {a b}, P.same a b → Q.same a b
  annex : ∀ {a b}, P.annex a b → Q.annex a b
  evalFunction : Q.evalFunction = P.evalFunction

theorem Le.refl (P : Plan) : P.Le P := ⟨id, id, rfl⟩

theorem Le.trans {P Q R : Plan} (h : P.Le Q) (h' : Q.Le R) : P.Le R :=
  ⟨fun hab => h'.same (h.same hab), fun hab => h'.annex (h.annex hab),
    h'.evalFunction.trans h.evalFunction⟩

/-- Two scopes are the same from now on. -/
def pair (P : Plan) (a b : ScopeId) : Plan := { P with same := fun x y => P.same x y ∨ x = a ∧ y = b }

/-- A scope has an annex from now on. -/
def attach (P : Plan) (a e : ScopeId) : Plan :=
  { P with annex := fun x y => P.annex x y ∨ x = a ∧ y = e }

theorem le_pair (P : Plan) (a b : ScopeId) : P.Le (P.pair a b) := ⟨.inl, id, rfl⟩

theorem le_attach (P : Plan) (a e : ScopeId) : P.Le (P.attach a e) := ⟨id, .inl, rfl⟩

end Plan

/-- The scopes have the same content, and parents that are the same and older. -/
structure Scope.Twins (P : Plan) (a b : ScopeId) (s t : Scope) : Prop where
  rest : t = { s with parent := t.parent }
  parent : s.parent = none ∧ t.parent = none ∨ ∃ p q, s.parent = some p ∧ t.parent = some q ∧
    P.same p q ∧ p.index < a.index ∧ q.index < b.index

/-- The associations are of one closure, with scopes that are the same. -/
structure Association.Twins (P : Plan) (x y : Association) : Prop where
  closure : y.closure = x.closure
  record : y.record = x.record
  scope : P.same x.scope y.scope

theorem Scope.Twins.mono {P Q : Plan} {a b : ScopeId} {s t : Scope} (h : s.Twins P a b t)
    (hPQ : P.Le Q) : s.Twins Q a b t := by
  refine ⟨h.rest, h.parent.imp_right ?_⟩
  rintro ⟨p, q, hs, ht, hpq, hp, hq⟩
  exact ⟨p, q, hs, ht, hPQ.same hpq, hp, hq⟩

theorem Association.Twins.mono {P Q : Plan} {x y : Association} (h : x.Twins P y) (hPQ : P.Le Q) :
    x.Twins Q y := ⟨h.closure, h.record, hPQ.same h.scope⟩

/-- What two evaluations have on the heap besides objects. -/
structure Veil.Twins (P : Plan) (V W : Veil) : Prop where
  evalFunction : V.evalFunction = P.evalFunction ∧ W.evalFunction = P.evalFunction
  code : ∀ id k, V.closures.get? id = some k → k.unit.Compiled
  closures : Store.Alike Closure.Captures V.closures W.closures
  same : ∀ {a b}, P.same a b → ∃ s t, V.scopes.get? a = some s ∧ W.scopes.get? b = some t ∧
    s.Twins P a b t
  left : ∀ {a b b'}, P.same a b → P.same a b' → b = b'
  right : ∀ {a a' b}, P.same a b → P.same a' b → a = a'
  annex : ∀ {a e}, P.annex a e → ∃ b t, P.same a b ∧ W.scopes.get? e = some t ∧ t.parent = some b ∧
    t.storage = .locals [] ∧ b.index < e.index
  links : ∀ n : Nat, Option.Rel (Association.Twins P) V.links[n]? W.links[n]?

/-- The cores agree on objects and on everything else that a guest can see, and the plan relates their
scopes. -/
structure Core.Twins (P : Plan) (c d : Core) : Prop where
  rest : d = c.veiled d.veil
  veil : c.veil.Twins P d.veil

/-! ## What becomes of scopes and associations -/

/-- A change that leaves the parent of a scope and finds nothing in an empty one. -/
structure Scope.Edits (f : Scope → Scope) : Prop where
  parent : ∀ s p, f { s with parent := p } = { f s with parent := p }
  empty : ∀ s, s.storage = .locals [] → (f s).storage = .locals []

theorem Scope.edits_id : Edits id := ⟨fun _ _ => rfl, fun _ h => h⟩

theorem Scope.edits_setLocal (name : String) (v : Value) :
    Edits fun s => { s with storage := s.storage.setLocal name v } := by
  refine ⟨fun _ _ => rfl, fun s hs => ?_⟩
  dsimp only
  rw [hs]
  rfl

theorem Scope.edits_cleared : Edits Scope.cleared := by
  refine ⟨fun s p => ?_, fun s hs => ?_⟩
  · obtain ⟨parent, owner, storage, thisValue⟩ := s
    cases storage <;> rfl
  · obtain ⟨parent, owner, storage, thisValue⟩ := s
    subst hs
    rfl

theorem Scope.Edits.parent_eq {f : Scope → Scope} (hf : Edits f) (s : Scope) :
    (f s).parent = s.parent := by
  have heq := congrArg Scope.parent (hf.parent s s.parent)
  exact heq

theorem Scope.Twins.edit {P : Plan} {a b : ScopeId} {s t : Scope} {f : Scope → Scope}
    (h : s.Twins P a b t) (hf : Edits f) : (f s).Twins P a b (f t) := by
  refine ⟨?_, ?_⟩
  · rw [h.rest, hf.parent]
  · rw [hf.parent_eq, hf.parent_eq]
    exact h.parent

namespace Veil.Twins

variable {P : Plan} {V W : Veil} {a b e p q : ScopeId}

theorem mirrors (h : V.Twins P W) {c : Core} (hc : c.veil = V) : W.Mirrors c.heap := by
  have hget : ∀ id, (c.heap.closures.get id).Captures (W.closures.get id) := by
    subst hc
    exact h.closures.get (.refl _)
  exact ⟨fun id => by rw [(hget id).rest], fun id => by rw [(hget id).rest]⟩

/-- Scopes that are the same are changed in the same way. -/
theorem edit (h : V.Twins P W) {S T : Store .scope Scope}
    (hsame : ∀ {a b s t}, P.same a b → V.scopes.get? a = some s → W.scopes.get? b = some t →
      ∃ f, Scope.Edits f ∧ S.get? a = some (f s) ∧ T.get? b = some (f t))
    (hannex : ∀ {a e t}, P.annex a e → W.scopes.get? e = some t →
      ∃ f, Scope.Edits f ∧ T.get? e = some (f t)) :
    Veil.Twins P { V with scopes := S } { W with scopes := T } where
  evalFunction := h.evalFunction
  code := h.code
  closures := h.closures
  same hab := by
    obtain ⟨s, t, hs, ht, htwins⟩ := h.same hab
    obtain ⟨f, hf, hs', ht'⟩ := hsame hab hs ht
    exact ⟨f s, f t, hs', ht', htwins.edit hf⟩
  left := h.left
  right := h.right
  annex hae := by
    obtain ⟨b, t, hab, ht, hparent, hstorage, hindex⟩ := h.annex hae
    obtain ⟨f, hf, ht'⟩ := hannex hae ht
    exact ⟨b, f t, hab, ht', (hf.parent_eq t).trans hparent, hf.empty t hstorage, hindex⟩
  links := h.links

/-- A change of one scope on both sides. -/
theorem modify (h : V.Twins P W) (hab : P.same a b) {f : Scope → Scope} (hf : Scope.Edits f) :
    Veil.Twins P { V with scopes := V.scopes.modify a f } { W with scopes := W.scopes.modify b f } := by
  refine h.edit (fun {a' b' s t} hab' hs ht => ?_) (fun {a' e t} hae ht => ?_)
  · by_cases ha : a' = a
    · subst ha
      obtain rfl := h.left hab hab'
      exact ⟨f, hf, by rw [Store.get?_modify, if_pos rfl, hs]; rfl,
        by rw [Store.get?_modify, if_pos rfl, ht]; rfl⟩
    · have hb : b' ≠ b := by
        rintro rfl
        exact ha (h.right hab' hab)
      exact ⟨id, Scope.edits_id, by rw [Store.get?_modify, if_neg ha, hs]; rfl,
        by rw [Store.get?_modify, if_neg hb, ht]; rfl⟩
  · by_cases he : e = b
    · exact ⟨f, hf, by rw [Store.get?_modify, if_pos he, ht]; rfl⟩
    · exact ⟨id, Scope.edits_id, by rw [Store.get?_modify, if_neg he, ht]; rfl⟩

/-- The same scope is there on both sides. -/
theorem exists_left (h : V.Twins P W) (hab : P.same a b) : (V.scopes.get? a).isSome := by
  obtain ⟨s, -, hs, -⟩ := h.same hab
  exact Option.isSome_of_eq_some hs

theorem exists_right (h : V.Twins P W) (hab : P.same a b) : (W.scopes.get? b).isSome := by
  obtain ⟨-, t, -, ht, -⟩ := h.same hab
  exact Option.isSome_of_eq_some ht

/-- A new scope stands apart from those that were there. -/
theorem get?_push_of_isSome {S : Store .scope Scope} {region : Nat} {s : Scope} (ha : (S.get? a).isSome) :
    (S.push region s).get? a = S.get? a := by
  rw [Store.get?_push, if_neg]
  rintro rfl
  rw [Store.get?_next] at ha
  cases ha

/-- A new scope on both sides, below scopes that are the same. -/
theorem push (h : V.Twins P W) (hpq : P.same p q) {s t : Scope} (hs : s.parent = some p)
    (ht : t = { s with parent := some q }) :
    Veil.Twins (P.pair (V.scopes.next p.region) (W.scopes.next q.region))
      { V with scopes := V.scopes.push p.region s } { W with scopes := W.scopes.push q.region t } where
  evalFunction := h.evalFunction
  code := h.code
  closures := h.closures
  same {a b} hab := by
    rcases hab with hab | ⟨rfl, rfl⟩
    · obtain ⟨s', t', hs', ht', htwins⟩ := h.same hab
      refine ⟨s', t', ?_, ?_, htwins.mono (P.le_pair _ _)⟩
      · exact (get?_push_of_isSome (h.exists_left hab)).trans hs'
      · exact (get?_push_of_isSome (h.exists_right hab)).trans ht'
    · refine ⟨s, t, ?_, ?_, by rw [ht], .inr ⟨p, q, hs, by rw [ht], .inl hpq, ?_, ?_⟩⟩
      · rw [Store.get?_push, if_pos rfl]
      · rw [Store.get?_push, if_pos rfl]
      · exact (Store.isSome_get? _ _).mp (h.exists_left hpq)
      · exact (Store.isSome_get? _ _).mp (h.exists_right hpq)
  left {a b b'} hab hab' := by
    rcases hab with hab | ⟨rfl, rfl⟩ <;> rcases hab' with hab' | ⟨ha', rfl⟩
    · exact h.left hab hab'
    · have hsome := h.exists_left hab
      rw [ha', Store.get?_next] at hsome
      cases hsome
    · have hsome := h.exists_left hab'
      rw [Store.get?_next] at hsome
      cases hsome
    · rfl
  right {a a' b} hab hab' := by
    rcases hab with hab | ⟨rfl, rfl⟩ <;> rcases hab' with hab' | ⟨rfl, hb'⟩
    · exact h.right hab hab'
    · have hsome := h.exists_right hab
      rw [hb', Store.get?_next] at hsome
      cases hsome
    · have hsome := h.exists_right hab'
      rw [Store.get?_next] at hsome
      cases hsome
    · rfl
  annex hae := by
    obtain ⟨b, t', hab, ht', hparent, hstorage, hindex⟩ := h.annex hae
    refine ⟨b, t', .inl hab, ?_, hparent, hstorage, hindex⟩
    exact (get?_push_of_isSome (Option.isSome_of_eq_some ht')).trans ht'
  links n := by
    have hrel := h.links n
    dsimp only
    generalize V.links[n]? = x at hrel ⊢
    generalize W.links[n]? = y at hrel ⊢
    cases hrel with
    | none => exact .none
    | some hxy => exact .some (hxy.mono (P.le_pair _ _))

/-- A new scope on the second side alone, empty and below one that is the same. -/
theorem attach (h : V.Twins P W) (hpq : P.same p q) {t : Scope} (hparent : t.parent = some q)
    (hstorage : t.storage = .locals []) :
    Veil.Twins (P.attach p (W.scopes.next q.region)) V
      { W with scopes := W.scopes.push q.region t } where
  evalFunction := h.evalFunction
  code := h.code
  closures := h.closures
  same hab := by
    obtain ⟨s', t', hs', ht', htwins⟩ := h.same hab
    exact ⟨s', t', hs', (get?_push_of_isSome (h.exists_right hab)).trans ht',
      htwins.mono (P.le_attach _ _)⟩
  left := h.left
  right := h.right
  annex {a e} hae := by
    rcases hae with hae | ⟨rfl, rfl⟩
    · obtain ⟨b, t', hab, ht', hrest⟩ := h.annex hae
      exact ⟨b, t', hab, (get?_push_of_isSome (Option.isSome_of_eq_some ht')).trans ht', hrest⟩
    · refine ⟨q, t, hpq, ?_, hparent, hstorage, ?_⟩
      · rw [Store.get?_push, if_pos rfl]
      · exact (Store.isSome_get? _ _).mp (h.exists_right hpq)
  links n := by
    have hrel := h.links n
    generalize V.links[n]? = x at hrel ⊢
    generalize W.links[n]? = y at hrel ⊢
    cases hrel with
    | none => exact .none
    | some hxy => exact .some (hxy.mono (P.le_attach _ _))

/-- A new closure on both sides. -/
theorem closure (h : V.Twins P W) {k l : Closure} (hkl : k.Captures l) (hcode : k.unit.Compiled)
    (region : Nat) : Veil.Twins P { V with closures := V.closures.push region k }
      { W with closures := W.closures.push region l } :=
  { h with
    code := fun id k' hk' => by
      rw [Store.get?_push] at hk'
      split at hk'
      · exact Option.some.inj hk' ▸ hcode
      · exact h.code id k' hk'
    closures := h.closures.push hkl region }

/-- A closure is associated on both sides with scopes that are the same. -/
theorem associate (h : V.Twins P W) {x y : Association} (hxy : x.Twins P y) (serial : Nat) :
    Veil.Twins P { V with links := (V.links.associate serial x).2 }
      { W with links := (W.links.associate serial y).2 } :=
  { h with
    links := fun n => by
      have hcontains : V.links.contains serial = W.links.contains serial := by
        rw [Std.TreeMap.contains_eq_isSome_getElem?, Std.TreeMap.contains_eq_isSome_getElem?]
        have hrel := h.links serial
        generalize V.links[serial]? = u at hrel ⊢
        generalize W.links[serial]? = v at hrel ⊢
        cases hrel <;> rfl
      rw [Links.getElem?_associate, Links.getElem?_associate, hcontains]
      split
      · exact .some hxy
      · exact h.links n }

/-- Which scope a number is associated with. -/
theorem scope? (h : V.Twins P W) (n : Nat) :
    V.links.scope? n = none ∧ W.links.scope? n = none ∨
      ∃ a b, V.links.scope? n = some a ∧ W.links.scope? n = some b ∧ P.same a b := by
  have hrel := h.links n
  unfold Links.scope?
  generalize V.links[n]? = x at hrel ⊢
  generalize W.links[n]? = y at hrel ⊢
  cases hrel with
  | none => exact .inl ⟨rfl, rfl⟩
  | some hxy => exact .inr ⟨_, _, rfl, rfl, hxy.scope⟩

end Veil.Twins

/-! ## Acts on both sides -/

/-- Both sides came to related results and cores that a further plan relates, or to the same transfer of
control. -/
inductive Plan.Delivers {α β : Type} (P : Plan) (V : Plan → α → β → Prop) :
    EStateM.Result Abrupt Core α → EStateM.Result Abrupt Core β → Prop
  | ok {Q a b c d} : P.Le Q → c.Twins Q d → V Q a b → Delivers P V (.ok a c) (.ok b d)
  | error {Q x c d} : P.Le Q → c.Twins Q d → Delivers P V (.error x c) (.error x d)

namespace Act

variable {α β γ δ : Type} {P : Plan} {V : Plan → α → β → Prop} {W : Plan → γ → δ → Prop}

/-- The acts come to related results on cores that a plan from `P` on relates. -/
def Pairs (P : Plan) (V : Plan → α → β → Prop) (p : Act α) (q : Act β) : Prop :=
  ∀ Q c d, P.Le Q → Core.Twins Q c d → Q.Delivers V (p c) (q d)

/-- The same result on both sides. -/
abbrev Equal (_ : Plan) (a b : α) : Prop := b = a

theorem Delivers.since {P Q : Plan} {r : EStateM.Result Abrupt Core α}
    {t : EStateM.Result Abrupt Core β} (h : Q.Delivers V r t) (hPQ : P.Le Q) : P.Delivers V r t := by
  cases h with
  | ok hQ htwins hab => exact .ok (hPQ.trans hQ) htwins hab
  | error hQ htwins => exact .error (hPQ.trans hQ) htwins

namespace Pairs

theorem mono {Q : Plan} {p : Act α} {q : Act β} (h : Pairs P V p q) (hPQ : P.Le Q) : Pairs Q V p q :=
  fun R c d hQR htwins => h R c d (hPQ.trans hQR) htwins

theorem pure {a : α} {b : β} (hab : ∀ Q, P.Le Q → V Q a b) :
    Pairs P V (Pure.pure a) (Pure.pure b) :=
  fun Q _ _ hPQ htwins => .ok (.refl Q) htwins (hab Q hPQ)

theorem throw (x : Abrupt) : Pairs P V (throw x) (throw x) :=
  fun Q _ _ _ htwins => .error (.refl Q) htwins

theorem bind {p : Act α} {q : Act β} {r : α → Act γ} {t : β → Act δ} (hp : Pairs P V p q)
    (hq : ∀ Q a b, P.Le Q → V Q a b → Pairs Q W (r a) (t b)) :
    Pairs P W (p >>= r) (q >>= t) := by
  intro Q c d hPQ htwins
  have hpr := hp Q c d hPQ htwins
  simp only [Bind.bind, EStateM.bind]
  generalize p c = x at hpr
  generalize q d = y at hpr
  cases hpr with
  | ok hQR htwins' hab =>
    exact Delivers.since (hq _ _ _ (hPQ.trans hQR) hab _ _ _ (.refl _) htwins') hQR
  | error hQR htwins' => exact .error hQR htwins'

/-- Blind acts do the same on both sides. -/
theorem blind {p : Act α} (hp : Blind p) : Pairs P Equal p p := by
  intro Q c d _ htwins
  have hd : p d = d.veil.over (p c) := by
    rw [← hp c d.veil (htwins.veil.mirrors rfl), ← htwins.rest]
  have hkept := hp.veil_eq c
  rw [hd]
  cases h : p c with
  | ok a c' => exact .ok (.refl Q) ⟨rfl, hkept.1 a c' h ▸ htwins.veil⟩ rfl
  | error x c' => exact .error (.refl Q) ⟨rfl, hkept.2 x c' h ▸ htwins.veil⟩

/-- A blind act first. -/
theorem after {p : Act α} {r : α → Act γ} {t : α → Act δ} (hp : Blind p)
    (hq : ∀ a, Pairs P W (r a) (t a)) : Pairs P W (p >>= r) (p >>= t) :=
  (blind hp).bind fun Q a b hPQ hab => by
    subst hab
    exact (hq b).mono hPQ

theorem raise (kind message : String) : Pairs P V (Act.raise kind message) (Act.raise kind message) :=
  after (Blind.newObject _) fun _ => throw _

theorem typeError (message : String) : Pairs P V (Act.typeError message) (Act.typeError message) :=
  raise _ _

theorem scopeError (e : ScopeError) : Pairs P V (Act.scopeError e) (Act.scopeError e) := by
  cases e <;> exact raise _ _

end Pairs

end Act

/-! ## Names -/

/-- A name leads to the same place. -/
inductive Heap.Place.Twins (P : Plan) : Heap.Place → Heap.Place → Prop
  | binding {a b} : P.same a b → Twins P (.binding a) (.binding b)
  | global (o) : Twins P (.global o) (.global o)
  | nowhere : Twins P .nowhere .nowhere

/-- The scopes are the same, or one is an annex of the other. -/
def Plan.Stands (P : Plan) (a e : ScopeId) : Prop := P.same a e ∨ P.annex a e

theorem Plan.Stands.mono {P Q : Plan} {a e : ScopeId} (h : P.Stands a e) (hPQ : P.Le Q) :
    Q.Stands a e := h.imp hPQ.same hPQ.annex

namespace Core.Twins

variable {P : Plan} {c d : Core} {a b e : ScopeId} {name : String}

theorem engine_eq (h : c.Twins P d) :
    d.engine = { c.engine with links := d.engine.links, evalFunction := d.engine.evalFunction } :=
  congrArg Core.engine h.rest

theorem heap_eq (h : c.Twins P d) :
    d.heap = { c.heap with closures := d.heap.closures, scopes := d.heap.scopes } :=
  congrArg Core.heap h.rest

/-- What the scopes on both sides hold. -/
theorem get_same (h : c.Twins P d) (hab : P.same a b) :
    (c.heap.scopes.get a).Twins P a b (d.heap.scopes.get b) := by
  obtain ⟨s, t, hs, ht, htwins⟩ := h.veil.same hab
  change c.heap.scopes.get? a = some s at hs
  change d.heap.scopes.get? b = some t at ht
  rwa [Store.get_of_get? hs, Store.get_of_get? ht]

/-- The closures on both sides. -/
theorem get_closure (h : c.Twins P d) (id : ClosureId) :
    (c.heap.closures.get id).Captures (d.heap.closures.get id) :=
  h.veil.closures.get (.refl _) id

theorem storage_eq (h : c.Twins P d) (hab : P.same a b) :
    (d.heap.scopes.get b).storage = (c.heap.scopes.get a).storage := by
  rw [(h.get_same hab).rest]

theorem placeWithin_same (h : c.Twins P d) (hab : P.same a b) {n m : Nat} (hn : a.index < n)
    (hm : b.index < m) :
    (c.heap.placeWithin name n a).Twins P (d.heap.placeWithin name m b) := by
  induction n generalizing a b m with
  | zero => omega
  | succ n ih =>
    obtain ⟨m, rfl⟩ := Nat.exists_eq_add_of_le' (Nat.succ_le_of_lt (Nat.zero_lt_of_lt hm))
    unfold Heap.placeWithin
    dsimp only
    rw [h.storage_eq hab]
    cases (c.heap.scopes.get a).storage with
    | global o => exact .global o
    | locals bindings =>
      dsimp only
      split
      · exact .binding hab
      · rcases (h.get_same hab).parent with ⟨hs, ht⟩ | ⟨p, q, hs, ht, hpq, hp, hq⟩
        · rw [hs, ht]
          exact .nowhere
        · rw [hs, ht]
          exact ih hpq (by omega) (by omega)

/-- **A name leads to the same place**, an annex or not. -/
theorem place (h : c.Twins P d) (hae : P.Stands a e) (name : String) :
    (c.heap.place a name).Twins P (d.heap.place e name) := by
  rcases hae with hab | hae
  · exact h.placeWithin_same hab (Nat.lt_succ_self _) (Nat.lt_succ_self _)
  · obtain ⟨b, t, hab, ht, hparent, hstorage, hindex⟩ := h.veil.annex hae
    have hget : d.heap.scopes.get e = t := Store.get_of_get? ht
    have hstep : d.heap.placeWithin name (e.index + 1) e = d.heap.placeWithin name e.index b := by
      rw [Heap.placeWithin, hget, hstorage, hparent]
      rfl
    unfold Heap.place Heap.chainBound
    rw [hstep]
    exact h.placeWithin_same hab (Nat.lt_succ_self _) hindex

/-- **A name is read alike.** -/
theorem getName (h : c.Twins P d) (hae : P.Stands a e) (name : String) :
    d.heap.getName e name = c.heap.getName a name := by
  have hplace := h.place hae name
  unfold Heap.getName
  split
  · rfl
  · generalize c.heap.place a name = x at hplace ⊢
    generalize d.heap.place e name = y at hplace ⊢
    cases hplace with
    | binding hab =>
      dsimp only
      rw [h.storage_eq hab]
    | global o =>
      have hvalue : d.heap.globalValue? o name = c.heap.globalValue? o name := by
        unfold Heap.globalValue?
        rw [h.rest, Core.heap_veiled, Heap.lookup?_veiled]
      dsimp only
      rw [hvalue]
    | nowhere => rfl

theorem declares (h : c.Twins P d) (hab : P.same a b) (name : String) :
    d.heap.declares b name = c.heap.declares a name := by
  unfold Heap.declares
  rw [h.storage_eq hab]
  split
  · rw [h.rest, Core.heap_veiled, Heap.has_veiled]
  · rfl

theorem isRoot (h : c.Twins P d) (hab : P.same a b) :
    (d.heap.scopes.get b).isRoot = (c.heap.scopes.get a).isRoot := by
  unfold Scope.isRoot
  rcases (h.get_same hab).parent with ⟨hs, ht⟩ | ⟨p, q, hs, ht, -⟩
  · rw [hs, ht]
  · rw [hs, ht]
    rfl

/-- A local binding is written on both sides. -/
theorem storing (h : c.Twins P d) (hab : P.same a b) (name : String) (v : Value) :
    (c.storing a name v).Twins P (d.storing b name v) := by
  refine ⟨?_, h.veil.modify hab (Scope.edits_setLocal name v)⟩
  conv_lhs => rw [h.rest]
  rfl

end Core.Twins

namespace Act.Pairs

variable {P : Plan} {a e : ScopeId}

theorem getName (hae : P.Stands a e) (name : String) :
    Pairs P Equal (Act.getName a name) (Act.getName e name) := by
  intro Q c d hPQ htwins
  have hread := htwins.getName (hae.mono hPQ) name
  unfold Act.getName
  rw [reads_bind, reads_bind, hread]
  cases c.heap.getName a name with
  | ok v => exact .ok (.refl Q) htwins rfl
  | error e => exact scopeError (P := Q) e Q c d (.refl Q) htwins

/-- A write on both sides, at the same place. -/
theorem setAt {x y : Heap.Place} (hxy : x.Twins P y) (name : String) (v : Value) :
    Pairs P Equal (Act.changes (·.setAt x name v)) (Act.changes (·.setAt y name v)) := by
  cases hxy with
  | binding hab =>
    intro Q c d hPQ htwins
    exact .ok (.refl Q) (htwins.storing (hPQ.same hab) name v) rfl
  | global o =>
    refine blind (Blind.changes fun h V hV => ?_)
    unfold Heap.setAt
    dsimp only
    split
    · rfl
    · exact Heap.set_veiled hV o name v
  | nowhere => exact blind (Blind.changes fun _ _ _ => rfl)

theorem setName (hae : P.Stands a e) (name : String) (v : Value) :
    Pairs P Equal (Act.setName a name v) (Act.setName e name v) := by
  intro Q c d hPQ htwins
  have hplace := htwins.place (hae.mono hPQ) name
  unfold Act.setName
  rw [reads_bind, reads_bind]
  unfold Heap.target
  split
  · exact scopeError (P := Q) _ Q c d (.refl Q) htwins
  · generalize c.heap.place a name = x at hplace ⊢
    generalize d.heap.place e name = y at hplace ⊢
    cases hplace with
    | binding hab => exact setAt (.binding hab) name v Q c d (.refl Q) htwins
    | global o => exact setAt (.global o) name v Q c d (.refl Q) htwins
    | nowhere => exact scopeError (P := Q) _ Q c d (.refl Q) htwins

end Act.Pairs

/-! ## What both sides hold -/

/-- The cells are the same; for scopes, the plan says so. -/
inductive Cell.Twins (P : Plan) : Cell → Cell → Prop
  | object (id) : Twins P (.object id) (.object id)
  | closure (id) : Twins P (.closure id) (.closure id)
  | native (id) : Twins P (.native id) (.native id)
  | scope {a b} : P.same a b → Twins P (.scope a) (.scope b)
  | pending (id) : Twins P (.pending id) (.pending id)

theorem Cell.Twins.sealed {P : Plan} {x y : Cell} (h : Twins P x y) : y.isSealed = x.isSealed := by
  cases h <;> rfl

/-- Every cell of each list is the same as one of the other list. -/
structure Plan.Shares (P : Plan) (xs ys : List Cell) : Prop where
  left : ∀ x ∈ xs, ∃ y ∈ ys, Cell.Twins P x y
  right : ∀ y ∈ ys, ∃ x ∈ xs, Cell.Twins P x y

namespace Plan.Shares

variable {P : Plan} {xs ys zs ws : List Cell}

theorem append (h : P.Shares xs ys) (h' : P.Shares zs ws) : P.Shares (xs ++ zs) (ys ++ ws) := by
  refine ⟨fun x hx => ?_, fun y hy => ?_⟩
  · rcases List.mem_append.mp hx with hx | hx
    · obtain ⟨y, hy, hxy⟩ := h.left x hx
      exact ⟨y, List.mem_append_left _ hy, hxy⟩
    · obtain ⟨y, hy, hxy⟩ := h'.left x hx
      exact ⟨y, List.mem_append_right _ hy, hxy⟩
  · rcases List.mem_append.mp hy with hy | hy
    · obtain ⟨x, hx, hxy⟩ := h.right y hy
      exact ⟨x, List.mem_append_left _ hx, hxy⟩
    · obtain ⟨x, hx, hxy⟩ := h'.right y hy
      exact ⟨x, List.mem_append_right _ hx, hxy⟩

theorem cons {x y : Cell} (hxy : Cell.Twins P x y) (h : P.Shares xs ys) :
    P.Shares (x :: xs) (y :: ys) :=
  have hone : P.Shares [x] [y] :=
    ⟨fun _ hz => ⟨y, List.mem_singleton_self y, List.mem_singleton.mp hz ▸ hxy⟩,
      fun _ hz => ⟨x, List.mem_singleton_self x, List.mem_singleton.mp hz ▸ hxy⟩⟩
  hone.append h

/-- A list in which scopes are the same as themselves. -/
theorem refl (h : ∀ a, .scope a ∈ xs → P.same a a) : P.Shares xs xs := by
  have hself : ∀ x ∈ xs, Cell.Twins P x x := fun x hx => by
    cases x with
    | object id => exact .object id
    | closure id => exact .closure id
    | native id => exact .native id
    | scope a => exact .scope (h a hx)
    | pending id => exact .pending id
  exact ⟨fun x hx => ⟨x, hx, hself x hx⟩, fun x hx => ⟨x, hx, hself x hx⟩⟩

theorem nil : P.Shares [] [] := refl fun _ => nofun

end Plan.Shares

theorem Plan.shares_values (P : Plan) (vs : List Value) :
    P.Shares (Cell.ofValues vs) (Cell.ofValues vs) :=
  .refl fun _ ha => absurd ha Cell.scope_notMem_ofValues

namespace Core.Twins

variable {P : Plan} {c d : Core} {x y z : Cell} {roots others : List Cell}

theorem left_unique (h : c.Twins P d) (hxy : Cell.Twins P x y) (hxz : Cell.Twins P x z) : y = z := by
  cases hxy with
  | scope hab =>
    cases hxz with
    | scope hab' => exact congrArg Cell.scope (h.veil.left hab hab')
  | _ =>
    cases hxz
    rfl

theorem right_unique (h : c.Twins P d) (hxz : Cell.Twins P x z) (hyz : Cell.Twins P y z) : x = y := by
  cases hxz with
  | scope hab =>
    cases hyz with
    | scope hab' => exact congrArg Cell.scope (h.veil.right hab hab')
  | _ =>
    cases hyz
    rfl

/-- Both sides have the cell. -/
theorem contains (h : c.Twins P d) (hxy : Cell.Twins P x y) : d.heap.contains y = c.heap.contains x := by
  have hheap := h.heap_eq
  cases hxy with
  | object id =>
    rw [hheap]
    rfl
  | closure id =>
    rw [Bool.eq_iff_iff]
    exact (h.veil.closures.isSome id).symm
  | native id =>
    rw [hheap]
    rfl
  | scope hab =>
    rw [Bool.eq_iff_iff]
    exact iff_of_true (h.veil.exists_right hab) (h.veil.exists_left hab)
  | pending id =>
    rw [hheap]
    rfl

/-- A closure was made in the same scope. -/
theorem definingScope? (h : c.Twins P d) (id : ClosureId) :
    P.Shares ((c.engine.links.definingScope? c.heap id).map Cell.scope).toList
      ((d.engine.links.definingScope? d.heap id).map Cell.scope).toList := by
  have hserial : (d.heap.closures.get id).serial = (c.heap.closures.get id).serial := by
    rw [(h.get_closure id).rest]
  have hrel : Option.Rel (Association.Twins P) c.engine.links[(c.heap.closures.get id).serial]?
      d.engine.links[(c.heap.closures.get id).serial]? := h.veil.links _
  unfold Links.definingScope?
  rw [hserial]
  generalize c.engine.links[(c.heap.closures.get id).serial]? = u at hrel ⊢
  generalize d.engine.links[(c.heap.closures.get id).serial]? = v at hrel ⊢
  cases hrel with
  | none => exact .nil
  | @some u v huv =>
    dsimp only
    rw [huv.closure]
    split
    · exact .cons (.scope huv.scope) .nil
    · exact .nil

/-- **The same is held.** -/
theorem heldBy (h : c.Twins P d) (hxy : Cell.Twins P x y) :
    P.Shares (c.heap.heldBy c.engine.links x) (d.heap.heldBy d.engine.links y) := by
  have hheap := h.heap_eq
  cases hxy with
  | object id =>
    have hget : d.heap.objects = c.heap.objects := by rw [hheap]
    unfold Heap.heldBy
    rw [hget]
    exact P.shares_values _
  | closure id =>
    have hobject : (d.heap.closures.get id).object = (c.heap.closures.get id).object := by
      rw [(h.get_closure id).rest]
    unfold Heap.heldBy
    dsimp only
    rw [hobject]
    exact .cons (.object _) (h.definingScope? id)
  | native id =>
    have hget : d.heap.natives = c.heap.natives := by rw [hheap]
    unfold Heap.heldBy
    rw [hget]
    exact .cons (.object _) .nil
  | @scope a b hab =>
    have htwins := h.get_same hab
    have hheld : (d.heap.scopes.get b).held = (c.heap.scopes.get a).held := by
      rw [htwins.rest]
      rfl
    unfold Heap.heldBy
    dsimp only
    rw [hheld]
    refine .append ?_ (P.shares_values _)
    rcases htwins.parent with ⟨hs, ht⟩ | ⟨p, q, hs, ht, hpq, -⟩
    · rw [hs, ht]
      exact .nil
    · rw [hs, ht]
      exact .cons (.scope hpq) .nil
  | pending id =>
    have hget : d.heap.pendings = c.heap.pendings := by rw [hheap]
    unfold Heap.heldBy
    rw [hget]
    exact P.shares_values _

/-- What the first side reaches, the second one does. -/
theorem reaches_right (h : c.Twins P d) (hroots : P.Shares roots others)
    (hx : c.heap.Reaches c.engine.links roots x) :
    ∃ y, Cell.Twins P x y ∧ d.heap.Reaches d.engine.links others y := by
  induction hx with
  | root hx hin =>
    obtain ⟨y, hy, hxy⟩ := hroots.left _ hx
    exact ⟨y, hxy, .root hy ((h.contains hxy).trans hin)⟩
  | held _ hz hin ih =>
    obtain ⟨y, hxy, hy⟩ := ih
    obtain ⟨w, hw, hzw⟩ := (h.heldBy hxy).left _ hz
    exact ⟨w, hzw, .held hy hw ((h.contains hzw).trans hin)⟩

/-- What the second side reaches, the first one does: no annex is among it. -/
theorem reaches_left (h : c.Twins P d) (hroots : P.Shares roots others)
    (hy : d.heap.Reaches d.engine.links others y) :
    ∃ x, Cell.Twins P x y ∧ c.heap.Reaches c.engine.links roots x := by
  induction hy with
  | root hy hin =>
    obtain ⟨x, hx, hxy⟩ := hroots.right _ hy
    exact ⟨x, hxy, .root hx ((h.contains hxy).symm.trans hin)⟩
  | held _ hw hin ih =>
    obtain ⟨x, hxy, hx⟩ := ih
    obtain ⟨z, hz, hzw⟩ := (h.heldBy hxy).right _ hw
    exact ⟨z, hzw, .held hx hz ((h.contains hzw).symm.trans hin)⟩

/-- **The same is reached** from the same roots. -/
theorem reaches_iff (h : c.Twins P d) (hroots : P.Shares roots others) (hxy : Cell.Twins P x y) :
    c.heap.Reaches c.engine.links roots x ↔ d.heap.Reaches d.engine.links others y := by
  constructor
  · intro hx
    obtain ⟨z, hxz, hz⟩ := h.reaches_right hroots hx
    rwa [h.left_unique hxy hxz]
  · intro hy
    obtain ⟨z, hzy, hz⟩ := h.reaches_left hroots hy
    rwa [h.right_unique hxy hzy]

/-! ## Pruning -/

theorem tableScopes (h : c.Twins P d) :
    P.Shares (Heap.tableScopes c.engine.links) (Heap.tableScopes d.engine.links) := by
  refine ⟨fun x hx => ?_, fun y hy => ?_⟩
  · obtain ⟨n, a, ha, rfl⟩ := Heap.mem_tableScopes.mp hx
    have hrel : Option.Rel (Association.Twins P) c.engine.links[n]? d.engine.links[n]? := h.veil.links n
    rw [ha] at hrel
    generalize hb : d.engine.links[n]? = v at hrel
    cases hrel with
    | @some _ b hab => exact ⟨_, Heap.mem_tableScopes.mpr ⟨n, b, hb, rfl⟩, .scope hab.scope⟩
  · obtain ⟨n, b, hb, rfl⟩ := Heap.mem_tableScopes.mp hy
    have hrel : Option.Rel (Association.Twins P) c.engine.links[n]? d.engine.links[n]? := h.veil.links n
    rw [hb] at hrel
    generalize ha : c.engine.links[n]? = u at hrel
    cases hrel with
    | @some a _ hab => exact ⟨_, Heap.mem_tableScopes.mpr ⟨n, a, ha, rfl⟩, .scope hab.scope⟩

theorem tableClosures (h : c.Twins P d) {id : ClosureId} :
    .closure id ∈ Heap.tableClosures c.engine.links ↔ .closure id ∈ Heap.tableClosures d.engine.links := by
  unfold Heap.tableClosures
  rw [Heap.mem_tableCells, Heap.mem_tableCells]
  constructor
  · rintro ⟨n, a, ha, hid⟩
    have hrel : Option.Rel (Association.Twins P) c.engine.links[n]? d.engine.links[n]? := h.veil.links n
    rw [ha] at hrel
    generalize hb : d.engine.links[n]? = v at hrel
    cases hrel with
    | @some _ b hab => exact ⟨n, b, hb, hid.trans (congrArg Cell.closure hab.closure.symm)⟩
  · rintro ⟨n, b, hb, hid⟩
    have hrel : Option.Rel (Association.Twins P) c.engine.links[n]? d.engine.links[n]? := h.veil.links n
    rw [hb] at hrel
    generalize ha : c.engine.links[n]? = u at hrel
    cases hrel with
    | @some a _ hab => exact ⟨n, a, ha, hid.trans (congrArg Cell.closure hab.closure)⟩

/-- What is no scope is the same as itself. -/
theorem twins_self (hx : x.isScope = false) : Cell.Twins P x x := by
  cases x with
  | object id => exact .object id
  | closure id => exact .closure id
  | native id => exact .native id
  | scope id => cases hx
  | pending id => exact .pending id

theorem onCircle_iff (h : c.Twins P d) (hxy : Cell.Twins P x y) :
    c.heap.OnCircle c.engine.links x ↔ d.heap.OnCircle d.engine.links y := by
  have hscope : y.isScope = x.isScope := by cases hxy <;> rfl
  have hback := h.reaches_iff (h.heldBy hxy) hxy
  exact ⟨fun hx => ⟨hscope.trans hx.noScope, hback.mp hx.back⟩,
    fun hy => ⟨hscope.symm.trans hy.noScope, hback.mpr hy.back⟩⟩

/-- What is there on the first side is there on the second one. -/
theorem present_right (h : c.Twins P d) (hroots : P.Shares roots others)
    (hx : c.heap.Present c.engine.links roots x) :
    ∃ y, Cell.Twins P x y ∧ d.heap.Present d.engine.links others y := by
  induction hx with
  | reached hx =>
    obtain ⟨y, hxy, hy⟩ := h.reaches_right (hroots.append h.tableScopes) hx
    exact ⟨y, hxy, .reached hy⟩
  | circle hx =>
    exact ⟨_, twins_self hx.noScope, .circle ((h.onCircle_iff (twins_self hx.noScope)).mp hx)⟩
  | held _ hz hin ih =>
    obtain ⟨y, hxy, hy⟩ := ih
    obtain ⟨w, hw, hzw⟩ := (h.heldBy hxy).left _ hz
    exact ⟨w, hzw, .held hy hw ((h.contains hzw).trans hin)⟩

/-- What is there on the second side is there on the first one. -/
theorem present_left (h : c.Twins P d) (hroots : P.Shares roots others)
    (hy : d.heap.Present d.engine.links others y) :
    ∃ x, Cell.Twins P x y ∧ c.heap.Present c.engine.links roots x := by
  induction hy with
  | reached hy =>
    obtain ⟨x, hxy, hx⟩ := h.reaches_left (hroots.append h.tableScopes) hy
    exact ⟨x, hxy, .reached hx⟩
  | circle hy =>
    exact ⟨_, twins_self hy.noScope, .circle ((h.onCircle_iff (twins_self hy.noScope)).mpr hy)⟩
  | held _ hw hin ih =>
    obtain ⟨x, hxy, hx⟩ := ih
    obtain ⟨z, hz, hzw⟩ := (h.heldBy hxy).right _ hw
    exact ⟨z, hzw, .held hx hz ((h.contains hzw).symm.trans hin)⟩

theorem inGraph_right (h : c.Twins P d) (hroots : P.Shares roots others)
    (hx : c.heap.InGraph c.engine.links roots x) :
    ∃ y, Cell.Twins P x y ∧ d.heap.InGraph d.engine.links others y := by
  induction hx with
  | scope hx hin =>
    obtain ⟨y, hy, hxy⟩ := h.tableScopes.left _ hx
    exact ⟨y, hxy, .scope hy ((h.contains hxy).trans hin)⟩
  | closure hx hin =>
    obtain ⟨n, a, -, rfl⟩ := Heap.mem_tableCells.mp hx
    obtain ⟨y, hxy, hy⟩ := h.present_right hroots hin
    cases hxy with
    | closure => exact ⟨_, .closure _, .closure (h.tableClosures.mp hx) hy⟩
  | held _ hz hin hopen ih =>
    obtain ⟨y, hxy, hy⟩ := ih
    obtain ⟨w, hw, hzw⟩ := (h.heldBy hxy).left _ hz
    exact ⟨w, hzw, .held hy hw ((h.contains hzw).trans hin) (hzw.sealed.trans hopen)⟩

theorem inGraph_left (h : c.Twins P d) (hroots : P.Shares roots others)
    (hy : d.heap.InGraph d.engine.links others y) :
    ∃ x, Cell.Twins P x y ∧ c.heap.InGraph c.engine.links roots x := by
  induction hy with
  | scope hy hin =>
    obtain ⟨x, hx, hxy⟩ := h.tableScopes.right _ hy
    exact ⟨x, hxy, .scope hx ((h.contains hxy).symm.trans hin)⟩
  | closure hy hin =>
    obtain ⟨n, a, -, rfl⟩ := Heap.mem_tableCells.mp hy
    obtain ⟨x, hxy, hx⟩ := h.present_left hroots hin
    cases hxy with
    | closure => exact ⟨_, .closure _, .closure (h.tableClosures.mpr hy) hx⟩
  | held _ hw hin hopen ih =>
    obtain ⟨x, hxy, hx⟩ := ih
    obtain ⟨z, hz, hzw⟩ := (h.heldBy hxy).right _ hw
    exact ⟨z, hzw, .held hx hz ((h.contains hzw).symm.trans hin) (hzw.sealed.symm.trans hopen)⟩

/-- **The graph behind the table is the same.** -/
theorem inGraph_iff (h : c.Twins P d) (hroots : P.Shares roots others) (hxy : Cell.Twins P x y) :
    c.heap.InGraph c.engine.links roots x ↔ d.heap.InGraph d.engine.links others y := by
  constructor
  · intro hx
    obtain ⟨z, hxz, hz⟩ := h.inGraph_right hroots hx
    rwa [h.left_unique hxy hxz]
  · intro hy
    obtain ⟨z, hzy, hz⟩ := h.inGraph_left hroots hy
    rwa [h.right_unique hxy hzy]

theorem outer (h : c.Twins P d) (hroots : P.Shares roots others) :
    P.Shares (c.heap.outer c.engine.links roots) (d.heap.outer d.engine.links others) := by
  refine ⟨fun x hx => ?_, fun y hy => ?_⟩
  · rcases (Heap.mem_outer ..).mp hx with hx | ⟨hx, hout⟩
    · obtain ⟨y, hy, hxy⟩ := hroots.left x hx
      exact ⟨y, (Heap.mem_outer ..).mpr (.inl hy), hxy⟩
    · obtain ⟨y, hxy, hy⟩ := h.present_right hroots hx
      exact ⟨y, (Heap.mem_outer ..).mpr
        (.inr ⟨hy, fun hin => hout ((h.inGraph_iff hroots hxy).mpr hin)⟩), hxy⟩
  · rcases (Heap.mem_outer ..).mp hy with hy | ⟨hy, hout⟩
    · obtain ⟨x, hx, hxy⟩ := hroots.right y hy
      exact ⟨x, (Heap.mem_outer ..).mpr (.inl hx), hxy⟩
    · obtain ⟨x, hxy, hx⟩ := h.present_left hroots hy
      exact ⟨x, (Heap.mem_outer ..).mpr
        (.inr ⟨hx, fun hin => hout ((h.inGraph_iff hroots hxy).mp hin)⟩), hxy⟩

/-- The same is held from outside. -/
theorem kept_iff (h : c.Twins P d) (hroots : P.Shares roots others) (hxy : Cell.Twins P x y) :
    c.heap.Kept c.engine.links roots x ↔ d.heap.Kept d.engine.links others y :=
  h.reaches_iff (h.outer hroots) hxy

/-- The same associations stay. -/
theorem prune_links (h : c.Twins P d) (hroots : P.Shares roots others) (n : Nat) :
    Option.Rel (Association.Twins P) (c.heap.prune c.engine.links roots).1[n]?
      (d.heap.prune d.engine.links others).1[n]? := by
  have hrel : Option.Rel (Association.Twins P) c.engine.links[n]? d.engine.links[n]? := h.veil.links n
  cases hu : (c.heap.prune c.engine.links roots).1[n]? with
  | none =>
    cases hv : (d.heap.prune d.engine.links others).1[n]? with
    | none => exact .none
    | some b =>
      obtain ⟨hb, hkept⟩ := (Heap.getElem?_prune ..).mp hv
      rw [hb] at hrel
      generalize ha : c.engine.links[n]? = u at hrel
      cases hrel with
      | @some a _ hab =>
        rw [hab.closure] at hkept
        have hstays := (Heap.getElem?_prune ..).mpr ⟨ha, (h.kept_iff hroots (.closure _)).mpr hkept⟩
        rw [hu] at hstays
        cases hstays
  | some a =>
    obtain ⟨ha, hkept⟩ := (Heap.getElem?_prune ..).mp hu
    rw [ha] at hrel
    generalize hb : d.engine.links[n]? = v at hrel
    cases hrel with
    | @some _ b hab =>
      have hkept := (h.kept_iff hroots (.closure _)).mp hkept
      rw [← hab.closure] at hkept
      rw [(Heap.getElem?_prune ..).mpr ⟨hb, hkept⟩]
      exact .some hab

/-- Scopes that are the same are both cleared, or both stay. -/
theorem prune_same (h : c.Twins P d) (hroots : P.Shares roots others) {a b : ScopeId} (hab : P.same a b) :
    ∃ f, Scope.Edits f ∧
      (c.heap.prune c.engine.links roots).2.scopes.get? a = (c.heap.scopes.get? a).map f ∧
      (d.heap.prune d.engine.links others).2.scopes.get? b = (d.heap.scopes.get? b).map f := by
  have hbehind := h.reaches_iff h.tableScopes (.scope hab)
  have hkept := h.kept_iff hroots (.scope hab)
  rcases c.heap.get?_prune c.engine.links roots a with ⟨⟨hr, hn⟩, heq⟩ | ⟨hr, heq⟩ <;>
    rcases d.heap.get?_prune d.engine.links others b with ⟨⟨hr', hn'⟩, heq'⟩ | ⟨hr', heq'⟩
  · exact ⟨_, Scope.edits_cleared, heq, heq'⟩
  · exact absurd (hkept.mpr (hr' (hbehind.mp hr))) hn
  · exact absurd (hkept.mp (hr (hbehind.mpr hr'))) hn'
  · exact ⟨id, Scope.edits_id, heq.trans Option.map_id'.symm, heq'.trans Option.map_id'.symm⟩

/-- **Pruning does the same on both sides.** -/
theorem ended (h : c.Twins P d) (hroots : ∀ a, .scope a ∈ roots → P.same a a) :
    (c.ended roots).Twins P (d.ended roots) := by
  have hshares : P.Shares roots roots := .refl hroots
  have hedited := h.veil.edit (S := (c.heap.prune c.engine.links roots).2.scopes)
    (T := (d.heap.prune d.engine.links roots).2.scopes)
    (fun {a b s t} hab hs ht => by
      obtain ⟨f, hf, hs', ht'⟩ := h.prune_same hshares hab
      refine ⟨f, hf, hs'.trans ?_, ht'.trans ?_⟩
      · rw [show c.heap.scopes.get? a = some s from hs]
        rfl
      · rw [show d.heap.scopes.get? b = some t from ht]
        rfl)
    fun {a e t} hae ht => by
      have ht : d.heap.scopes.get? e = some t := ht
      rcases d.heap.get?_prune d.engine.links roots e with ⟨-, heq⟩ | ⟨-, heq⟩
      · exact ⟨_, Scope.edits_cleared, by rw [heq, ht]; rfl⟩
      · exact ⟨id, Scope.edits_id, by rw [heq, ht]; rfl⟩
  have hveil : ∀ e : Core, (e.ended roots).veil =
      { e.veil with
        scopes := (e.heap.prune e.engine.links roots).2.scopes
        links := (e.heap.prune e.engine.links roots).1 } := fun e => by
    unfold Core.ended Core.veil
    dsimp only
    rw [Heap.closures_prune]
  refine ⟨?_, ?_⟩
  · have hheap := Heap.prune_eq d.heap d.engine.links roots
    have hheap' := Heap.prune_eq c.heap c.engine.links roots
    unfold Core.ended Core.veiled Heap.veiled Core.veil
    dsimp only
    rw [hheap, hheap', h.engine_eq]
    dsimp only
    rw [h.heap_eq]
  · rw [hveil, hveil]
    exact { hedited with links := h.prune_links hshares }

end Core.Twins

end Fermata
