import Fermata.Proofs.Act.Law
import Fermata.Proofs.Custody.Basic
import Fermata.Proofs.Realm.Sight

/-!
# Realms

A `Realm` relates two cores that an evaluation cannot tell apart: they agree on all that is in sight, and
every change that an act can make keeps that, as long as it changes only cells that may be held and puts
only values into them that may be put there. Whatever reaches out of sight is left to the realm, so one
walk through the acts serves for statements about two evaluations, which go on alike, and for statements
about one, related to itself, which leaves alone what it must not touch.

A value passes through three stages. It is met where it is read, it may be held after the checkpoint, and
it may be put where a value that is held may be put. A realm that makes no difference between the three
confines an evaluation; one that does follows pending values.

* `Realm.Delivers`: an act does the same on both cores, keeps them related and loses nothing from sight.
* `Realm.Gives`: the same, of the act. It passes through `>>=` (`Gives.bind`).
-/

namespace Fermata

open Act

/-- The engines differ at most in how their tables are laid out. -/
structure Engine.Like (e f : Engine) : Prop where
  rest : f = { e with links := f.links }
  links : e.links.Equiv f.links

/-- Nothing is lost from sight. -/
structure Sight.Widens (S T : Sight) : Prop where
  held : ∀ x, S.held x → T.held x
  stored : ∀ x, S.stored x → T.stored x
  listed : ∀ x, S.listed x → T.listed x
  met : ∀ x, S.met x → T.met x
  shown : ∀ id, S.shown id → T.shown id

namespace Sight.Widens

theorem refl (S : Sight) : S.Widens S :=
  ⟨fun _ hx => hx, fun _ hx => hx, fun _ hx => hx, fun _ hx => hx, fun _ hx => hx⟩

theorem trans {S T U : Sight} (h : S.Widens T) (h' : T.Widens U) : S.Widens U :=
  ⟨fun x hx => h'.held x (h.held x hx), fun x hx => h'.stored x (h.stored x hx),
    fun x hx => h'.listed x (h.listed x hx), fun x hx => h'.met x (h.met x hx),
    fun x hx => h'.shown x (h.shown x hx)⟩

end Sight.Widens

/-- Cores that an evaluation cannot tell apart. -/
structure Realm where
  sight : Core → Sight
  rel : Core → Core → Prop
  agree {c d} : rel c d → c.heap.Agree (sight c) d.heap
  engine {c d} : rel c d → c.engine.Like d.engine
  global {c d} : rel c d → (sight c).held (.object c.engine.global)
  methods {c d} : rel c d → (sight c).shown c.engine.arrayMethods
  /-- The scopes of the table may be held. -/
  defining {c d n s} : rel c d → c.engine.links.scope? n = some s → (sight c).held (.scope s)
  nextObject {c d} : rel c d →
    c.heap.objects.next c.engine.region = d.heap.objects.next c.engine.region
  nextClosure {c d} : rel c d →
    c.heap.closures.next c.engine.region = d.heap.closures.next c.engine.region
  nextPending {c d} : rel c d →
    c.heap.pendings.next c.engine.region = d.heap.pendings.next c.engine.region
  nextScope {c d s} : rel c d → (sight c).held (.scope s) →
    c.heap.scopes.next s.region = d.heap.scopes.next s.region
  process {c d} : rel c d → c.heap.process = d.heap.process
  object {c d o} : rel c d → o.Stores (sight c).stored →
    (∀ p, o.proto = some p → (sight c).held (.object p)) →
    rel (c.adding o) (d.adding o) ∧ (sight c).Widens (sight (c.adding o)) ∧
      (sight (c.adding o)).held (.object (c.heap.objects.next c.engine.region))
  /-- An object is changed, and gets no values but such as may be put there. -/
  edit {c d id f} : rel c d → (sight c).held (.object id) →
    (∀ P : Cell → Prop, (∀ x, (sight c).stored x → P x) → ∀ o : Object, o.Stores P → (f o).Stores P) →
    (∀ o : Object, (f o).proto = o.proto) →
    rel (c.editing id f) (d.editing id f) ∧ (sight c).Widens (sight (c.editing id f))
  console {c d} : rel c d → ∀ line,
    rel (c.withConsole (c.engine.console.push line)) (d.withConsole (d.engine.console.push line)) ∧
      (sight c).Widens (sight (c.withConsole (c.engine.console.push line)))
  pending {c d s} : rel c d → s.value.Within (sight c).stored →
    rel (c.expecting (.scheduled s)) (d.expecting (.scheduled s)) ∧
      (sight c).Widens (sight (c.expecting (.scheduled s))) ∧
      (sight (c.expecting (.scheduled s))).met (.pending (c.heap.pendings.next c.engine.region))
  binding {c d s v} : rel c d → (sight c).held (.scope s) → v.Within (sight c).stored → ∀ name,
    rel (c.storing s name v) (d.storing s name v) ∧ (sight c).Widens (sight (c.storing s name v))
  /-- A closure that could not be linked. -/
  birth {c d} : rel c d → ∀ fn u,
    rel (c.bearing fn u) (d.bearing fn u) ∧ (sight c).Widens (sight (c.bearing fn u))
  link {c d s} : rel c d → (sight c).held (.scope s) → ∀ fn u,
    rel (c.linking fn u s) (d.linking fn u s) ∧ (sight c).Widens (sight (c.linking fn u s)) ∧
      (sight (c.linking fn u s)).held (.closure (c.heap.closures.next c.engine.region))
  /-- The scope of an activation. -/
  scope {c d parent bindings this} : rel c d → (sight c).held (.scope parent) →
    (∀ b ∈ bindings, b.value.Within (sight c).stored) → this.Within (sight c).stored → ∀ owner,
    rel (c.under parent owner bindings this) (d.under parent owner bindings this) ∧
      (sight c).Widens (sight (c.under parent owner bindings this)) ∧
      (sight (c.under parent owner bindings this)).held (.scope (c.heap.scopes.next parent.region))
  /-- Whether somebody watches, and how often somebody waited. -/
  apart {c d} : rel c d → ∀ w n l,
    rel (c.apart c.heap.pendings w n l) (d.apart d.heap.pendings w n l) ∧
      (sight c).Widens (sight (c.apart c.heap.pendings w n l))
  /-- A value that settles by itself. -/
  settle {c d p s} : rel c d → (sight c).met (.pending p) → c.heap.pendings.get p = .scheduled s →
    rel (c.settle p s) (d.settle p s) ∧ (sight c).Widens (sight (c.settle p s))

namespace Realm

variable {α β : Type} {K : Realm} {c c' c'' d d' : Core}

/-- The value may be met. -/
abbrev Meets (K : Realm) (c : Core) (v : Value) : Prop := v.Within (K.sight c).met

/-- The value may be held. -/
abbrev Has (K : Realm) (c : Core) (v : Value) : Prop := v.Within (K.sight c).held

/-- A value that refers to the cell may be put into a cell. -/
abbrev stored (K : Realm) (c : Core) : Cell → Prop := (K.sight c).stored

/-- The value may be put into a cell. -/
abbrev Puts (K : Realm) (c : Core) (v : Value) : Prop := v.Within (K.stored c)

/-- The value may be an item of a loop. -/
abbrev Lists (K : Realm) (c : Core) (v : Value) : Prop := v.Within (K.sight c).listed

theorem stored_of_held {x : Cell} (hx : (K.sight c).held x) : K.stored c x :=
  (K.sight c).stored_of_held hx

theorem met_of_stored {x : Cell} (hx : K.stored c x) : (K.sight c).met x :=
  (K.sight c).met_of_stored hx

theorem puts_of_has {v : Value} (hv : K.Has c v) : K.Puts c v := hv.mono fun _ => K.stored_of_held

theorem lists_of_puts {v : Value} (hv : K.Puts c v) : K.Lists c v :=
  hv.mono fun _ => (K.sight c).listed_of_stored

theorem meets_of_puts {v : Value} (hv : K.Puts c v) : K.Meets c v := hv.mono fun _ => K.met_of_stored

theorem meets_of_has {v : Value} (hv : K.Has c v) : K.Meets c v := Sight.meets_of_has hv

/-- A thrown value may be met, one that is returned may be held. -/
def Bears (K : Realm) (c : Core) : Abrupt → Prop
  | .thrown v => K.Meets c v
  | .ret v => K.Has c v
  | _ => True

end Realm

namespace Sight.Widens

variable {K L : Realm} {c d : Core} {v : Value}

theorem has (h : (K.sight c).Widens (L.sight d)) (hv : K.Has c v) : L.Has d v := hv.mono h.held

theorem meets (h : (K.sight c).Widens (L.sight d)) (hv : K.Meets c v) : L.Meets d v := hv.mono h.met

theorem puts (h : (K.sight c).Widens (L.sight d)) (hv : K.Puts c v) : L.Puts d v := hv.mono h.stored

theorem lists (h : (K.sight c).Widens (L.sight d)) (hv : K.Lists c v) : L.Lists d v :=
  hv.mono h.listed

theorem bears {x : Abrupt} (h : (K.sight c).Widens (L.sight d)) (hx : K.Bears c x) : L.Bears d x := by
  cases x with
  | thrown v => exact h.meets hx
  | ret v => exact h.has hx
  | _ => exact hx

end Sight.Widens

namespace Realm

variable {α β : Type} {K : Realm} {c c' c'' d d' : Core}

/-- Nothing is lost from sight, and whoever watches still does. -/
structure Later (K : Realm) (c d : Core) : Prop extends (K.sight c).Widens (K.sight d) where
  watch : d.engine.watch = c.engine.watch

namespace Later

theorem refl (c : Core) : K.Later c c :=
  ⟨.refl _, rfl⟩

theorem trans (h : K.Later c c') (h' : K.Later c' c'') : K.Later c c'' :=
  ⟨h.toWidens.trans h'.toWidens, h'.watch.trans h.watch⟩

end Later

/-- Both cores came to the same, are related still, and lost nothing from sight. What is given has `Q`,
and a transfer of control bears what it may. -/
inductive Delivers (K : Realm) (Q : Core → α → Prop) (c : Core) :
    EStateM.Result Abrupt Core α → EStateM.Result Abrupt Core α → Prop
  | ok {a c' d'} : K.rel c' d' → K.Later c c' → Q c' a → Delivers K Q c (.ok a c') (.ok a d')
  | error {x c' d'} : K.rel c' d' → K.Later c c' → K.Bears c' x →
      Delivers K Q c (.error x c') (.error x d')

/-- The act does the same on both cores. -/
abbrev Gives (K : Realm) (Q : Core → α → Prop) (p : Act α) (c d : Core) : Prop :=
  K.Delivers Q c (p c) (p d)

/-- The act gives a value that may be met. -/
abbrev GivesMet (K : Realm) (p : Act Value) (c d : Core) : Prop := K.Gives K.Meets p c d

/-- The act gives a value that may be held. -/
abbrev GivesHeld (K : Realm) (p : Act Value) (c d : Core) : Prop := K.Gives K.Has p c d

/-- The act gives nothing that has to be in sight. -/
abbrev Runs (K : Realm) (p : Act α) (c d : Core) : Prop := K.Gives (fun _ _ => True) p c d

/-! ## Composition -/

variable {Q Q' : Core → α → Prop} {T : Core → β → Prop}

theorem Gives.pure {a : α} (h : K.rel c d) (hQ : Q c a) : K.Gives Q (Pure.pure a : Act α) c d :=
  .ok h (.refl c) hQ

theorem Gives.throw {x : Abrupt} (h : K.rel c d) (hx : K.Bears c x) :
    K.Gives Q (throw x : Act α) c d :=
  .error h (.refl c) hx

theorem Delivers.since {r t : EStateM.Result Abrupt Core α} (hl : K.Later c c')
    (hr : K.Delivers Q c' r t) : K.Delivers Q c r t := by
  cases hr with
  | ok h hl' hQ => exact .ok h (hl.trans hl') hQ
  | error h hl' hx => exact .error h (hl.trans hl') hx

theorem Gives.bind {p : Act α} {q : α → Act β} (hp : K.Gives Q p c d)
    (hq : ∀ a c' d', K.rel c' d' → K.Later c c' → Q c' a → K.Gives T (q a) c' d') :
    K.Gives T (p >>= q) c d := by
  unfold Gives at hp ⊢
  simp only [Bind.bind, EStateM.bind]
  generalize p c = r at hp
  generalize p d = t at hp
  cases hp with
  | ok h hl hQ => exact (hq _ _ _ h hl hQ).since hl
  | error h hl hx => exact .error h hl hx

theorem Gives.weaken {p : Act α} (hp : K.Gives Q p c d) (hQ : ∀ c a, Q c a → Q' c a) :
    K.Gives Q' p c d := by
  unfold Gives at hp ⊢
  generalize p c = r at hp
  generalize p d = t at hp
  cases hp with
  | ok h hl hq => exact .ok h hl (hQ _ _ hq)
  | error h hl hx => exact .error h hl hx

/-- Both cores read the same. -/
theorem Gives.reading {g : Heap → α} {q : α → Act β} (hg : g c.heap = g d.heap)
    (hq : K.Gives T (q (g c.heap)) c d) : K.Gives T (Act.reads g >>= q) c d := by
  unfold Gives at hq ⊢
  rw [reads_bind, reads_bind, ← hg]
  exact hq

/-- Both cores give the same that is read. -/
theorem Gives.reads {g : Heap → α} (h : K.rel c d) (hg : g c.heap = g d.heap)
    (hQ : Q c (g c.heap)) : K.Gives Q (Act.reads g) c d := by
  have hd : Act.reads g d = .ok (g c.heap) d := by
    rw [hg]
    rfl
  unfold Gives
  rw [hd]
  exact .ok h (.refl c) hQ

/-- What is made in both heaps, with the same result. -/
theorem Gives.making {g : Heap → Nat → α × Heap} {a : α}
    (hrel : K.rel { c with heap := (g c.heap c.engine.region).2 }
      { d with heap := (g d.heap d.engine.region).2 })
    (hl : K.Later c { c with heap := (g c.heap c.engine.region).2 })
    (hc : (g c.heap c.engine.region).1 = a) (hd : (g d.heap d.engine.region).1 = a)
    (hQ : Q { c with heap := (g c.heap c.engine.region).2 } a) :
    K.Gives Q (Act.making g) c d := by
  have hmade : ∀ e : Core, Act.making g e = .ok (g e.heap e.engine.region).1
      { e with heap := (g e.heap e.engine.region).2 } := fun _ => rfl
  unfold Gives
  rw [hmade, hmade, hc, hd]
  exact .ok hrel hl hQ

theorem region (h : K.rel c d) : c.engine.region = d.engine.region := by
  rw [(K.engine h).rest]

end Realm

end Fermata
