import Fermata.Proofs.Act.Step
import Fermata.Proofs.Machine.Running
import Fermata.Proofs.Prune.Effect

/-!
# Twins and how they are driven

Two cores that differ only in waiting: some pending values are unsettled in the first one and carry
their settlements in the second one already. Everything an evaluation does outside of a checkpoint, it
does alike on both (`twinLaw`).

Two drives of one machine on twins go in step until the first one meets a value that is settled for
the second one only. There the first one parks, and the second one stands at the checkpoint of that
value; once the value is settled for the first one as well, both go on from the same machine.

* `Ahead`: the pending values of the second core are ahead of those of the first.
* `Ahead.kept`: what is held from outside of the first core is held from outside of the second one,
  and the other way round if the settlements themselves are held from outside (`Ahead.kept_iff`).
* `Machine.step_checkpoint_settled`, `Machine.step_checkpoint_unsettled`: what a checkpoint does.
* `Core.Pace`: where two drives stand after the same number of steps.
* `Core.drive_pace`: two drives keep pace.
-/

namespace Fermata

variable {ps qs : List PendingId} {σ : PendingId → Settlement}

/-- The values `ps` are settled by `σ` in the second store. Those of `qs` may still be unsettled in
the first one; all other values are the same. -/
structure Ahead (ps qs : List PendingId) (σ : PendingId → Settlement)
    (S T : Store .pending Pending) : Prop where
  next : ∀ region, T.next region = S.next region
  settled : ∀ p ∈ ps, T.get? p = some (.settled (σ p))
  early : ∀ p, S.get? p = T.get? p ∨ p ∈ qs ∧ S.get? p = some .unsettled
  late : ∀ p ∈ qs, p ∈ ps

namespace Ahead

variable {S T : Store .pending Pending}

theorem push (h : Ahead ps qs σ S T) (region : Nat) (x : Pending) :
    Ahead ps qs σ (S.push region x) (T.push region x) where
  next q := by rw [Store.next_push, Store.next_push, h.next, h.next]
  settled p hp := by
    rw [Store.get?_push, h.settled p hp, if_neg]
    intro hn
    have hfree := T.get?_next region
    rw [← hn, h.settled p hp] at hfree
    cases hfree
  early p := by
    rw [Store.get?_push, Store.get?_push, h.next]
    split
    · exact .inl rfl
    · exact h.early p
  late := h.late

/-- Settling alike on both sides a value that is not ahead. -/
theorem settle (h : Ahead ps qs σ S T) {p : PendingId} (hp : p ∉ ps) (s : Settlement) :
    Ahead ps qs σ (S.modify p (·.settle s)) (T.modify p (·.settle s)) where
  next q := by rw [Store.next_modify, Store.next_modify, h.next]
  settled q hq := by
    rw [Store.get?_modify, h.settled q hq, if_neg]
    exact fun hqp => hp (hqp ▸ hq)
  early q := by
    rw [Store.get?_modify, Store.get?_modify]
    by_cases hqp : q = p
    · rw [if_pos hqp, if_pos hqp]
      have hq : q ∉ qs := fun hq => hp (hqp ▸ h.late q hq)
      exact .inl (congrArg _ ((h.early q).resolve_right fun he => hq he.1))
    · rw [if_neg hqp, if_neg hqp]
      exact h.early q
  late := h.late

/-- Settling on the first side what is settled on the second. -/
theorem catchUp (h : Ahead ps qs σ S T) {p : PendingId} (hp : p ∈ ps) :
    Ahead ps (qs.filter (· ≠ p)) σ (S.modify p (·.settle (σ p))) T where
  next q := by rw [Store.next_modify, h.next]
  settled := h.settled
  early q := by
    rw [Store.get?_modify]
    by_cases hqp : q = p
    · subst hqp
      rw [if_pos rfl, h.settled q hp]
      rcases h.early q with hq | ⟨-, hq⟩
      · rw [hq, h.settled q hp]
        exact .inl rfl
      · rw [hq]
        exact .inl rfl
    · rw [if_neg hqp]
      refine (h.early q).imp_right fun he => ⟨?_, he.2⟩
      exact List.mem_filter.mpr ⟨he.1, decide_eq_true hqp⟩
  late q hq := h.late q (List.mem_filter.mp hq).1

end Ahead

/-- Two cores that differ only in waiting. -/
def Twin (ps qs : List PendingId) (σ : PendingId → Settlement) (c d : Core) : Prop :=
  ∃ P w n l, d = c.apart P w n l ∧ Ahead ps qs σ c.heap.pendings P

/-- What an evaluation rests on: what its engine holds, and the activations below. -/
structure Footing where
  own : List Cell
  below : List StackPosition

/-- What an evaluation of this engine rests on. -/
def Engine.footing (e : Engine) : Footing := ⟨e.own, e.below⟩

/-- Twins stay twins while somebody watches both, and rest on the same. -/
def twinLaw (ps qs : List PendingId) (σ : PendingId → Settlement) (ft : Footing) : Law where
  rel _ c d :=
    Twin ps qs σ c d ∧ c.engine.watch = .armed ∧ d.engine.watch = .armed ∧ c.engine.footing = ft
  apart := fun ⟨⟨P, w, n, l, hd, _⟩, _⟩ => ⟨P, w, n, l, hd⟩
  next := by
    rintro fs c d ⟨⟨P, w, n, l, rfl, ha⟩, -⟩
    exact ha.next
  objects := by
    rintro fs c d ⟨⟨P, w, n, l, rfl, ha⟩, hrest⟩ S
    exact ⟨⟨P, w, n, l, rfl, ha⟩, hrest⟩
  console := by
    rintro fs c d ⟨⟨P, w, n, l, rfl, ha⟩, hrest⟩ lines
    exact ⟨⟨P, w, n, l, rfl, ha⟩, hrest⟩
  pending := by
    rintro fs c d ⟨⟨P, w, n, l, rfl, ha⟩, hrest⟩ s
    exact ⟨⟨_, w, n, l, rfl, ha.push _ _⟩, hrest⟩
  binding := by
    rintro fs c d ⟨⟨P, w, n, l, rfl, ha⟩, hrest⟩ scope name v
    exact ⟨⟨P, w, n, l, rfl, ha⟩, hrest⟩
  birth := by
    rintro f fs c d node fn ⟨⟨P, w, n, l, rfl, ha⟩, hrest⟩ -
    exact ⟨⟨P, w, n, l, rfl, ha⟩, hrest⟩
  link := by
    rintro f fs c d node fn r next ⟨⟨P, w, n, l, rfl, ha⟩, hrest⟩ - - -
    exact ⟨⟨P, w, n, l, rfl, ha⟩, hrest⟩
  capture := by
    rintro fs c d r defining bindings this id ⟨⟨P, w, n, l, rfl, ha⟩, hrest⟩ - - - - -
    exact ⟨⟨P, w, n, l, rfl, ha⟩, hrest⟩
  share := by
    rintro fs c d r defining id h - - - -
    exact h
  code := by
    rintro f fs c d source unit h - -
    exact h
  mark h _ := h
  close h := h

/-! ## What twins hold -/

namespace Ahead

/-- A value that is settled on the second side does not settle by itself on the first one. -/
theorem not_scheduled {S T : Store .pending Pending} (ha : Ahead ps qs σ S T) {p : PendingId}
    (hp : p ∈ ps) (s : Settlement) : S.get p ≠ .scheduled s := by
  intro hs
  rcases ha.early p with heq | ⟨-, hun⟩
  · rw [Store.get, heq, ha.settled p hp] at hs
    cases hs
  · rw [Store.get, hun] at hs
    cases hs

variable {h : Heap} {P : Store .pending Pending} {links : Links} {roots : List Cell}

theorem contains (ha : Ahead ps qs σ h.pendings P) (c : Cell) :
    (h.awaiting P).contains c = h.contains c := by
  cases c with
  | pending p =>
    change (P.get? p).isSome = (h.pendings.get? p).isSome
    rcases ha.early p with heq | ⟨hp, hun⟩
    · rw [heq]
    · rw [hun, ha.settled p (ha.late p hp)]
      rfl
  | _ => rfl

theorem heldBy (ha : Ahead ps qs σ h.pendings P) {c d : Cell} (hd : d ∈ h.heldBy links c) :
    d ∈ (h.awaiting P).heldBy links c := by
  cases c with
  | pending p =>
    rcases ha.early p with heq | ⟨-, hun⟩
    · simpa only [Heap.heldBy, Store.get, heq, Heap.pendings_awaiting] using hd
    · simp only [Heap.heldBy, Store.get, hun] at hd
      exact absurd hd List.not_mem_nil
  | _ => exact hd

/-- What is held on the second side alone is held by a pending value, and is a settlement. -/
theorem heldBy_late (ha : Ahead ps qs σ h.pendings P) {c d : Cell}
    (hd : d ∈ (h.awaiting P).heldBy links c) :
    d ∈ h.heldBy links c ∨ c.isSealed ∧ ∃ p ∈ ps, d ∈ Cell.ofValues [(σ p).value] := by
  cases c with
  | pending p =>
    rcases ha.early p with heq | ⟨hp, -⟩
    · left
      simpa only [Heap.heldBy, Store.get, heq, Heap.pendings_awaiting] using hd
    · refine .inr ⟨rfl, p, ha.late p hp, ?_⟩
      simpa only [Heap.heldBy, Store.get, Heap.pendings_awaiting,
        ha.settled p (ha.late p hp), Option.getD_some, Pending.held] using hd
  | _ => exact .inl hd

theorem reaches (ha : Ahead ps qs σ h.pendings P) {c : Cell} (hc : h.Reaches links roots c) :
    (h.awaiting P).Reaches links roots c :=
  hc.mono (fun c hin => ha.contains c ▸ hin) (fun c hc hin => .root hc (ha.contains c ▸ hin))
    fun _ _ _ => ha.heldBy

/-- What is reached on the second side is reached on the first one, from roots that reach the
settlements. -/
theorem reaches_late (ha : Ahead ps qs σ h.pendings P) {sroots : List Cell}
    (hroots : ∀ c ∈ sroots, h.contains c → h.Reaches links roots c)
    (hσ : ∀ p ∈ ps, ∀ c ∈ Cell.ofValues [(σ p).value], h.contains c → h.Reaches links roots c)
    {c : Cell} (hc : (h.awaiting P).Reaches links sroots c) : h.Reaches links roots c := by
  induction hc with
  | root hc hin => exact hroots _ hc (ha.contains _ ▸ hin)
  | held _ hd hin ih =>
    rw [ha.contains] at hin
    rcases ha.heldBy_late hd with hd | ⟨-, p, hp, hd⟩
    · exact .held ih hd hin
    · exact hσ p hp _ hd hin

/-- What is reached on the second side alone is behind a pending value there. -/
theorem reaches_or_sealed (ha : Ahead ps qs σ h.pendings P) {c : Cell}
    (hc : (h.awaiting P).Reaches links roots c) :
    h.Reaches links roots c ∨ ∃ e, e.isSealed ∧ (h.awaiting P).Reaches links roots e ∧
      (h.awaiting P).Reaches links [e] c := by
  induction hc with
  | root hc hin => exact .inl (.root hc (ha.contains _ ▸ hin))
  | held hc hd hin ih =>
    rcases ih with ih | ⟨e, hs, he, ih⟩
    · rcases ha.heldBy_late hd with hd | ⟨hs, -⟩
      · exact .inl (.held ih hd (ha.contains _ ▸ hin))
      · exact .inr ⟨_, hs, hc, .held (.root List.mem_cons_self hc.contains) hd hin⟩
    · exact .inr ⟨e, hs, he, .held ih hd hin⟩

/-! ### What is there -/

/-- What is there on the first side is there on the second one. -/
theorem present (ha : Ahead ps qs σ h.pendings P) {c : Cell} (hc : h.Present links roots c) :
    (h.awaiting P).Present links roots c := by
  induction hc with
  | reached hc => exact .reached (ha.reaches hc)
  | circle hc =>
    exact .circle ⟨hc.noScope, (ha.reaches hc.back).trans fun _ hd hin => .root (ha.heldBy hd) hin⟩
  | held _ hd hin ih => exact .held ih (ha.heldBy hd) (ha.contains _ ▸ hin)

/-- What is there on the second side alone is behind a pending value, so it is held from outside. -/
theorem present_or_kept (ha : Ahead ps qs σ h.pendings P) {c : Cell}
    (hc : (h.awaiting P).Present links roots c) :
    h.Present links roots c ∨ (h.awaiting P).Kept links roots c := by
  have hbehind : ∀ e, e.isSealed → (h.awaiting P).Present links roots e → ∀ d,
      (h.awaiting P).Reaches links [e] d → (h.awaiting P).Kept links roots d := by
    intro e hs he d hd
    exact hd.trans fun x hx _ => List.mem_singleton.mp hx ▸ he.kept_sealed hs
  induction hc with
  | reached hc =>
    rcases ha.reaches_or_sealed hc with hc | ⟨e, hs, he, hc⟩
    · exact .inl (.reached hc)
    · exact .inr (hbehind e hs (.reached he) _ hc)
  | @circle c hc =>
    have hthere : (h.awaiting P).Present links roots c := .circle hc
    by_cases hs : c.isSealed
    · exact .inr (hthere.kept_sealed hs)
    · rcases ha.reaches_or_sealed hc.back with hback | ⟨e, hs, he, hc⟩
      · refine .inl (.circle ⟨hc.noScope, hback.trans fun d hd hin => .root ?_ hin⟩)
        exact (ha.heldBy_late hd).resolve_right fun hlate => hs hlate.1
      · exact .inr (hbehind e hs (hthere.reaches (he.of_heldBy hthere.contains)) _ hc)
  | held hc hd hin ih =>
    rcases ih with ih | ih
    · rcases ha.heldBy_late hd with hd | ⟨hs, -⟩
      · exact .inl (.held ih hd (ha.contains _ ▸ hin))
      · exact .inr (.held (hc.kept_sealed hs) hd hin)
    · exact .inr (.held ih hd hin)

theorem inGraph (ha : Ahead ps qs σ h.pendings P) {c : Cell} (hc : h.InGraph links roots c) :
    (h.awaiting P).InGraph links roots c := by
  induction hc with
  | scope hc hin => exact .scope hc (ha.contains _ ▸ hin)
  | closure hc hin => exact .closure hc (ha.present hin)
  | held _ hd hin hopen ih => exact .held ih (ha.heldBy hd) (ha.contains _ ▸ hin) hopen

/-- What is in the graph of the second side alone is held from outside there. -/
theorem inGraph_or_kept (ha : Ahead ps qs σ h.pendings P) {c : Cell}
    (hc : (h.awaiting P).InGraph links roots c) :
    h.InGraph links roots c ∨ (h.awaiting P).Kept links roots c := by
  induction hc with
  | scope hc hin => exact .inl (.scope hc (ha.contains _ ▸ hin))
  | closure hc hin => exact (ha.present_or_kept hin).imp_left (.closure hc)
  | held hc hd hin hopen ih =>
    refine ih.imp (fun ih => ?_) fun ih => .held ih hd hin
    have hfirst := (ha.heldBy_late hd).resolve_right fun hlate => by
      rw [hc.not_sealed] at hlate
      cases hlate.1
    exact .held ih hfirst (ha.contains _ ▸ hin) hopen

/-- What is held from outside on the first side is held from outside on the second one. -/
theorem kept (ha : Ahead ps qs σ h.pendings P) {c : Cell} (hc : h.Kept links roots c) :
    (h.awaiting P).Kept links roots c := by
  refine hc.mono (fun c hin => ha.contains c ▸ hin) (fun c hc hin => ?_) fun _ _ _ => ha.heldBy
  rw [← ha.contains] at hin
  rcases (h.mem_outer links roots c).mp hc with hc | ⟨hc, hout⟩
  · exact .root (((h.awaiting P).mem_outer links roots c).mpr (.inl hc)) hin
  · rcases (ha.present hc).kept_or_inGraph with hkept | hgraph
    · exact hkept
    · exact (ha.inGraph_or_kept hgraph).resolve_left hout

/-- If the settlements are held from outside, the same is there on both sides. -/
theorem present_all (ha : Ahead ps qs σ h.pendings P)
    (hσ : ∀ p ∈ ps, ∀ c ∈ Cell.ofValues [(σ p).value], c ∈ roots) {c : Cell}
    (hc : (h.awaiting P).Present links roots c) : h.Present links roots c := by
  have hroot : ∀ p ∈ ps, ∀ d ∈ Cell.ofValues [(σ p).value], h.contains d →
      h.Present links roots d := fun p hp d hd hin =>
    .reached (.root (List.mem_append_left _ (hσ p hp d hd)) hin)
  have hreaches : ∀ rs ss : List Cell,
      (∀ d ∈ rs, d ∈ ss ∨ ∃ p ∈ ps, d ∈ Cell.ofValues [(σ p).value]) → ∀ d,
      (h.awaiting P).Reaches links rs d → h.Reaches links ss d ∨ h.Present links roots d := by
    intro rs ss hrs d hd
    induction hd with
    | root hd hin =>
      rw [ha.contains] at hin
      exact (hrs _ hd).imp (.root · hin) fun ⟨p, hp, hd⟩ => hroot p hp _ hd hin
    | held _ hd hin ih =>
      rw [ha.contains] at hin
      rcases ha.heldBy_late hd with hd | ⟨-, p, hp, hd⟩
      · exact ih.imp (.held · hd hin) (.held · hd hin)
      · exact .inr (hroot p hp _ hd hin)
  induction hc with
  | reached hc => exact (hreaches _ _ (fun _ hd => .inl hd) _ hc).elim .reached id
  | circle hc =>
    have hback := hreaches _ _ (fun _ hd => (ha.heldBy_late hd).imp_right And.right) _ hc.back
    exact hback.elim (fun hback => .circle ⟨hc.noScope, hback⟩) id
  | held _ hd hin ih =>
    rw [ha.contains] at hin
    rcases ha.heldBy_late hd with hd | ⟨-, p, hp, hd⟩
    · exact .held ih hd hin
    · exact hroot p hp _ hd hin

/-- If the settlements are held from outside, the same is held from outside on both sides. -/
theorem kept_iff (ha : Ahead ps qs σ h.pendings P)
    (hσ : ∀ p ∈ ps, ∀ c ∈ Cell.ofValues [(σ p).value], c ∈ roots) (c : Cell) :
    (h.awaiting P).Kept links roots c ↔ h.Kept links roots c := by
  refine ⟨fun hc => ha.reaches_late (fun c hc hin => .root ?_ hin) (fun p hp c hc hin => ?_) hc, ha.kept⟩
  · rw [Heap.mem_outer] at hc ⊢
    exact hc.imp_right fun ⟨hc, hout⟩ => ⟨ha.present_all hσ hc, fun hin => hout (ha.inGraph hin)⟩
  · exact .root ((h.mem_outer links roots c).mpr (.inl (hσ p hp c hc))) hin

/-- A scope that is held from outside on the first side is the same on both sides after pruning. -/
theorem get?_prune (ha : Ahead ps qs σ h.pendings P) {id : ScopeId}
    (hc : h.Kept links roots (.scope id)) :
    ((h.awaiting P).prune links roots).2.scopes.get? id =
      (h.prune links roots).2.scopes.get? id := by
  rw [Heap.get?_prune_kept hc, Heap.get?_prune_kept (ha.kept hc)]
  rfl

/-- If the settlements are held from outside, pruning does the same to both sides. -/
theorem get?_prune_all (ha : Ahead ps qs σ h.pendings P)
    (hσ : ∀ p ∈ ps, ∀ c ∈ Cell.ofValues [(σ p).value], c ∈ roots) (id : ScopeId) :
    ((h.awaiting P).prune links roots).2.scopes.get? id =
      (h.prune links roots).2.scopes.get? id := by
  rcases h.get?_prune links roots id with ⟨⟨hr, hn⟩, heq⟩ | ⟨hr, heq⟩ <;>
    rcases (h.awaiting P).get?_prune links roots id with ⟨⟨hr', hn'⟩, heq'⟩ | ⟨hr', heq'⟩
  · rw [heq, heq']
    rfl
  · exact absurd ((ha.kept_iff hσ _).mp (hr' (ha.reaches hr))) hn
  · -- behind the table on the second side alone: behind a settlement, so held from outside
    have hboth : h.Reaches links (Heap.tableScopes links ++ roots) (.scope id) :=
      ha.reaches_late (fun c hc hin => .root (List.mem_append_left _ hc) hin)
        (fun p hp c hc hin => .root (List.mem_append_right _ (hσ p hp c hc)) hin) hr'
    have hkept : h.Kept links roots (.scope id) := hboth.append.elim hr Heap.Reaches.kept
    exact absurd (ha.kept hkept) hn'
  · rw [heq, heq']
    rfl

theorem prune_links_all (ha : Ahead ps qs σ h.pendings P)
    (hσ : ∀ p ∈ ps, ∀ c ∈ Cell.ofValues [(σ p).value], c ∈ roots) :
    ((h.awaiting P).prune links roots).1 = (h.prune links roots).1 := by
  have hsame : ∀ c, ((h.awaiting P).reach links ((h.awaiting P).outer links roots)).contains c =
      (h.reach links (h.outer links roots)).contains c := by
    intro c
    rw [Bool.eq_iff_iff, Std.TreeSet.contains_iff_mem, Std.TreeSet.contains_iff_mem,
      Heap.mem_reach, Heap.mem_reach]
    exact ha.kept_iff hσ c
  simp only [Heap.prune, hsame]

/-- A closure that is held from outside on the first side has the same scope on both sides. -/
theorem definingScope?_prune (ha : Ahead ps qs σ h.pendings P) {id : ClosureId}
    (hc : h.Kept links roots (.closure id)) :
    ((h.awaiting P).prune links roots).1.definingScope? ((h.awaiting P).prune links roots).2 id =
      (h.prune links roots).1.definingScope? (h.prune links roots).2 id := by
  refine Option.ext fun scope => ?_
  rw [Heap.definingScope?_prune, Heap.definingScope?_prune]
  exact and_congr Iff.rfl (iff_of_true (ha.kept hc) hc)

theorem shows_prune (P : Store .pending Pending) :
    (h.prune links roots).2.Shows ((h.awaiting P).prune links roots).2 := by
  have hfirst := h.prune_eq links roots
  have hsecond := (h.awaiting P).prune_eq links roots
  exact ⟨(congrArg Heap.objects hsecond).trans (congrArg Heap.objects hfirst).symm,
    (congrArg Heap.closures hsecond).trans (congrArg Heap.closures hfirst).symm,
    (congrArg Heap.natives hsecond).trans (congrArg Heap.natives hfirst).symm,
    (congrArg Heap.numbers hsecond).trans (congrArg Heap.numbers hfirst).symm⟩

end Ahead

/-! ## Checkpoints -/

variable {ft : Footing}

namespace Machine

theorem step_checkpoint_settled {c : Core} {p : PendingId} {s : Settlement} (a : Activation)
    (callers : List Activation) (hs : (c.heap.pendings.get p).settlement? = some s) :
    step ⟨.checkpoint (.pending p), a :: callers⟩ c =
      (.running ⟨s.control, a :: callers⟩, c) := by
  cases s with
  | fulfilled w =>
    have hpass : Act.pass (.pending p) c = .ok (.checkpoint w) c := by
      unfold Act.pass
      dsimp only
      rw [Act.reads_bind, hs]
      rfl
    simp only [step, hpass, Settlement.control]
  | rejected reason =>
    have hpass : Act.pass (.pending p) c = .error (.thrown reason) c := by
      unfold Act.pass
      dsimp only
      rw [Act.reads_bind, hs]
      rfl
    simp only [step, hpass, Settlement.control]

theorem step_checkpoint_unsettled {c : Core} {p : PendingId} (a : Activation)
    (callers : List Activation) (hs : (c.heap.pendings.get p).settlement? = none)
    (hw : c.engine.watch = .armed) :
    step ⟨.checkpoint (.pending p), a :: callers⟩ c =
      (.parked ⟨.waiting p, a :: callers⟩ p, c.watching .triggered) := by
  have htouch : Act.touch c = .ok .suspended (c.watching .triggered) := by
    change EStateM.Result.ok c.engine.watch.touch.1 (c.watching c.engine.watch.touch.2) = _
    rw [hw]
    rfl
  have hpass : Act.pass (.pending p) c = .ok (.waiting p) (c.watching .triggered) := by
    unfold Act.pass
    dsimp only
    rw [Act.reads_bind, hs]
    simp only [Bind.bind, EStateM.bind, htouch]
    rfl
  simp only [step, hpass]

/-- A placed machine parks at the checkpoint of a pending value only. -/
theorem control_of_parked {A : Atlas} {m m' : Machine} {c c' : Core} {p : PendingId}
    (hm : m.Placed A) (hp : m.step c = (.parked m' p, c')) :
    m.control = .checkpoint (.pending p) := by
  have hperform : ∀ a callers act, perform a callers act c ≠ (.parked m' p, c') := by
    intro a callers act heq
    unfold perform at heq
    split at heq <;> cases heq
  obtain ⟨control, stack⟩ := m
  unfold step at hp
  cases stack with
  | nil => cases control <;> cases hp
  | cons a callers =>
    cases control with
    | eval e => exact absurd hp (hperform _ _ _)
    | exec t labels => exact absurd hp (hperform _ _ _)
    | waiting q => exact hm.2.elim
    | checkpoint v =>
      have hpass := Atlas.pass_ends v c trivial
      dsimp only at hp
      generalize Act.pass v c = r at hpass hp
      cases hpass with
      | ok hgo =>
        rcases hgo with ⟨q, rfl, rfl⟩ | ⟨w, rfl⟩ | ⟨w, rfl⟩ <;> cases hp
        rfl
      | error hx => cases hp
    | value v =>
      dsimp only at hp
      split at hp
      · cases hp
      · exact absurd hp (hperform _ _ _)
    | abrupt x =>
      dsimp only at hp
      split at hp
      · cases hp
      · exact absurd hp (hperform _ _ _)

end Machine

/-! ## Two drives -/

namespace Core

/-- Where a drive of `m` from `d` stands when a drive of as many steps from a twin has stopped. -/
inductive Pace (ps qs : List PendingId) (σ : PendingId → Settlement) (ft : Footing) (n : Nat)
    (m : Machine) (d : Core) : Stop × Core → Prop
  | done {outcome c' d'} : d.drive n m = (.done outcome, d') → Twin ps qs σ c' d' →
      c'.engine.footing = ft → Pace ps qs σ ft n m d (.done outcome, c')
  | outOfFuel {m' m'' c' d'} : d.drive n m = (.outOfFuel m'', d') →
      Pace ps qs σ ft n m d (.outOfFuel m', c')
  /-- Both wait for a value that neither of them has. -/
  | stuck {m' p c' d'} : d.drive n m = (.parked m' p, d') → p ∉ ps →
      (c'.heap.pendings.get p).settlement? = none →
      c'.heap.Unready p → Pace ps qs σ ft n m d (.parked m' p, c')
  /-- The first one waits, the second one stands at the checkpoint of the same value. -/
  | waits {m' p c' d' k} : k < n →
      (∀ j, d.drive (k + j) m = d'.drive j { m' with control := .checkpoint (.pending p) }) →
      m'.Parked .any p → p ∈ qs → Twin ps qs σ c' d' → d'.engine.watch = .armed →
      c'.engine.footing = ft → Pace ps qs σ ft n m d (.parked m' p, c')

variable {n : Nat} {m : Machine} {c d : Core}

/-- One step ahead of the second drive. -/
theorem Pace.step {m' : Machine} {d' : Core} {r : Stop × Core}
    (hdrive : ∀ j, d.drive (j + 1) m = d'.drive j m') (h : Pace ps qs σ ft n m' d' r) :
    Pace ps qs σ ft (n + 1) m d r := by
  cases h with
  | done hend htwin hft => exact .done ((hdrive n).trans hend) htwin hft
  | outOfFuel hend => exact .outOfFuel ((hdrive n).trans hend)
  | stuck hend hp hs hripe => exact .stuck ((hdrive n).trans hend) hp hs hripe
  | waits hk hrest hm hp htwin hw hft =>
    refine .waits (Nat.succ_lt_succ hk) (fun j => ?_) hm hp htwin hw hft
    rw [Nat.succ_add, hdrive]
    exact hrest j

/-! ### Drives that stand at a checkpoint -/

section Checkpoint

variable {p : PendingId} {s : Settlement} {a : Activation} {callers : List Activation}

/-- The core after the touch of an unsettled value, with the suspension recorded. -/
def parking (c : Core) (p : PendingId) (stack : List Activation) : Core :=
  (c.watching .triggered).record (c.suspension ⟨.waiting p, stack⟩ p)

theorem drive_settled (hs : (d.heap.pendings.get p).settlement? = some s) (j : Nat) :
    d.drive (j + 1) ⟨.checkpoint (.pending p), a :: callers⟩ =
      d.drive j ⟨s.control, a :: callers⟩ :=
  drive_running (Machine.step_checkpoint_settled a callers hs) j

/-- A value that nothing settles right there leaves the evaluation parked. -/
theorem drive_waiting (hs : (d.heap.pendings.get p).settlement? = none)
    (hripe : d.heap.Unready p)
    (hw : d.engine.watch = .armed) (j : Nat) :
    d.drive (j + 1) ⟨.checkpoint (.pending p), a :: callers⟩ =
      (.parked ⟨.waiting p, a :: callers⟩ p, d.parking p (a :: callers)) :=
  drive_parked (Machine.step_checkpoint_unsettled a callers hs hw) hripe j

/-- A value that is ready to settle by itself is settled when it is met. -/
theorem drive_scheduled (hs : d.heap.pendings.get p = .scheduled s)
    (hripe : d.heap.process.ripe p = true) (hw : d.engine.watch = .armed) (j : Nat) :
    d.drive (j + 1) ⟨.checkpoint (.pending p), a :: callers⟩ =
      (((d.parking p (a :: callers)).settle p s).watching .armed).drive j
        ⟨s.control, a :: callers⟩ := by
  have hnone : (d.heap.pendings.get p).settlement? = none := by rw [hs]; rfl
  exact drive_ready (Machine.step_checkpoint_unsettled a callers hnone hw) hs hripe
    (Machine.resume_waiting rfl s) j

/-- Twins at the same checkpoint: they go on alike, wait alike, or the first one waits. -/
theorem pace_checkpoint (hstack : Atlas.any.Holds (a :: callers))
    (h : (twinLaw ps qs σ ft).rel (a.frame :: callers.map Activation.frame) c d)
    (ih : ∀ (m : Machine) (c d : Core), (twinLaw ps qs σ ft).rel m.frames c d → m.Placed .any →
      Pace ps qs σ ft n m d (c.drive n m)) :
    Pace ps qs σ ft (n + 1) ⟨.checkpoint (.pending p), a :: callers⟩ d
      (c.drive (n + 1) ⟨.checkpoint (.pending p), a :: callers⟩) := by
  have hgo : ∀ s : Settlement, Machine.Placed .any ⟨s.control, a :: callers⟩ := fun s =>
    Machine.Parked.resume (m := ⟨.waiting p, a :: callers⟩) ⟨hstack, List.cons_ne_nil _ _, rfl⟩ s
  obtain ⟨⟨P, w, k, l, rfl, ha⟩, hc, hd, hft⟩ := h
  rcases ha.early p with heq | ⟨hp, hun⟩
  · have hget : (c.apart P w k l).heap.pendings.get p = c.heap.pendings.get p := by
      change P.get p = c.heap.pendings.get p
      simp only [Store.get, heq]
    -- what is not settled is none of the values that the second one has
    have hlate : (∀ τ, c.heap.pendings.get p ≠ .settled τ) → p ∉ ps := fun hnone hp => by
      have hset := ha.settled p hp
      rw [← heq] at hset
      exact hnone (σ p) (by rw [Store.get, hset, Option.getD_some])
    have hstuck : p ∉ ps → (c.heap.pendings.get p).settlement? = none →
        c.heap.Unready p → Pace ps qs σ ft (n + 1) ⟨.checkpoint (.pending p), a :: callers⟩ (c.apart P w k l)
          (c.drive (n + 1) ⟨.checkpoint (.pending p), a :: callers⟩) := fun hp hnone hripe => by
      have hcold : (c.apart P w k l).heap.Unready p := fun s hs => hripe s (hget.symm.trans hs)
      have hopen : ((c.apart P w k l).heap.pendings.get p).settlement? = none := by
        rw [hget]
        exact hnone
      rw [drive_waiting hnone hripe hc]
      exact .stuck (drive_waiting hopen hcold hd n) hp hnone hripe
    cases hs : c.heap.pendings.get p with
    | settled s =>
      have hset : (c.heap.pendings.get p).settlement? = some s := by rw [hs]; rfl
      rw [drive_settled hset]
      refine Pace.step (drive_settled (hget ▸ hset)) (ih _ _ _ ?_ (hgo s))
      exact ⟨⟨P, w, k, l, rfl, ha⟩, hc, hd, hft⟩
    | scheduled s =>
      have hp : p ∉ ps := hlate fun τ h => by rw [hs] at h; cases h
      cases hripe : c.heap.process.ripe p with
      | true =>
        rw [drive_scheduled hs hripe hc]
        refine Pace.step (drive_scheduled (hget.trans hs) hripe hd) (ih _ _ _ ?_ (hgo s))
        exact ⟨⟨_, .armed, _, _, rfl, ha.settle hp s⟩, rfl, rfl, hft⟩
      | false => exact hstuck hp (by rw [hs]; rfl) fun _ _ => hripe
    | unsettled =>
      exact hstuck (hlate fun τ h => by rw [hs] at h; cases h) (by rw [hs]; rfl) fun _ h => by
        rw [hs] at h
        cases h
  · have hs : c.heap.pendings.get p = .unsettled := by rw [Store.get, hun]; rfl
    rw [drive_waiting (by rw [hs]; rfl) (fun s h => by rw [hs] at h; cases h) hc]
    have hstart : ∀ j, (c.apart P w k l).drive (0 + j) ⟨.checkpoint (.pending p), a :: callers⟩ =
        (c.apart P w k l).drive j ⟨.checkpoint (.pending p), a :: callers⟩ := fun j => by
      rw [Nat.zero_add]
    exact .waits (Nat.succ_pos n) hstart ⟨hstack, List.cons_ne_nil _ _, rfl⟩ hp
      ⟨P, w, k, l, rfl, ha⟩ hd hft

end Checkpoint

/-- **Drives of twins keep pace.** -/
theorem drive_pace (n : Nat) (m : Machine) (c d : Core)
    (h : (twinLaw ps qs σ ft).rel m.frames c d) (hm : m.Placed .any) :
    Pace ps qs σ ft n m d (c.drive n m) := by
  induction n generalizing m c d with
  | zero => exact .outOfFuel rfl
  | succ n ih =>
    by_cases hv : ∃ p, m.control = .checkpoint (.pending p)
    · obtain ⟨control, stack⟩ := m
      obtain ⟨p, rfl⟩ := hv
      obtain ⟨hstack, hnext⟩ := hm
      cases stack with
      | nil => rcases hnext with ⟨v, hv⟩ | ⟨x, hx, -⟩ <;> cases ‹_ = _›
      | cons a callers => exact pace_checkpoint hstack h ih
    · obtain ⟨hsame, hrel⟩ := Law.step h fun p hp => hv ⟨p, hp⟩
      have hplaced := Atlas.step (Atlas.covers_any c) hm
      cases hc : m.step c with
      | mk progress c' =>
        cases hd : m.step d with
        | mk other d' =>
          rw [hc, hd] at hsame hrel
          rw [hc] at hplaced
          cases hsame
          cases progress with
          | running m' =>
            rw [drive_running hc]
            exact Pace.step (drive_running hd) (ih m' c' d' hrel hplaced)
          | done outcome =>
            have hend : ∀ {e e' : Core}, m.step e = (.done outcome, e') →
                e.drive (n + 1) m = (.done outcome, e') := fun he => by simp only [drive, he]
            rw [hend hc]
            exact .done (hend hd) hrel.1 hrel.2.2.2
          | parked m' p => exact absurd ⟨p, Machine.control_of_parked hm hc⟩ hv

end Core

end Fermata
