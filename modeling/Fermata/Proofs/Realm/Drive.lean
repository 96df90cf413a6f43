import Fermata.Proofs.Realm.Step

/-!
# Drives, on two cores

Where everything that may be met may be put into cells, nothing that a step copies has to be looked at. So
two drives of one machine on cores that an evaluation cannot tell apart stop at the same place, on such
cores.

* `Realm.meets_copied`: what a step copies may be met.
* `Realm.Ends`, `Realm.drive`: where two drives stop.
-/

namespace Fermata

open Act

namespace Realm

variable {K : Realm} {c c' d d' : Core} {v : Value} {m : Machine}

/-! ## Copies -/

theorem meets_values_of_array? (h : K.rel c d) (hv : K.Meets c v) :
    ∀ w ∈ ((c.heap.array? v).map fun id => (c.heap.objects.get id).values).getD [], K.Meets c w := by
  cases ha : c.heap.array? v with
  | none => exact List.forall_mem_nil _
  | some id =>
    have hid := (K.sight c).shown_of_held (Heap.Agree.held_of_array? hv ha)
    exact ((K.agree h).stores hid).values

theorem meets_value_copies {fn : Value} (h : K.rel c d) (hv : K.Meets c v) :
    ∀ w ∈ fn.copies c.heap v, K.Meets c w := by
  unfold Value.copies
  split
  · unfold Builtin.copies
    split
    · exact meets_values_of_array? h hv
    · exact List.forall_mem_nil _
  · exact List.forall_mem_nil _

theorem meets_each_copies {kind : EachKind} (h : K.rel c d) (hv : K.Meets c v) :
    ∀ w ∈ kind.copies c.heap v, K.Meets c w := by
  unfold EachKind.copies
  split
  · exact List.forall_mem_nil _
  · unfold Act.loopValues?
    split
    · intro w hw
      obtain ⟨x, -, rfl⟩ := List.mem_map.mp hw
      exact Value.within_string _
    · rename_i id
      have hstores := (K.agree h).stores ((K.sight c).shown_of_held (Sight.object_of_meets hv))
      rw [Option.getD_some]
      split
      · exact hstores.values
      · intro w hw
        obtain ⟨e, he, rfl⟩ := List.mem_map.mp hw
        exact hstores.entries e he
    · exact List.forall_mem_nil _

/-- **What a step copies may be met**: it is in objects that may be looked into, or an item of a loop. -/
theorem meets_copied (h : K.rel c d) (hm : K.Safe m c) : ∀ v ∈ m.copied c, K.Meets c v := by
  obtain ⟨control, stack⟩ := m
  have hitems : ∀ {frame boundary k ks callers}, stack = ⟨frame, boundary, k :: ks⟩ :: callers →
      ∀ v ∈ k.items, K.Meets c v := by
    rintro frame boundary k ks callers rfl v hv
    have hk := (hm.stack _ List.mem_cons_self).conts k List.mem_cons_self
    exact (hk.items v hv).mono fun _ => (K.sight c).met_of_listed
  unfold Machine.copied
  dsimp only
  split
  · rename_i frame boundary k ks callers v
    have hk := (hm.stack _ List.mem_cons_self).conts k List.mem_cons_self
    have hv : K.Meets c v := hm.control.elim K.meets_of_has And.left
    unfold Cont.copies
    split
    · unfold ListUse.copies
      split
      · rename_i fn this
        exact meets_value_copies h (K.meets_of_has (hk.kept this
          (List.mem_append_left _ (List.mem_cons_of_mem _ List.mem_cons_self))))
      · exact List.forall_mem_nil _
    · rename_i receiver
      exact meets_value_copies h (K.meets_of_has (hk.kept receiver List.mem_cons_self))
    · exact meets_each_copies h hv
    · exact hitems rfl
  · exact hitems rfl
  · exact List.forall_mem_nil _

/-! ## Drives -/

/-- Where two drives stop: at the same place, on related cores, and nothing was lost from sight. -/
inductive Ends (K : Realm) (c : Core) : Core.Stop × Core → Core.Stop × Core → Prop
  | done {outcome c' d'} : K.rel c' d' → (K.sight c).Widens (K.sight c') →
      (∀ v, outcome = .ok v → K.Meets c' v) → (∀ x, outcome = .error x → K.Bears c' x) →
      Ends K c (.done outcome, c') (.done outcome, d')
  | parked {m' p c' d'} : K.rel c' d' → (K.sight c).Widens (K.sight c') → K.Safe m' c' →
      (K.sight c').met (.pending p) → Ends K c (.parked m' p, c') (.parked m' p, d')
  | outOfFuel {m' c' d'} : K.rel c' d' → (K.sight c).Widens (K.sight c') →
      Ends K c (.outOfFuel m', c') (.outOfFuel m', d')

theorem Ends.since {r t : Core.Stop × Core} (hl : (K.sight c).Widens (K.sight c'))
    (hr : K.Ends c' r t) : K.Ends c r t := by
  cases hr with
  | done h hl' hv hx => exact .done h (hl.trans hl') hv hx
  | parked h hl' hm hp => exact .parked h (hl.trans hl') hm hp
  | outOfFuel h hl' => exact .outOfFuel h (hl.trans hl')

/-- A suspension is recorded. -/
theorem recording (h : K.rel c d) (s : Suspension) : K.rel (c.record s) (d.record s) ∧
    (K.sight c).Widens (K.sight (c.record s)) := by
  have hd : d.record s = d.apart d.heap.pendings c.engine.watch (c.engine.suspensionCount + 1)
      (some s) := by
    have hrest := (K.engine h).rest
    unfold Core.record Core.apart
    rw [hrest]
    rfl
  rw [hd]
  exact K.apart h _ _ _

/-- A machine that waits goes on with a settlement that may be met. -/
theorem Safe.resuming {s : Settlement} (hm : K.Safe m c) (hs : K.Meets c s.value) :
    K.Safe { m with control := s.control } c := by
  refine ⟨hm.stack, ?_⟩
  obtain ⟨control, stack⟩ := m
  cases stack with
  | nil => exact hasControl_settlement hs _
  | cons a callers => exact hasControl_settlement hs _

/-- **Two drives stop at the same place.** -/
theorem drive (hclosed : ∀ c x, (K.sight c).met x → K.stored c x) (n : Nat) (h : K.rel c d)
    (hm : K.Safe m c) (hwatch : c.engine.watch = .armed) :
    K.Ends c (c.drive n m) (d.drive n m) := by
  induction n generalizing m c d with
  | zero => exact .outOfFuel h (.refl _)
  | succ n ih =>
    have hsteps := K.step h hm hwatch fun v hv => (meets_copied h hm v hv).mono (hclosed c)
    unfold Core.drive
    generalize m.step c = r at hsteps
    generalize m.step d = t at hsteps
    cases hsteps with
    | running h' hl hm' => exact (ih h' hm' (hl.watch.trans hwatch)).since hl.toWidens
    | done h' hv hx => exact .done h' (.refl _) hv hx
    | @parked m' p c' d' h' hl hm' hcontrol =>
      dsimp only
      have hsuspension : d'.suspension m' p = c'.suspension m' p := by
        unfold Core.suspension
        rw [(K.engine h').rest]
      rw [hsuspension]
      generalize c'.suspension m' p = σ
      obtain ⟨hrec, hl'⟩ := recording h' σ
      have hsafe := hm'.widen hl'
      have hp : (K.sight (c'.record σ)).met (.pending p) := by
        have hc := hsafe.control
        rw [hcontrol] at hc
        cases hstack : m'.stack <;> rw [hstack] at hc <;> exact hc
      rw [← (K.agree hrec).get_pending hp, ← K.process hrec]
      have hheld := (K.agree hrec).settlement hp
      generalize hq : (c'.record σ).heap.pendings.get p = q at hheld ⊢
      cases q with
      | scheduled s =>
        dsimp only
        split
        case isTrue =>
          obtain ⟨hset, hl₁⟩ := K.settle hrec hp hq
          obtain ⟨hwatch', hl₂⟩ := watching hset .armed
          have hwidens := ((hl.trans hl').trans hl₁).trans hl₂
          have hvalue := hheld s.value (List.mem_singleton_self _)
          rw [Machine.resume_waiting hcontrol]
          exact (ih hwatch' ((hsafe.widen (hl₁.trans hl₂)).resuming
            ((hl₁.trans hl₂).meets hvalue)) rfl).since hwidens
        case isFalse => exact .parked hrec (hl.trans hl') hsafe hp
      | _ => exact .parked hrec (hl.trans hl') hsafe hp

end Realm

end Fermata
