import Fermata.Proofs.Zone.Alike

/-!
# Turns in a zone

A turn that is addressed to an engine in the zone and hands over nothing but what exists in the zone has
the same reply in two sessions that are alike there, and leaves them alike (`Zone.Alike.perform`). What an
engine keeps when it prunes its associations depends on what is held from outside, so this has to be the
same where it is seen (`Zone.Concurs`).
-/

namespace Fermata

/-- The failure of a thrown object, with its name and message if it is an error. -/
theorem Failure.ofThrown_object (h : Heap) (id : ObjectId) : ofThrown h (.object id) =
    ⟨if (h.objects.get id).class_ = .error then
        ⟨(h.lookup? id Object.nameKey).elim "" h.text, (h.lookup? id Object.messageKey).elim "" h.text⟩
      else ⟨uncaughtKind, h.text (.object id)⟩, h.toJson (.object id)⟩ := by
  unfold ofThrown
  dsimp only
  cases h.lookup? id Object.nameKey <;> cases h.lookup? id Object.messageKey <;> rfl

namespace Heap.Agree

variable {S : Sight} {h k : Heap} {v : Value}

theorem text_lookup? (hA : h.Agree S k) {id : ObjectId} (hid : S.shown id) (key : String) :
    (h.lookup? id key).elim "" h.text = (k.lookup? id key).elim "" k.text := by
  rw [← hA.lookup? hid key]
  cases hf : h.lookup? id key with
  | none => rw [Option.elim_none, Option.elim_none]
  | some f => exact hA.text (hA.meets_lookup? hid hf)

theorem ofThrown (hA : h.Agree S k) (hv : S.Meets v) : Failure.ofThrown h v = Failure.ofThrown k v := by
  cases v with
  | object id =>
    have hid := S.shown_of_held (Sight.object_of_meets hv)
    rw [Failure.ofThrown_object, Failure.ofThrown_object, hA.get_object hid, hA.text_lookup? hid,
      hA.text_lookup? hid, hA.text hv, hA.toJson hv]
  | _ =>
    unfold Failure.ofThrown
    rw [hA.text hv, hA.toJson hv]

/-- A host is told the same of an outcome. -/
theorem report (hA : h.Agree S k) {outcome : Outcome}
    (hx : ∀ v, outcome = .error (.thrown v) → S.Meets v) : Core.report h outcome = Core.report k outcome := by
  cases outcome with
  | ok v => rfl
  | error x =>
    cases x with
    | thrown v => exact congrArg (Except.error ∘ EngineError.uncaught) (hA.ofThrown (hx v rfl))
    | _ => rfl

end Heap.Agree

namespace Zone

variable {Z : Zone} {mine : Nat → Prop} {s t : Session} {i : Nat} {c d : Core} {loan : Loan}

/-- When an engine prunes its associations, the same is held from outside of both sessions where it is
seen, and only what is seen leads there. -/
structure Concurs (Z : Zone) (i : Nat) (s t : Session) : Prop where
  left {e f : Core} : Z.Rel s.heap t.heap e f → Z.Behind e.heap e.engine.links
  right {e f : Core} : Z.Rel s.heap t.heap e f → Z.Behind f.heap f.engine.links
  roots : ∀ x, Z.seen x → (x ∈ s.roots i ↔ x ∈ t.roots i)

/-- So it is after both went on, if the same is held from outside as before. -/
theorem Concurs.passes {s' t' : Session} (hc : Z.Concurs i s t) (hpasses : Z.Passes mine s t s' t')
    (hs : s'.roots i = s.roots i) (ht : t'.roots i = t.roots i) : Z.Concurs i s' t' where
  left hrel := hc.left ⟨hrel.ties.since hpasses.left.heap hpasses.right.heap, hrel.seats, hrel.like⟩
  right hrel := hc.right ⟨hrel.ties.since hpasses.left.heap hpasses.right.heap, hrel.seats, hrel.like⟩
  roots x hx := by
    rw [hs, ht]
    exact hc.roots x hx

/-- Both sessions give the same reply and go on alike. -/
structure Replies {α : Type} (Z : Zone) (mine : Nat → Prop) (s t : Session) (r r' : α × Session) :
    Prop where
  reply : r.1 = r'.1
  passes : Z.Passes mine s t r.2 r'.2

/-- Both sessions give the same answer to a request; what it gives to the host exists in the zone. -/
structure Answers (Z : Zone) (mine : Nat → Prop) (s t : Session) (r r' : Answer × Session) : Prop
    extends Z.Replies mine s t r r' where
  value : ∀ v, r.1 = .finished (.ok v) → v.Within (Z.Has r.2.heap)

/-- A request is refused. -/
theorem Replies.refused {r r' : Answer × Session} (h : Z.Replies mine s t r r') {e : EngineError}
    (he : r.1 = .finished (.error e)) : Z.Answers mine s t r r' :=
  ⟨h, fun v hv => by cases he.symm.trans hv⟩

namespace Alike

theorem finish (hA : Z.Alike mine s t) (hi : mine i) (hc : Z.Concurs i s t)
    (hrel : Z.Rel s.heap t.heap c d) {outcome : Outcome}
    (hv : ∀ v, outcome = .ok v → v.Within (Z.Has c.heap))
    (hx : ∀ v, outcome = .error (.thrown v) → v.Within (Z.Has c.heap)) :
    Z.Answers mine s t (s.settleStop i loan (.done outcome) c)
      (t.settleStop i loan (.done outcome) d) := by
  have hroots : ∀ x, Z.seen x →
      (x ∈ Cell.ofValues (Core.heldByOutcome outcome) ++ (loan.lent ++ s.roots i) ↔
        x ∈ Cell.ofValues (Core.heldByOutcome outcome) ++ (loan.lent ++ t.roots i)) := fun x hx => by
    simp only [List.mem_append, hc.roots x hx]
  obtain ⟨hended, hlasts⟩ := hrel.ended fun x hx =>
    hrel.ties.kept_iff hrel.like.links (hc.left hrel) (hc.right hrel) hroots hx
  rw [Session.settleStop_done, Session.settleStop_done, Core.finish_eq, Core.finish_eq]
  refine ⟨⟨congrArg Answer.finished (hended.ties.agree.report fun v hv => hlasts.within (hx v hv)),
    hA.seat hi hended (hA.abreast hi).left (fun _ => rfl) fun f hf => by cases hf⟩,
    fun v hreport => hlasts.within (hv v ?_)⟩
  cases outcome with
  | ok w =>
    cases hreport
    rfl
  | error x => cases x <;> cases hreport

theorem outOfFuel (hA : Z.Alike mine s t) (hi : mine i) (hrel : Z.Rel s.heap t.heap c d) (m : Machine) :
    Z.Answers mine s t (s.settleStop i loan (.outOfFuel m) c) (t.settleStop i loan (.outOfFuel m) d) := by
  rw [Session.settleStop_outOfFuel, Session.settleStop_outOfFuel]
  exact ⟨⟨rfl, hA.seat hi hrel (hA.abreast hi) (fun _ => rfl)
    fun f hf => (hA.parked hi hf).mono hrel.ties.lasts⟩, nofun⟩

/-- An evaluation waits. -/
theorem park (hA : Z.Alike mine s t) (hi : mine i) (hrel : Z.Rel s.heap t.heap c d) {m : Machine}
    {p : PendingId} (hm : (Z.realm s.heap t.heap).Safe m c) (hp : Z.Has c.heap (.pending p))
    (hheld : ∀ x ∈ loan.held, Z.cells x) :
    Z.Answers mine s t (s.settleStop i loan (.parked m p) c) (t.settleStop i loan (.parked m p) d) := by
  obtain ⟨htaken, hlasts, htake⟩ := hrel.taken hp.1
  have hlast : d.engine.lastSuspension = c.engine.lastSuspension := by rw [hrel.like.rest]
  have hcount : d.engine.suspensionCount = c.engine.suspensionCount := by rw [hrel.like.rest]
  rw [Session.settleStop_parked, Session.settleStop_parked, hlast, hcount]
  unfold Session.parkedAt
  rw [← htake]
  refine ⟨⟨rfl, hA.seat hi htaken ((hA.abreast hi).parking m p _ loan) (fun _ => rfl) fun f hf => ?_⟩,
    nofun⟩
  cases hf
  refine ⟨safe_widen hm hlasts, hp.mono hlasts, fun τ hτ => hlasts.within ?_, hheld⟩
  exact hrel.ties.closed.pending hp _ (Pending.due_mem_held hτ)

/-- **A drive ends with the same answer** in both sessions. -/
theorem settleStop (hA : Z.Alike mine s t) (hi : mine i) (hc : Z.Concurs i s t)
    (hheld : ∀ x ∈ loan.held, Z.cells x) {e : Core} {r r' : Core.Stop × Core}
    (hends : (Z.realm s.heap t.heap).Ends e r r') :
    Z.Answers mine s t (s.settleStop i loan r.1 r.2) (t.settleStop i loan r'.1 r'.2) := by
  cases hends with
  | done hrel _ hv hx => exact hA.finish hi hc hrel hv fun v hthrown => hx _ hthrown
  | outOfFuel hrel _ => exact hA.outOfFuel hi hrel _
  | parked hrel _ hm hp => exact hA.park hi hrel hm hp hheld

/-! ## Evaluations -/

/-- The realm of the zone is closed. -/
theorem driven (hA : Z.Alike mine s t) {m : Machine} (hrel : Z.Rel s.heap t.heap c d)
    (hm : (Z.realm s.heap t.heap).Safe m c) (hwatch : c.engine.watch = .armed) :
    (Z.realm s.heap t.heap).Ends c (c.drive s.fuel m) (d.drive t.fuel m) := by
  rw [← hA.fuel]
  exact Realm.drive (K := Z.realm s.heap t.heap) (fun _ _ hx => hx) s.fuel hrel hm hwatch

/-- Both engines begin, or go on, alike. -/
theorem armed (hA : Z.Alike mine s t) (hi : mine i) : Z.Rel s.heap t.heap (s.armed i) (t.armed i) := by
  unfold Session.armed
  rw [(hA.abreast hi).base_eq]
  exact (hA.rel hi).starting _

theorem evaluate (hA : Z.Alike mine s t) (hi : mine i) (hc : Z.Concurs i s t)
    (hheld : ∀ x ∈ loan.held, Z.cells x) {act act' : Act Move}
    (hact : ∀ {c d}, Z.Rel s.heap t.heap c d → Lasts s.heap c.heap →
      (Z.realm s.heap t.heap).Gives (Z.realm s.heap t.heap).Brings act c d) (heq : act' = act) :
    Z.Answers mine s t (s.evaluate i act loan) (t.evaluate i act' loan) := by
  subst heq
  have hbusy : (t.station i).isBusy = (s.station i).isBusy := (hA.abreast hi).busy.symm
  unfold Session.evaluate
  rw [hbusy]
  split
  · exact Replies.refused ⟨rfl, hA.passes⟩ rfl
  · obtain ⟨m, c', d', hc', hd', hrel', hlater, hm⟩ := Realm.start (hact (hA.armed hi) fun _ hx => hx)
    rw [hc', hd']
    exact hA.settleStop hi hc hheld (hA.driven hrel' hm hlater.watch)

theorem settle (hA : Z.Alike mine s t) {p : PendingId} {τ : Settlement}
    (hp : Z.Has s.heap (.pending p)) (hτ : τ.value.Within (Z.Has s.heap)) :
    Z.Replies mine s t (s.settle p τ) (t.settle p τ) := by
  refine ⟨?_, hA.withHeap (hA.ties.editPending hp.1 fun q hq v hv => ?_)⟩
  · change (!(s.heap.pendings.get p).isSettled) = !(t.heap.pendings.get p).isSettled
    rw [hA.ties.agree.get_pending hp]
  · cases q with
    | settled t => exact hq v hv
    | unsettled | scheduled => exact List.mem_singleton.mp hv ▸ hτ

/-- What was taken along arrives in both sessions. -/
theorem arrive (hA : Z.Alike mine s t) (hi : mine i) : Z.Passes mine s t (s.arrive i) (t.arrive i) := by
  unfold Session.arrive
  rw [← (hA.abreast hi).flight, hA.ties.process]
  cases hf : (s.station i).flight with
  | none => exact hA.passes
  | some f =>
    have hparks := hA.parked hi hf
    dsimp only
    cases htaken : f.taken with
    | none => exact hA.passes
    | some τ =>
      dsimp only
      split
      · exact (hA.settle hparks.pending (hparks.taken τ htaken)).passes
      · exact hA.passes

theorem goOn (hA : Z.Alike mine s t) (hi : mine i) (hc : Z.Concurs i s t) :
    Z.Replies mine s t (s.goOn i) (t.goOn i) ∧
      ∀ v, (s.goOn i).1 = some (.finished (.ok v)) → v.Within (Z.Has (s.goOn i).2.heap) := by
  unfold Session.goOn
  rw [← (hA.abreast hi).flight]
  cases hf : (s.station i).flight with
  | none => exact ⟨⟨rfl, hA.passes⟩, nofun⟩
  | some f =>
    have hparks := hA.parked hi hf
    dsimp only
    rw [← hA.ties.agree.get_pending hparks.pending]
    cases hs : (s.heap.pendings.get f.pending).settlement? with
    | none =>
      have hlast : (t.engine i).lastSuspension = (s.engine i).lastSuspension := by
        rw [(hA.like hi).rest]
      have hcount : (t.engine i).suspensionCount = (s.engine i).suspensionCount := by
        rw [(hA.like hi).rest]
      refine ⟨⟨?_, hA.passes⟩, nofun⟩
      dsimp only
      rw [hlast, hcount]
    | some τ =>
      have hrel := hA.armed hi
      have hvalue : τ.value.Within (Z.Has s.heap) :=
        hA.ties.closed.pending hparks.pending _ (Pending.value_mem_held hs)
      have hanswers : ∀ {r r' : Core.Stop × Core},
          (Z.realm s.heap t.heap).Ends (s.armed i) r r' →
          Z.Replies mine s t
            (some (s.settleStop i f.loan r.1 r.2).1, (s.settleStop i f.loan r.1 r.2).2)
            (some (t.settleStop i f.loan r'.1 r'.2).1, (t.settleStop i f.loan r'.1 r'.2).2) ∧
          ∀ v, some (s.settleStop i f.loan r.1 r.2).1 = some (.finished (.ok v)) →
            v.Within (Z.Has (s.settleStop i f.loan r.1 r.2).2.heap) := fun hends =>
        have ha := hA.settleStop hi hc hparks.held hends
        ⟨⟨congrArg some ha.reply, ha.passes⟩, fun v hv => ha.value v (Option.some.inj hv)⟩
      dsimp only
      cases hm : f.machine.resume τ with
      | error fault =>
        exact hanswers (.done hrel (.refl _) nofun fun x hx => by
          cases hx
          trivial)
      | ok m =>
        obtain rfl := Machine.eq_of_resume hm
        exact hanswers (hA.driven hrel
          (Realm.Safe.resuming (safe_widen hparks.safe fun _ hx => hx) hvalue) rfl)

theorem poll (hA : Z.Alike mine s t) (hi : mine i) (hc : Z.Concurs i s t) :
    Z.Replies mine s t (s.poll i) (t.poll i) ∧
      ∀ v, (s.poll i).1 = some (.finished (.ok v)) → v.Within (Z.Has (s.poll i).2.heap) := by
  have hpasses := hA.arrive hi
  obtain ⟨hreplies, hvalue⟩ := hpasses.alike.goOn hi
    (hc.passes hpasses (Session.roots_arrive ..) (Session.roots_arrive ..))
  exact ⟨⟨hreplies.reply, hpasses.trans hreplies.passes⟩, hvalue⟩

/-- The same unit is found or compiled for an engine, or the same is wrong with the source. -/
theorem compile (hA : Z.Alike mine s t) (hi : mine i) (source : String) :
    (∃ e, s.compile i source = .error e ∧ t.compile i source = .error e) ∨
      ∃ n s' n' t', s.compile i source = .ok (n, s') ∧ t.compile i source = .ok (n', t') ∧
        s'.unit n = t'.unit n' ∧ Z.Passes mine s t s' t' ∧ s'.roots i = s.roots i ∧
        t'.roots i = t.roots i := by
  have hcompiled := hA.compiled hi (Digest.ofText source)
  unfold Session.compiled? at hcompiled
  unfold Session.compile
  dsimp only
  cases hn : (s.station i).units.lookup (Digest.ofText source) with
  | some n =>
    rw [hn] at hcompiled
    cases hn' : (t.station i).units.lookup (Digest.ofText source) with
    | some n' =>
      rw [hn'] at hcompiled
      exact .inr ⟨n, s, n', t, rfl, rfl, congrArg (Option.getD · default) hcompiled, hA.passes, rfl,
        rfl⟩
    | none =>
      rw [hn', Option.bind_none, Option.bind_some,
        Array.getElem?_eq_getElem (hA.cached hi hn)] at hcompiled
      cases hcompiled
  | none =>
    rw [hn] at hcompiled
    cases hn' : (t.station i).units.lookup (Digest.ofText source) with
    | some n' =>
      rw [hn', Option.bind_none, Option.bind_some,
        Array.getElem?_eq_getElem (hA.cached' hi hn')] at hcompiled
      cases hcompiled
    | none =>
      cases hu : CodeUnit.compile source [] with
      | error e => exact .inl ⟨e, rfl, rfl⟩
      | ok u =>
        have hnew : ∀ v : Session, ((v.addUnit u).2.modifyStation i fun w =>
            { w with units := (Digest.ofText source, v.units.size) :: w.units }).unit v.units.size = u :=
          fun v => by
            simp only [Session.unit, Session.addUnit, Session.modifyStation, Array.getElem?_push,
              if_true, Option.getD_some]
        refine .inr ⟨_, _, _, _, rfl, rfl, (hnew s).trans (hnew t).symm,
          hA.withUnit hi (Digest.ofText source) u, ?_, ?_⟩
        · exact Session.roots_modifyStation (s := (s.addUnit u).2) s.heap _ rfl
        · exact Session.roots_modifyStation (s := (t.addUnit u).2) t.heap _ rfl

/-! ## Requests -/

theorem runUnit (hA : Z.Alike mine s t) (hi : mine i) (hc : Z.Concurs i s t) (u : CodeUnit) :
    Z.Answers mine s t (s.runUnit i u) (t.runUnit i u) := by
  refine hA.evaluate hi hc (List.forall_mem_nil _) (fun hrel hlasts => ?_) ?_
  · exact (Realm.openFrame (K := Z.realm s.heap t.heap) (f := Act.unitFrame u (s.engine i).root) hrel
      ((hA.seats hi).root.mono hlasts) _ _).weaken fun _ _ h => .inl h
  · rw [(hA.like hi).rest]

theorem run (hA : Z.Alike mine s t) (hi : mine i) (hc : Z.Concurs i s t) (source : String) :
    Z.Answers mine s t (s.run i source) (t.run i source) := by
  unfold Session.run
  rcases hA.compile hi source with ⟨e, hs, ht⟩ | ⟨n, s', n', t', hs, ht, hunit, hpasses, hrs, hrt⟩
  · rw [hs, ht]
    exact Replies.refused ⟨rfl, hA.passes⟩ rfl
  · rw [hs, ht]
    dsimp only
    rw [← hunit]
    have hanswers := hpasses.alike.runUnit hi (hc.passes hpasses hrs hrt) (s'.unit n)
    exact ⟨⟨hanswers.reply, hpasses.trans hanswers.passes⟩, hanswers.value⟩

theorem call (hA : Z.Alike mine s t) (hi : mine i) (hc : Z.Concurs i s t) {fn this : Value}
    {args : List Value} (hvalues : ∀ v ∈ fn :: this :: args, v.Within (Z.Has s.heap)) :
    Z.Answers mine s t (s.call i fn this args []) (t.call i fn this args []) := by
  unfold Session.call
  split
  · exact Replies.refused ⟨rfl, hA.passes⟩ rfl
  · refine hA.evaluate hi hc (fun x hx => ?_) (fun {c d} hrel hlasts => ?_) ?_
    · obtain ⟨hfn, hrest⟩ := List.forall_mem_cons.mp hvalues
      rcases List.mem_append.mp hx with hx | hx
      · exact (Cell.forall_ofValues.mpr hrest x hx).1
      · exact (Cell.forall_ofValues.mpr (List.forall_mem_singleton.mpr hfn) x hx).1
    · have hc : ∀ v ∈ fn :: this :: args, v.Within (Z.Has c.heap) :=
        fun v hv => hlasts.within (hvalues v hv)
      obtain ⟨hfn, hrest⟩ := List.forall_mem_cons.mp hc
      obtain ⟨hthis, hargs⟩ := List.forall_mem_cons.mp hrest
      exact Realm.callValue (K := Z.realm s.heap t.heap) hrel ((hA.seats hi).root.mono hlasts) hfn
        hthis hargs (Realm.meets_value_copies (K := Z.realm s.heap t.heap) hrel hthis)
    · rw [(hA.like hi).rest]

theorem evalIn (hA : Z.Alike mine s t) (hi : mine i) (hc : Z.Concurs i s t) {scope : ScopeId}
    (hscope : Z.Has s.heap (.scope scope)) (code : String) :
    Z.Answers mine s t (s.evalIn i scope code) (t.evalIn i scope code) := by
  have hregion : (t.engine i).region = (s.engine i).region := by rw [(hA.like hi).rest]
  unfold Session.evalIn
  rw [hregion, ← hA.ties.agree.visibleNames hscope]
  split
  · exact Replies.refused ⟨rfl, hA.passes⟩ rfl
  · cases CodeUnit.compile code (s.heap.visibleNames scope) with
    | error e => exact Replies.refused ⟨rfl, hA.passes⟩ rfl
    | ok u =>
      have hlent : ∀ x ∈ (⟨[], [.scope scope]⟩ : Loan).held, Z.cells x :=
        List.forall_mem_singleton.mpr hscope.1
      refine hA.evaluate hi hc hlent (fun hrel hlasts => ?_) rfl
      exact (Realm.callUnit (K := Z.realm s.heap t.heap) hrel (hscope.mono hlasts)).weaken
        fun _ _ h => .inl h

theorem abandon (hA : Z.Alike mine s t) (hi : mine i) :
    Z.Replies mine s t (s.abandon i) (t.abandon i) := by
  have habreast := hA.abreast hi
  unfold Session.abandon
  rw [← habreast.flight]
  cases (s.station i).flight with
  | none => exact ⟨rfl, hA.passes⟩
  | some f =>
    exact ⟨rfl, hA.withEngine hi (hA.seats hi) (hA.like hi) habreast.left (fun f hf => by cases hf)
      (fun _ => rfl) fun _ => rfl⟩

theorem takeConsole (hA : Z.Alike mine s t) (hi : mine i) :
    Z.Replies mine s t (s.takeConsole i) (t.takeConsole i) := by
  have hconsole : (t.engine i).console = (s.engine i).console := by rw [(hA.like hi).rest]
  have hs := hA.seats hi
  have habreast := hA.abreast hi
  refine ⟨congrArg Array.toList hconsole.symm, hA.withEngine hi
    ⟨hs.region, hs.global, hs.root, hs.methods, hs.evalFunction, hs.table⟩ ⟨?_, (hA.like hi).links⟩
    ⟨habreast.flight, habreast.busy, habreast.stack⟩ (fun f => hA.parked hi) (fun _ => rfl) fun _ => rfl⟩
  have hrest := congrArg (fun e : Engine => { e with console := #[] }) (hA.like hi).rest
  exact hrest

end Alike

/-! ## Writes of the host -/

namespace Ties

variable {h k h₀ k₀ : Heap} {v : Value} {scope : ScopeId}

/-- A property is written. -/
theorem write (ht : Z.Ties h₀ k₀ h k) {o : ObjectId} (ho : Z.Has h (.object o))
    (hv : v.Within (Z.Has h)) (key : String) (enumerable : Bool) :
    Z.Ties h₀ k₀ (h.write o key v enumerable) (k.write o key v enumerable) := by
  unfold Heap.write
  rw [← ht.agree.get_object (Z.shown_of_cells ho.1), ← ht.agree.number hv]
  exact ht.editObject ho.1 (fun _ hp => hp.put hv) fun q => Object.proto_put q key v _ enumerable

/-- A name is written where it is bound. -/
theorem setAt (ht : Z.Ties h₀ k₀ h k) {p : Heap.Place} (hp : (Z.sight h).HasPlace p)
    (hv : v.Within (Z.Has h)) (name : String) :
    Z.Ties h₀ k₀ (h.setAt p name v) (k.setAt p name v) := by
  cases p with
  | binding s => exact ht.editScope hp.1 fun _ hs => hs.setLocal hv name
  | global o =>
    unfold Heap.setAt
    dsimp only
    split
    · exact ht
    · exact ht.write hp hv name true
  | nowhere => exact ht

/-- The host overwrites a binding of a scope. -/
theorem setOwn (ht : Z.Ties h₀ k₀ h k) (hscope : Z.Has h (.scope scope)) (hv : v.Within (Z.Has h))
    (name : String) : (h.setOwn scope name v).1 = (k.setOwn scope name v).1 ∧
      Z.Ties h₀ k₀ (h.setOwn scope name v).2 (k.setOwn scope name v).2 := by
  unfold Heap.setOwn
  rw [← ht.agree.get_scope hscope]
  cases hstorage : (h.scopes.get scope).storage with
  | global o =>
    have ho : Z.Has h (.object o) := ht.agree.held_global hscope hstorage
    dsimp only
    rw [← ht.agree.get_object (Z.shown_of_cells ho.1)]
    split
    · exact ⟨rfl, ht.write ho hv name true⟩
    · exact ⟨rfl, ht⟩
  | locals bindings =>
    dsimp only
    split
    · exact ⟨rfl, ht.editScope hscope.1 fun _ hs => hs.setLocal hv name⟩
    · exact ⟨rfl, ht⟩

end Ties

namespace Alike

theorem assign (hA : Z.Alike mine s t) {scope : ScopeId} {v : Value}
    (hscope : Z.Has s.heap (.scope scope)) (hv : v.Within (Z.Has s.heap)) (name : String) :
    Z.Replies mine s t (s.assign scope name v) (t.assign scope name v) := by
  unfold Session.assign Heap.setName
  rw [← hA.ties.agree.target hscope name]
  cases hp : s.heap.target scope name with
  | error e => exact ⟨rfl, hA.passes⟩
  | ok p =>
    exact ⟨rfl, hA.withHeap (hA.ties.setAt (hA.ties.agree.has_target hscope hp) hv name)⟩

theorem setEnvironment (hA : Z.Alike mine s t) {scope : ScopeId} {env : List (String × Value)}
    (hscope : Z.Has s.heap (.scope scope)) (henv : ∀ e ∈ env, e.2.Within (Z.Has s.heap)) :
    (s.heap.setEnvironment scope env).1 = (t.heap.setEnvironment scope env).1 ∧
      Z.Ties s.heap t.heap (s.heap.setEnvironment scope env).2 (t.heap.setEnvironment scope env).2 := by
  have hfold : ∀ (env : List (String × Value)) (n : Nat) (h k : Heap), Z.Ties s.heap t.heap h k →
      (∀ e ∈ env, e.2.Within (Z.Has s.heap)) →
      let step := fun (r : Nat × Heap) (e : String × Value) =>
        (if (r.2.setOwn scope e.1 e.2).1 then r.1 + 1 else r.1, (r.2.setOwn scope e.1 e.2).2)
      (env.foldl step (n, h)).1 = (env.foldl step (n, k)).1 ∧
        Z.Ties s.heap t.heap (env.foldl step (n, h)).2 (env.foldl step (n, k)).2 := by
    intro env
    induction env with
    | nil => exact fun n h k hties _ => ⟨rfl, hties⟩
    | cons e env ih =>
      intro n h k hties henv
      obtain ⟨he, henv⟩ := List.forall_mem_cons.mp henv
      obtain ⟨hwritten, hties'⟩ := hties.setOwn (hscope.mono hties.lasts) (hties.lasts.within he) e.1
      dsimp only at ih ⊢
      rw [List.foldl_cons, List.foldl_cons, ← hwritten]
      exact ih _ _ _ hties' henv
  exact hfold env 0 s.heap t.heap hA.ties henv

end Alike

/-! ## Turns -/

end Zone

/-- What a turn hands over to a session. -/
def Turn.supplied : Turn → List Cell
  | call _ fn this args => Cell.ofValues (fn :: this :: args)
  | evalIn _ scope _ => [.scope scope]
  | settle p τ => .pending p :: Cell.ofValues [τ.value]
  | setName scope _ v => .scope scope :: Cell.ofValues [v]
  | setEnvironment scope env => .scope scope :: Cell.ofValues (env.map (·.2))
  | keep _ v => Cell.ofValues [v]
  | hold scope | release scope => [.scope scope]
  | _ => []

namespace Zone

variable {Z : Zone} {mine : Nat → Prop} {s t : Session}

/-- The turn is addressed to an engine that works in the zone, if to any, and hands over nothing but what
exists there. -/
structure Admits (Z : Zone) (mine : Nat → Prop) (s : Session) (turn : Turn) : Prop where
  engine : ∀ i, turn.engine? = some i → mine i
  supplied : ∀ x ∈ turn.supplied, Z.Has s.heap x

/-- **A turn has the same reply in sessions that are alike**, and leaves them alike. What it answers exists
in the zone. -/
theorem Alike.perform (hA : Z.Alike mine s t) {turn : Turn}
    (hturn : Z.Admits mine s turn) (hc : ∀ i, mine i → Z.Concurs i s t)
    (hslots : ∀ slot, turn = .forget slot →
      s.slots.any (·.1 == slot) = t.slots.any (·.1 == slot))
    (hscopes : ∀ scope, turn = .release scope → s.scopes.contains scope = t.scopes.contains scope) :
    Z.Replies mine s t (s.perform turn) (t.perform turn) ∧
      ∀ v, (s.perform turn).1 = .answer (some (.finished (.ok v))) →
        v.Within (Z.Has (s.perform turn).2.heap) := by
  obtain ⟨engine, supplied⟩ := hturn
  have hanswer : ∀ {r r' : Answer × Session}, Z.Answers mine s t r r' →
      Z.Replies mine s t (Response.answer (some r.1), r.2) (Response.answer (some r'.1), r'.2) ∧
        ∀ v, Response.answer (some r.1) = .answer (some (.finished (.ok v))) →
          v.Within (Z.Has r.2.heap) := fun ha =>
    ⟨⟨congrArg (Response.answer ∘ some) ha.reply, ha.passes⟩,
      fun v hv => ha.value v (Option.some.inj (Response.answer.inj hv))⟩
  cases turn with
  | run i source => exact hanswer (hA.run (engine i rfl) (hc i (engine i rfl)) source)
  | runUnit i u => exact hanswer (hA.runUnit (engine i rfl) (hc i (engine i rfl)) u)
  | call i fn this args =>
    exact hanswer (hA.call (engine i rfl) (hc i (engine i rfl)) (Cell.forall_ofValues.mp supplied))
  | evalIn i scope code =>
    exact hanswer (hA.evalIn (engine i rfl) (hc i (engine i rfl)) (supplied _ List.mem_cons_self) code)
  | poll i =>
    obtain ⟨hr, hvalue⟩ := hA.poll (engine i rfl) (hc i (engine i rfl))
    exact ⟨⟨congrArg Response.answer hr.reply, hr.passes⟩, fun v hv => hvalue v (Response.answer.inj hv)⟩
  | abandon i =>
    have hr := hA.abandon (engine i rfl)
    exact ⟨⟨congrArg Response.told hr.reply, hr.passes⟩, fun v hv => by cases hv⟩
  | console i =>
    have hr := hA.takeConsole (engine i rfl)
    exact ⟨⟨congrArg Response.lines hr.reply, hr.passes⟩, fun v hv => by cases hv⟩
  | settle p τ =>
    obtain ⟨hp, hvalues⟩ := List.forall_mem_cons.mp supplied
    have hr := hA.settle hp (Cell.forall_ofValues.mp hvalues _ (List.mem_singleton_self _))
    exact ⟨⟨congrArg Response.told hr.reply, hr.passes⟩, fun v hv => by cases hv⟩
  | setName scope name v =>
    obtain ⟨hscope, hvalues⟩ := List.forall_mem_cons.mp supplied
    refine ⟨hA.assign hscope (Cell.forall_ofValues.mp hvalues _ (List.mem_singleton_self _)) name,
      fun w hw => ?_⟩
    unfold Session.perform Session.assign at hw
    dsimp only at hw
    split at hw <;> cases hw
  | setEnvironment scope env =>
    obtain ⟨hscope, hvalues⟩ := List.forall_mem_cons.mp supplied
    obtain ⟨hcount, hties⟩ := hA.setEnvironment hscope fun e he =>
      Cell.forall_ofValues.mp hvalues _ (List.mem_map_of_mem he)
    exact ⟨⟨congrArg Response.wrote hcount, hA.withHeap hties⟩, fun v hv => by cases hv⟩
  | keep slot v => exact ⟨⟨rfl, hA.withSlots _ _⟩, fun v hv => by cases hv⟩
  | forget slot =>
    exact ⟨⟨congrArg Response.told (hslots slot rfl), hA.withSlots _ _⟩, fun v hv => by cases hv⟩
  | hold scope => exact ⟨⟨rfl, hA.withScopes _ _⟩, fun v hv => by cases hv⟩
  | release scope =>
    exact ⟨⟨congrArg Response.told (hscopes scope rfl), hA.withScopes _ _⟩, fun v hv => by cases hv⟩
  | elsewhere process => exact ⟨⟨rfl, hA.elsewhere process⟩, fun v hv => by cases hv⟩

end Zone

end Fermata
