import Fermata.Proofs.Session.During
import Fermata.Proofs.Zone.Turn

/-!
# In the course of a turn in a zone

What a turn begins with may be in sight of a realm (`Realm.Admits`). Then everything that the turn comes by
is: all cores on the way (`Realm.Admits.during`), and the one that it leaves (`Realm.Admits.leaves`). So a
turn that is admitted to a zone stays in it all the time, not only when it ends: every core on the way is
tied to the heap before the turn (`Zone.Alike.during`).
-/

namespace Fermata

/-- However a drive stopped, the session takes over its objects. -/
theorem Session.objects_settleStop (s : Session) (i : Nat) (loan : Loan) (stop : Core.Stop)
    (c : Core) : (s.settleStop i loan stop c).2.heap.objects = c.heap.objects := by
  cases stop with
  | done outcome => exact c.heap.objects_prune ..
  | parked m p => rfl
  | outOfFuel m => rfl

/-- What arrives changes no objects. -/
theorem Session.objects_arrive (s : Session) (i : Nat) : (s.arrive i).heap.objects = s.heap.objects := by
  rcases s.arrive_cases i with heq | ⟨f, τ, -, -, -, heq⟩ <;> rw [heq]
  rfl

namespace Realm

variable {K : Realm} {c c' : Core} {m m' : Machine} {p : PendingId} {s : Settlement} {σ : Session}
  {turn : Turn} {i : Nat}

/-- The machine and its core are in sight, and somebody watches. -/
structure Drives (K : Realm) (m : Machine) (c : Core) : Prop where
  rel : K.rel c c
  safe : K.Safe m c
  watch : c.engine.watch = .armed

namespace Drives

variable (hclosed : ∀ c x, (K.sight c).met x → K.stored c x)

include hclosed

theorem steps (h : K.Drives m c) : K.Steps c (m.step c) (m.step c) :=
  K.step h.rel h.safe h.watch fun v hv => (meets_copied h.rel h.safe v hv).mono (hclosed c)

theorem step (h : K.Drives m c) (hstep : m.step c = (.running m', c')) : K.Drives m' c' := by
  have hsteps := h.steps hclosed
  rw [hstep] at hsteps
  cases hsteps with
  | running h' hl hm' => exact ⟨h', hm', hl.watch.trans h.watch⟩

/-- A value that settles by itself was met. -/
theorem settle {m'' : Machine} (h : K.Drives m c) (hstep : m.step c = (.parked m' p, c'))
    (hs : c'.heap.pendings.get p = .scheduled s) (hresume : m'.resume s = .ok m'') (σ : Suspension) :
    K.Drives m'' (((c'.record σ).settle p s).watching .armed) := by
  have hsteps := h.steps hclosed
  rw [hstep] at hsteps
  cases hsteps with
  | parked h' hl hm' hcontrol =>
    obtain ⟨hrec, hl'⟩ := recording h' σ
    have hsafe := hm'.widen hl'
    have hp : (K.sight (c'.record σ)).met (.pending p) := by
      have hc := hsafe.control
      rw [hcontrol] at hc
      cases hstack : m'.stack <;> rw [hstack] at hc <;> exact hc
    have hheld := (K.agree hrec).settlement hp
    have hq : (c'.record σ).heap.pendings.get p = .scheduled s := hs
    rw [hq] at hheld
    obtain ⟨hset, hl₁⟩ := K.settle hrec hp hq
    obtain ⟨hwatch, hl₂⟩ := watching hset .armed
    rw [Machine.resume_waiting hcontrol] at hresume
    cases hresume
    exact ⟨hwatch, (hsafe.widen (hl₁.trans hl₂)).resuming
      ((hl₁.trans hl₂).meets (hheld s.value (List.mem_singleton_self _))), rfl⟩

/-- A drive ends in sight. -/
theorem drive (h : K.Drives m c) (n : Nat) : K.rel (c.drive n m).2 (c.drive n m).2 := by
  have hends := Realm.drive hclosed n h.rel h.safe h.watch
  generalize c.drive n m = r at hends
  cases hends <;> assumption

end Drives

/-- What a turn begins with, or goes on with, is in sight. -/
structure Admits (K : Realm) (σ : Session) (turn : Turn) : Prop where
  closed : ∀ c x, (K.sight c).met x → K.stored c x
  rel {j : Nat} : turn.engine? = some j → K.rel (σ.armed j) (σ.armed j)
  root {j : Nat} : turn.engine? = some j → (K.sight (σ.armed j)).held (.scope (σ.engine j).root)
  supplied {j : Nat} : turn.engine? = some j → ∀ x ∈ turn.supplied, (K.sight (σ.armed j)).held x
  arrived {j : Nat} : turn.engine? = some j → K.rel ((σ.arrive j).armed j) ((σ.arrive j).armed j)
  safe {j : Nat} {f : Flight} : turn.engine? = some j → (σ.station j).flight = some f →
    K.Safe f.machine ((σ.arrive j).armed j)
  parked {j : Nat} {f : Flight} : turn.engine? = some j → (σ.station j).flight = some f →
    (K.sight ((σ.arrive j).armed j)).met (.pending f.pending)

namespace Admits

variable {a : Session.Ask} {f : Flight}

/-- What a turn asks for begins in sight. -/
theorem gives (h : K.Admits σ turn) (hask : σ.ask? turn = some a) (hc : c = σ.armed a.engine) :
    K.Gives K.Brings a.act c c := by
  subst hc
  have hasks := Session.asks hask
  have hrel := h.rel hasks.engine
  have hroot : (K.sight (σ.armed a.engine)).held (.scope (a.session.engine a.engine).root) := by
    have heq : (a.session.engine a.engine).root = (σ.engine a.engine).root :=
      congrArg (·.engine.root) (hasks.core_eq a.engine)
    rw [heq]
    exact h.root hasks.engine
  have hsupplied := h.supplied hasks.engine
  have hunit : ∀ u, K.Gives K.Brings (Act.openUnit u (a.session.engine a.engine).root)
      (σ.armed a.engine) (σ.armed a.engine) := fun u => (openFrame
    (f := Act.unitFrame u (a.session.engine a.engine).root) hrel hroot _ _).weaken fun _ _ hm => .inl hm
  cases turn with
  | run i source =>
    simp only [Session.ask?] at hask
    split at hask
    · cases hask
      exact hunit _
    · cases hask
  | runUnit i u =>
    cases hask
    exact hunit u
  | call i fn this args =>
    simp only [Session.ask?] at hask
    split at hask
    · cases hask
      have hvalues : ∀ v ∈ fn :: this :: args, K.Has (σ.armed i) v := Cell.forall_ofValues.mp hsupplied
      obtain ⟨hfn, hrest⟩ := List.forall_mem_cons.mp hvalues
      obtain ⟨hthis, hargs⟩ := List.forall_mem_cons.mp hrest
      refine callValue hrel hroot (K.meets_of_has hfn) (K.puts_of_has hthis)
        (fun v hv => K.puts_of_has (hargs v hv)) fun v hv => ?_
      exact (meets_value_copies hrel (K.meets_of_has hthis) v hv).mono (h.closed _)
    · cases hask
  | evalIn i scope code =>
    simp only [Session.ask?] at hask
    split at hask
    · split at hask
      · cases hask
        exact (callUnit hrel (hsupplied _ List.mem_cons_self)).weaken fun _ _ hm => .inl hm
      · cases hask
    · cases hask
  | _ => cases hask

/-- The machine that a turn starts. -/
theorem starts (h : K.Admits σ turn) (hask : σ.ask? turn = some a) :
    K.Drives (Machine.start a.act (a.session.armed a.engine)).1
      (Machine.start a.act (a.session.armed a.engine)).2 := by
  have hasks := Session.asks hask
  obtain ⟨m, c', d', hc, hd, hrel', hlater, hm⟩ := start (h.gives hask rfl)
  rw [hasks.armed_eq, hc]
  cases hc.symm.trans hd
  exact ⟨hrel', hm, hlater.watch⟩

/-- The machine with which a turn goes on. -/
theorem resumes (h : K.Admits σ turn) (hi : turn.engine? = some i)
    (hf : (σ.station i).flight = some f)
    (hs : ((σ.arrive i).heap.pendings.get f.pending).settlement? = some s)
    (hresume : f.machine.resume s = .ok m) : K.Drives m ((σ.arrive i).armed i) := by
  have hrel := h.arrived hi
  obtain rfl := Machine.eq_of_resume hresume
  have hvalue : K.Meets ((σ.arrive i).armed i) s.value :=
    (K.agree hrel).settlement (h.parked hi hf) _ (Pending.value_mem_held hs)
  exact ⟨hrel, Safe.resuming (h.safe hi hf) hvalue, rfl⟩

/-- **In the course of the turn** everything is in sight. -/
theorem during (h : K.Admits σ turn) (hd : σ.During turn m c) : K.Drives m c := by
  induction hd with
  | start hask _ => exact h.starts hask
  | resume heq hf hs hresume => exact h.resumes (heq ▸ rfl) hf hs hresume
  | step _ hstep ih => exact ih.step h.closed hstep
  | settle _ hstep hs _ hresume ih => exact ih.settle h.closed hstep hs hresume _

/-- **What the turn leaves** of the objects is what some core in sight has. -/
theorem leaves (h : K.Admits σ turn) (hturn : (σ.ask? turn).isSome ∨ turn = .poll i) :
    (σ.perform turn).2.heap.objects = σ.heap.objects ∨
      ∃ c, K.rel c c ∧ (σ.perform turn).2.heap.objects = c.heap.objects := by
  rcases hturn with hask | rfl
  · obtain ⟨a, hask⟩ := Option.isSome_iff_exists.mp hask
    have hasks := Session.asks hask
    rw [hasks.perform]
    unfold Session.evaluate
    split
    · exact .inl (congrArg (·.heap.objects) (hasks.core_eq a.engine))
    · exact .inr ⟨_, (h.starts hask).drive h.closed _, Session.objects_settleStop ..⟩
  · change ((σ.arrive i).goOn i).2.heap.objects = _ ∨ ∃ c, K.rel c c ∧ ((σ.arrive i).goOn i).2.heap.objects = _
    have harrived := σ.objects_arrive i
    unfold Session.goOn
    rw [Session.station_arrive]
    split
    · exact .inl harrived
    · rename_i f hf
      split
      · exact .inl harrived
      · rename_i settlement hs
        dsimp only
        rw [Session.objects_settleStop]
        cases hm : f.machine.resume settlement with
        | error fault => exact .inl harrived
        | ok m => exact .inr ⟨_, (h.resumes rfl hf hs hm).drive h.closed _, rfl⟩

end Admits

end Realm

namespace Zone

variable {Z : Zone} {mine : Nat → Prop} {s : Session} {turn : Turn} {c : Core} {m : Machine}

namespace Alike

/-- What an admitted turn begins with is of the zone, and so is it in sight of every realm that sees the
zone. -/
theorem admits {K : Realm} (hA : Z.Alike mine s s) (hturn : Z.Admits mine s turn)
    (hsight : ∀ c, K.sight c = Z.sight c.heap)
    (hrel : ∀ c, Z.Rel s.heap s.heap c c → c.heap.objects = s.heap.objects → K.rel c c)
    (hsafe : ∀ {m c}, (Z.realm s.heap s.heap).Safe m c → K.Safe m c) : K.Admits s turn where
  closed c x hx := by
    unfold Realm.stored
    rw [hsight] at hx ⊢
    exact hx
  rel hi := hrel _ (hA.armed (hturn.engine _ hi)) rfl
  root hi := hsight _ ▸ (hA.seats (hturn.engine _ hi)).root
  supplied hi x hx := hsight _ ▸ hturn.supplied x hx
  arrived {j} hi := by
    have hpasses := hA.arrive (hturn.engine _ hi)
    have harmed := hpasses.alike.armed (hturn.engine _ hi)
    exact hrel _ ⟨harmed.ties.since hpasses.left.heap hpasses.right.heap, harmed.seats, harmed.like⟩
      (s.objects_arrive j)
  safe hi hf := hsafe (safe_widen (hA.parked (hturn.engine _ hi) hf).safe
    (hA.arrive (hturn.engine _ hi)).left.heap.lasts)
  parked hi hf := hsight _ ▸ (hA.parked (hturn.engine _ hi) hf).pending.mono
    (hA.arrive (hturn.engine _ hi)).left.heap.lasts

/-- **In the course of an admitted turn** everything stays in the zone. -/
theorem during (hA : Z.Alike mine s s) (hturn : Z.Admits mine s turn) (hd : s.During turn m c) :
    (Z.realm s.heap s.heap).Drives m c :=
  (hA.admits (K := Z.realm s.heap s.heap) hturn (fun _ => rfl) (fun _ h _ => h) id).during hd

end Alike

end Zone

end Fermata
