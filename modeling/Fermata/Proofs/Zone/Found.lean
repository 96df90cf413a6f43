import Fermata.Proofs.Zone.Turn

/-!
# Founding an engine in a zone

A new engine makes its global object, its root scope and its standard functions in its own region, and
puts into them only what is new or what its host defines. So it is founded in a zone if its region belongs
to the zone, what it inherits from is shown there and what is defined exists there.

* `Zone.Furnishes`: changes of a heap that keep a zone in order.
* `Zone.Seats.create`: a new engine works in the zone.
* `Zone.Houses`: the engines of a session that work in a zone.
-/

namespace Fermata

theorem Links.getElem?_empty {n : Nat} : ({} : Links)[n]? = none := Std.TreeMap.getElem?_emptyc

namespace Zone

variable {Z : Zone} {h k l h₀ : Heap} {r : Nat} {o : ObjectId} {v : Value}

/-- The heap came from another one by changes in the zone. -/
structure Furnishes (Z : Zone) (h₀ h k : Heap) : Prop where
  ties : Z.Ties h₀ h₀ k k
  lasts : Lasts h k

namespace Furnishes

theorem refl (ht : Z.Ties h₀ h₀ h h) : Z.Furnishes h₀ h h := ⟨ht, fun _ hx => hx⟩

theorem trans (hk : Z.Furnishes h₀ h k) (hl : Z.Furnishes h₀ k l) : Z.Furnishes h₀ h l :=
  ⟨hl.ties, fun x hx => hl.lasts x (hk.lasts x hx)⟩

theorem has {x : Cell} (hk : Z.Furnishes h₀ h k) (hx : Z.Has h x) : Z.Has k x := hx.mono hk.lasts

/-- A value that exists in the zone is written to an object of the zone. -/
theorem write (hk : Z.Furnishes h₀ h k) (ho : Z.Has k (.object o)) (hv : v.Within (Z.Has k))
    (key : String) (enumerable : Bool) : Z.Furnishes h₀ h (k.write o key v enumerable) :=
  ⟨hk.ties.write ho hv key enumerable,
    fun x hx => lasts_objects (fun _ => Store.isSome_modify _) x (hk.lasts x hx)⟩

theorem newObject (hk : Z.Furnishes h₀ h k) (hr : Z.own r) {q : Object}
    (hq : q.Stores (Z.Has k)) (hproto : ∀ p, q.proto = some p → Z.shown p) :
    Z.Furnishes h₀ h (k.newObject r q).2 ∧ Lasts k (k.newObject r q).2 ∧
      Z.Has (k.newObject r q).2 (.object (k.newObject r q).1) :=
  have hlasts : Lasts k (k.newObject r q).2 := lasts_objects fun _ => Store.isSome_push _
  ⟨⟨hk.ties.pushObject hr hq hproto, fun x hx => hlasts x (hk.lasts x hx)⟩, hlasts,
    hk.ties.objects.fresh_next hr, Store.isSome_next_push ..⟩

theorem newNative (hk : Z.Furnishes h₀ h k) (hr : Z.own r) {n : Native}
    (hn : Z.Has k (.object n.object)) :
    Z.Furnishes h₀ h (k.newNative r n).2 ∧ Lasts k (k.newNative r n).2 ∧
      Z.Has (k.newNative r n).2 (.native (k.newNative r n).1) :=
  have hlasts : Lasts k (k.newNative r n).2 := lasts_natives fun _ => Store.isSome_push _
  ⟨⟨hk.ties.pushNative hr hn, fun x hx => hlasts x (hk.lasts x hx)⟩, hlasts,
    hk.ties.natives.fresh_next hr, Store.isSome_next_push ..⟩

theorem newScope (hk : Z.Furnishes h₀ h k) (hr : Z.own r) {q : Scope} (hq : q.Within (Z.Has k)) :
    Z.Furnishes h₀ h (k.newScope r q).2 ∧ Lasts k (k.newScope r q).2 ∧
      Z.Has (k.newScope r q).2 (.scope (k.newScope r q).1) :=
  have hlasts : Lasts k (k.newScope r q).2 := lasts_scopes fun _ => Store.isSome_push _
  ⟨⟨hk.ties.pushScope hr hq, fun x hx => hlasts x (hk.lasts x hx)⟩, hlasts,
    hk.ties.scopes.fresh_next hr, Store.isSome_next_push ..⟩

theorem foldl {α : Type} {f : Heap → α → Heap}
    (hf : ∀ k a, Z.Furnishes h₀ h k → Z.Furnishes h₀ k (f k a)) (as : List α)
    (hk : Z.Furnishes h₀ h k) : Z.Furnishes h₀ h (as.foldl f k) := by
  induction as generalizing k with
  | nil => exact hk
  | cons a as ih => exact ih (hk.trans (hf k a hk))

theorem addMethod (hk : Z.Furnishes h₀ h k) (hr : Z.own r) (ho : Z.Has h (.object o))
    (constructible : Bool) (m : String × Builtin) :
    Z.Furnishes h₀ k (Builtin.addMethod r o constructible k m) := by
  obtain ⟨hbag, hlasts, hid⟩ := (refl hk.ties).newObject hr (q := .ofFunction) Object.stores_ofFunction
    fun _ hp => by cases hp
  obtain ⟨hmade, hlasts', hn⟩ := hbag.newNative hr
    (n := ⟨m.1, m.2, constructible, (k.newObject r .ofFunction).1⟩) hid
  exact hmade.write (((hk.has ho).mono hlasts).mono hlasts') ((Value.within_native _).mpr hn) m.1 false

theorem addNamespace (hk : Z.Furnishes h₀ h k) (hr : Z.own r) (ho : Z.Has h (.object o))
    (name : String) (constants : List (String × Float)) (methods : List (String × Builtin)) :
    Z.Furnishes h₀ h (Builtin.addNamespace r o name constants methods k) := by
  obtain ⟨hmade, -, hid⟩ := hk.newObject hr (q := .empty none) (Object.stores_empty none)
    fun _ hp => by cases hp
  have hconstants := foldl (f := fun h c => h.hide (k.newObject r (.empty none)).1 c.1 (.number c.2))
    (fun l c hl => (refl hl.ties).write (hl.has hid) (Value.within_number _) _ _) constants
    (refl hmade.ties)
  have hmethods := foldl (f := Builtin.addMethod r (k.newObject r (.empty none)).1 false)
    (fun l m hl => hl.addMethod hr hid false m) methods hconstants
  have hall := hmade.trans hmethods
  exact hall.write (hall.has ho) ((Value.within_object _).mpr (hmethods.has hid)) name false

/-- The standard functions belong to the zone. -/
theorem install (hk : Z.Furnishes h₀ h k) (hr : Z.own r) {global methods : ObjectId}
    {evalFunction : NativeId} (hglobal : Z.Has h (.object global)) (hmethods : Z.Has h (.object methods))
    (heval : Z.Has h (.native evalFunction)) :
    Z.Furnishes h₀ h (Builtin.install r global methods evalFunction k) := by
  unfold Builtin.install
  refine foldl (fun l m hl => hl.addMethod hr hmethods false m) _ ?_
  refine foldl (fun l m hl => hl.addMethod hr hglobal true m) _ ?_
  refine (fun hl : Z.Furnishes h₀ h _ => hl.write (hl.has hglobal)
    ((Value.within_native _).mpr (hl.has heval)) evalName false) ?_
  refine foldl (fun l m hl => hl.addMethod hr hglobal false m) _ ?_
  refine addNamespace (addNamespace ?_ hr hglobal ..) hr hglobal ..
  refine addNamespace (addNamespace ?_ hr hglobal ..) hr hglobal ..
  have hmath := hk.addNamespace hr hglobal "Math" Builtin.mathConstants Builtin.mathMethods
  exact hmath.write (hmath.has hglobal) (Value.within_number _) "Infinity" false

/-- The standard functions, if they are wanted. -/
theorem standard (hk : Z.Furnishes h₀ h k) (hr : Z.own r) (settings : Settings) {global methods : ObjectId}
    {evalFunction : NativeId} (hglobal : Z.Has h (.object global)) (hmethods : Z.Has h (.object methods))
    (heval : Z.Has h (.native evalFunction)) :
    Z.Furnishes h₀ h (if settings.installStdlib then Builtin.install r global methods evalFunction k
      else k) := by
  split
  · exact hk.install hr hglobal hmethods heval
  · exact hk

/-- Values under names on one object. -/
theorem defines (hk : Z.Furnishes h₀ h k) (ho : Z.Has h (.object o)) (vs : List (String × Value))
    (hvs : ∀ d ∈ vs, d.2.Within (Z.Has h)) :
    Z.Furnishes h₀ h (vs.foldl (fun h d => h.set o d.1 d.2) k) := by
  induction vs generalizing k with
  | nil => exact hk
  | cons d vs ih =>
    obtain ⟨hd, hvs⟩ := List.forall_mem_cons.mp hvs
    exact ih (hk.write (hk.has ho) (hk.lasts.within hd) d.1 true) hvs

end Furnishes

/-- **A new engine works in the zone.** -/
theorem Seats.create (ht : Z.Ties h h h h) {region : Nat} (hr : Z.own region) (name : String)
    (settings : Settings) {host : Option ObjectId} (hhost : ∀ p, host = some p → Z.shown p)
    {defs : List (String × Value)} (hdefs : ∀ d ∈ defs, d.2.Within (Z.Has h)) :
    Z.Furnishes h h (Engine.create h region name settings host defs).2 ∧
      Z.Seats (Engine.create h region name settings host defs).2
        (Engine.create h region name settings host defs).1 := by
  obtain ⟨h₁, -, hglobal⟩ := (Furnishes.refl ht).newObject hr (q := .empty host)
    (Object.stores_empty host) hhost
  have hroot : (⟨none, programName, .global (h.newObject region (.empty host)).1,
      .object (h.newObject region (.empty host)).1⟩ : Scope).Within
        (Z.Has (h.newObject region (.empty host)).2) := by
    refine ⟨fun p hp => absurd hp (Option.some_ne_none p).symm, fun v hv => ?_⟩
    rcases List.mem_cons.mp hv with rfl | hv
    · exact (Value.within_object _).mpr hglobal
    · exact List.mem_singleton.mp hv ▸ (Value.within_object _).mpr hglobal
  obtain ⟨h₂, hl₂, hscope⟩ := h₁.newScope hr hroot
  obtain ⟨h₃, hl₃, hmethods⟩ := h₂.newObject hr (q := .empty none) (Object.stores_empty none)
    fun _ hp => by cases hp
  obtain ⟨h₄, hl₄, hbag⟩ := h₃.newObject hr (q := .ofFunction) Object.stores_ofFunction
    fun _ hp => by cases hp
  obtain ⟨h₅, hl₅, heval⟩ := h₄.newNative hr (n := ⟨evalName, .eval, false, _⟩) hbag
  have hglobal₅ := (((hglobal.mono hl₂).mono hl₃).mono hl₄).mono hl₅
  have hmethods₅ := (hmethods.mono hl₄).mono hl₅
  have hscope₅ := ((hscope.mono hl₃).mono hl₄).mono hl₅
  have hlib := (Furnishes.refl h₅.ties).standard hr settings hglobal₅ hmethods₅ heval
  have hdefined := (Furnishes.refl hlib.ties).defines (hlib.has hglobal₅) defs fun d hd =>
    (h₅.trans hlib).lasts.within (hdefs d hd)
  have hlast := hdefined.lasts
  exact ⟨(h₅.trans hlib).trans hdefined, hr, (hlib.has hglobal₅).mono hlast, (hlib.has hscope₅).mono hlast,
    (hlib.has hmethods₅).mono hlast, (hlib.has heval).mono hlast,
    fun {n a} ha => by cases Links.getElem?_empty.symm.trans ha⟩

end Zone

/-! ## Sessions -/

namespace Session

variable {s : Session} {name : Option String} {settings : Settings} {host : Option ObjectId}
  {defs : List (String × Value)}

theorem size_addEngine : (s.addEngine name settings host defs).stations.size = s.stations.size + 1 :=
  Array.size_push ..

theorem station_addEngine_of_lt {j : Nat} (hj : j < s.stations.size) :
    (s.addEngine name settings host defs).station j = s.station j := by
  simp only [addEngine, station, Array.getElem?_push, Nat.ne_of_lt hj, if_false]

/-- The heap and the station of a new engine. -/
theorem addEngine_founds (s : Session) (name : Option String) (settings : Settings)
    (host : Option ObjectId) (defs : List (String × Value)) : ∃ n : String,
    (s.addEngine name settings host defs).heap =
      (Engine.create s.heap (engineRegion s.stations.size) n settings host defs).2 ∧
    (s.addEngine name settings host defs).station s.stations.size =
      { engine := (Engine.create s.heap (engineRegion s.stations.size) n settings host defs).1 } := by
  refine ⟨(name.or settings.name).getD ("engine-" ++ toString (engineRegion s.stations.size)), rfl, ?_⟩
  simp only [addEngine, station, Array.getElem?_push, if_true, Option.getD_some]

end Session

namespace Zone

variable {Y Z : Zone} {mine : Nat → Prop} {s : Session} {name : Option String} {settings : Settings}
  {host : Option ObjectId} {defs : List (String × Value)}

/-- One more engine is there. -/
theorem Alike.addEngine (hA : Z.Alike mine s s)
    (hties : Z.Ties (s.addEngine name settings host defs).heap (s.addEngine name settings host defs).heap
      (s.addEngine name settings host defs).heap (s.addEngine name settings host defs).heap)
    (hlasts : Lasts s.heap (s.addEngine name settings host defs).heap) :
    Z.Alike mine (s.addEngine name settings host defs) (s.addEngine name settings host defs) := by
  have hold : ∀ {j}, mine j → (s.addEngine name settings host defs).station j = s.station j :=
    fun hj => Session.station_addEngine_of_lt (hA.there hj)
  exact
    { ties := hties
      size := rfl
      fuel := rfl
      there := fun hj => Session.size_addEngine ▸ Nat.lt_succ_of_lt (hA.there hj)
      seats := fun hj => by
        unfold Session.engine
        rw [hold hj]
        exact (hA.seats hj).mono hlasts
      like := fun _ => ⟨rfl, .rfl⟩
      abreast := fun _ => .refl _
      parked := fun hj hf => (hA.parked hj (hold hj ▸ hf)).mono hlasts
      compiled := fun _ _ => rfl
      cached := fun hj hn => hA.cached hj (hold hj ▸ hn)
      cached' := fun hj hn => hA.cached hj (hold hj ▸ hn) }

/-- Nobody works in the zone yet. -/
theorem Ties.alike (ht : Z.Ties s.heap s.heap s.heap s.heap) : Z.Alike (fun _ => False) s s :=
  ⟨ht, rfl, rfl, False.elim, False.elim, False.elim, False.elim, False.elim, False.elim, False.elim,
    False.elim⟩

/-- **A new engine works in the zone**, beside those that do already. -/
theorem Alike.founded (hA : Z.Alike mine s s) (hr : Z.own (engineRegion s.stations.size))
    (hhost : ∀ p, host = some p → Z.shown p) (hdefs : ∀ d ∈ defs, d.2.Within (Z.Has s.heap)) :
    Z.Alike (fun j => mine j ∨ j = s.stations.size) (s.addEngine name settings host defs)
      (s.addEngine name settings host defs) ∧
      Z.Leaves s.heap (s.addEngine name settings host defs).heap := by
  obtain ⟨n, hheap, hstation⟩ := s.addEngine_founds name settings host defs
  obtain ⟨hfurnished, hseats⟩ := Seats.create hA.ties hr n settings hhost hdefs
  rw [← hheap] at hfurnished hseats
  have hold := hA.addEngine hfurnished.ties.anew hfurnished.lasts
  refine ⟨?_, hfurnished.ties.leaves⟩
  exact
    { ties := hold.ties
      size := rfl
      fuel := rfl
      there := fun hj => hj.elim hold.there fun hj =>
        Session.size_addEngine ▸ hj ▸ Nat.lt_succ_self _
      seats := fun {j} hj => by
        rcases hj with hj | rfl
        · exact hold.seats hj
        · unfold Session.engine
          rw [hstation]
          exact hseats
      like := fun _ => ⟨rfl, .rfl⟩
      abreast := fun _ => .refl _
      parked := fun {j f} hj hf => by
        rcases hj with hj | rfl
        · exact hold.parked hj hf
        · rw [hstation] at hf
          cases hf
      compiled := fun _ _ => rfl
      cached := fun {j hash m} hj hm => by
        rcases hj with hj | rfl
        · exact hold.cached hj hm
        · rw [hstation] at hm
          cases hm
      cached' := fun {j hash m} hj hm => by
        rcases hj with hj | rfl
        · exact hold.cached hj hm
        · rw [hstation] at hm
          cases hm }

/-- An engine that is founded elsewhere is nothing to those in the zone. -/
theorem Alike.beside (hA : Z.Alike mine s s)
    (hl : Y.Leaves s.heap (s.addEngine name settings host defs).heap) (hb : Y.Beyond Z) :
    Z.Alike mine (s.addEngine name settings host defs) (s.addEngine name settings host defs) :=
  hA.addEngine (hA.ties.frame hl hl hb rfl) hl.lasts

end Zone

end Fermata
