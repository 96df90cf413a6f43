import Fermata.Proofs.Array.Packed
import Fermata.Proofs.Backing.Access
import Fermata.Proofs.Lexical.Hygiene
import Fermata.Proofs.Session.During
import Fermata.Proofs.Walk.Chain

/-!
# Names behind a global object

The global object of an engine may inherit from an object of the host. Whatever is read from it is its own
property or else a property of that object; whatever is written or deleted is its own property alone
(`Core.ReadsThrough`). The reserved names `global`, `undefined` and `NaN` are no properties: the root answers
for them itself.

* `Heap.lookup?_eq`, `Heap.has_eq`: one step along a prototype chain.
* `Heap.EditsOnly`: one object has changed.
* `Core.Rooted.readsThrough`: what an engine makes of an object behind its global object.
-/

namespace Fermata

namespace Heap

variable {h k : Heap} {o p : ObjectId}

/-- A key is there if it has a value. -/
theorem has_eq (h : Heap) (id : ObjectId) (key : String) : h.has id key = (h.lookup? id key).isSome := by
  have hchain : ∀ n id, (h.alongChain (fun o => if o.hasOwn key then some () else none) n id).isSome =
      (h.alongChain (·.find? key) n id).isSome := by
    intro n
    induction n with
    | zero => exact fun _ => rfl
    | succ n ih =>
      intro id
      unfold alongChain
      dsimp only
      have hown := (h.objects.get id).isSome_find? key
      cases hf : (h.objects.get id).find? key with
      | some v =>
        rw [hf] at hown
        rw [← hown]
        rfl
      | none =>
        rw [hf] at hown
        rw [← hown]
        cases (h.objects.get id).proto with
        | none => rfl
        | some q => exact ih q
  exact hchain ..

/-- **A property is an own one, or one of the prototype.** -/
theorem lookup?_eq (hp : (h.objects.get o).proto = some p) (key : String) :
    h.lookup? o key = ((h.objects.get o).find? key).or (h.lookup? p key) := by
  have hwalk : h.alongChain (·.find? key) (h.objectCount + 1) o =
      ((h.objects.get o).find? key).or (h.lookup? p key) := by
    unfold alongChain
    dsimp only
    rw [hp]
    cases (h.objects.get o).find? key <;> rfl
  rw [← hwalk]
  exact (alongChain_eq rfl (Nat.le_succ _) o).symm

/-- Only this object has changed, and it has kept its prototype. -/
structure EditsOnly (h k : Heap) (o : ObjectId) : Prop where
  others : ∀ q, q ≠ o → k.objects.get? q = h.objects.get? q
  proto : (k.objects.get o).proto = (h.objects.get o).proto
  rest : k = { h with objects := k.objects }

theorem EditsOnly.refl (h : Heap) (o : ObjectId) : h.EditsOnly h o := ⟨fun _ _ => rfl, rfl, rfl⟩

theorem EditsOnly.modify (h : Heap) (o : ObjectId) {f : Object → Object}
    (hf : ∀ q : Object, (f q).proto = q.proto) :
    h.EditsOnly { h with objects := h.objects.modify o f } o := by
  refine ⟨fun q hq => ?_, ?_, rfl⟩
  · dsimp only
    rw [Store.get?_modify, if_neg hq]
  · dsimp only
    rw [Store.get, Store.get?_modify, if_pos rfl, Store.get]
    cases h.objects.get? o with
    | none => rfl
    | some q => exact hf q

theorem editsOnly_set (h : Heap) (o : ObjectId) (key : String) (v : Value) :
    h.EditsOnly (h.set o key v) o :=
  .modify h o fun q => Object.proto_put q key v _ true

theorem editsOnly_erase (h : Heap) (o : ObjectId) (key : String) : h.EditsOnly (h.erase o key) o :=
  .modify h o fun q => Object.proto_erase q key

end Heap

/-! ## Reading and writing through a global object -/

/-- The value of a global name: the own property of the global object, or else that of the object
behind it, or of its prototypes. -/
def Core.through? (c : Core) (p : ObjectId) (name : String) : Option Value :=
  ((c.heap.objects.get c.engine.global).find? name).or (c.heap.lookup? p name)

/-- The engine reads through its global object to this one, and does not write through it. -/
structure Core.ReadsThrough (c : Core) (p : ObjectId) : Prop where
  /-- The global object is another one. -/
  other : c.engine.global ≠ p
  /-- A property of the global object. -/
  property : ∀ key, c.heap.lookup? c.engine.global key = c.through? p key
  /-- At the root, every name leads to the global object. -/
  root : ∀ name, c.heap.place c.engine.root name = .global c.engine.global
  /-- A name that leads to the global object, from any scope. -/
  name : ∀ {scope name}, isValidName name = true → name ∉ reservedNames →
    c.heap.place scope name = .global c.engine.global →
    c.heap.getName scope name = (c.through? p name).elim (.error (.unbound name)) .ok
  /-- A name that the compiler made a member of the global object, since nothing binds it. -/
  member : ∀ key, Act.readMember (.object c.engine.global) key true c =
    (c.through? p key).elim (Act.scopeError (.unbound key) c) fun v => .ok v c
  /-- Such names are assigned to, and deleted, on the global object alone. -/
  assign : ∀ {scope name} {v : Value} {k : Heap},
    c.heap.place scope name = .global c.engine.global → c.heap.setName scope name v = .ok k →
    c.heap.EditsOnly k c.engine.global
  assignMember : ∀ key v, ∃ k, Act.setProperty (.object c.engine.global) key v c =
    .ok () { c with heap := k } ∧ c.heap.EditsOnly k c.engine.global
  deleteMember : ∀ key, ∃ k, Act.deleteProperty (.object c.engine.global) key c =
    .ok (.bool true) { c with heap := k } ∧ c.heap.EditsOnly k c.engine.global

namespace Core

variable {c : Core} {o p : ObjectId} {r : ScopeId}

/-- A name that is not reserved is a property for the root. -/
theorem globalValue?_eq (h : Heap) (o : ObjectId) {name : String} (hname : name ∉ reservedNames) :
    h.globalValue? o name = h.lookup? o name := by
  unfold reservedNames at hname
  simp only [List.mem_cons, List.not_mem_nil, or_false, not_or] at hname
  obtain ⟨hglobal, hundefined, hnan⟩ := hname
  unfold Heap.globalValue?
  rw [if_neg hglobal, if_neg hundefined, if_neg hnan]

/-- Reading a member of the global object that stands for a name. -/
theorem readMember_global (hp : (c.heap.objects.get c.engine.global).proto = some p) (key : String) :
    Act.readMember (.object c.engine.global) key true c =
      (c.through? p key).elim (Act.scopeError (.unbound key) c) fun v => .ok v c := by
  have hlookup : c.heap.lookup? c.engine.global key = c.through? p key := Heap.lookup?_eq hp key
  have hlacks : Act.lacks c.heap (.object c.engine.global) key = !(c.through? p key).isSome := by
    unfold Act.lacks Heap.holder?
    dsimp only
    rw [Heap.has_eq, hlookup]
  unfold Act.readMember
  rw [Act.reads_bind, Bool.true_and, hlacks]
  cases hv : c.through? p key with
  | none => rfl
  | some v =>
    have hproperty : Act.objectProperty c c.engine.global key = v := by
      unfold Act.objectProperty
      rw [hlookup, hv]
    change (.ok (Act.objectProperty c c.engine.global key) c : EStateM.Result _ _ _) = _
    rw [hproperty]
    rfl

/-- **An engine reads through its global object and does not write through it.** -/
theorem Rooted.readsThrough (hc : c.Rooted o r) (hp : (c.heap.objects.get o).proto = some p)
    (hne : o ≠ p) : c.ReadsThrough p := by
  obtain ⟨rfl, rfl, houtline⟩ := hc
  exact
    { other := hne
      property := Heap.lookup?_eq hp
      root := fun name => Heap.placeWithin_root houtline name _
      name := fun {scope name} hvalid hname hplace => by
        unfold Heap.getName
        rw [hvalid, hplace]
        dsimp only
        rw [globalValue?_eq _ _ hname, Heap.lookup?_eq hp]
        change _ = (((c.heap.objects.get c.engine.global).find? name).or (c.heap.lookup? p name)).elim _ _
        cases ((c.heap.objects.get c.engine.global).find? name).or (c.heap.lookup? p name) <;> rfl
      member := readMember_global hp
      assign := fun {scope name v k} hplace hk => by
        unfold Heap.setName Heap.target at hk
        split at hk
        · cases hk
        · rw [hplace] at hk
          cases hk
          unfold Heap.setAt
          dsimp only
          split
          · exact .refl ..
          · exact Heap.editsOnly_set ..
      assignMember := fun key v => ⟨_, rfl, Heap.editsOnly_set ..⟩
      deleteMember := fun key => ⟨_, rfl, Heap.editsOnly_erase ..⟩ }

end Core

/-!
## A host's object behind the global object

An engine may be made with a global object that inherits from an object of the host. The guest reads the
properties of that object under global names. It never gets at the object itself, unless the host hands
over something that gives access to it. So it cannot change it, in whatever order the host has its turns.

The proof follows a zone that has everything the engine gets at, and everything new, but not the object
(`Session.Backs`). A turn widens it by what it hands over. The zone is the reason why the object stays as
it is; that the engine keeps its global object, its root and the prototype of the one behind the other is
the reason why it goes on reading through.

* `Session.backs_addEngine`: the zone of a new engine.
* `Session.Backs.perform`, `Session.Backs.during`: one turn, and every core on the way.
* `Session.reads_through`: all turns.
-/

/-- What an engine is given that inherits from the object: the properties of the object, with those of its
prototypes, and values under names. -/
def Heap.Given (h : Heap) (p : ObjectId) (defines : List (String × Value)) (x : Cell) : Prop :=
  h.Exposes p x ∨ x ∈ Cell.ofValues (defines.map (·.2))

namespace Session

variable {s base : Session} {i : Nat} {p o : ObjectId} {r : ScopeId} {h₀ : Heap} {turn : Turn}

/-- A turn for the engine that hands over nothing that gives access to the object. -/
structure Withholds (s : Session) (i : Nat) (p : ObjectId) (turn : Turn) : Prop where
  engine : turn.IsFor i
  supplied : s.heap.Withholds (· ∈ turn.supplied) p

/-- All of these turns are such turns. -/
def WithholdsAll (s : Session) (i : Nat) (p : ObjectId) : List Turn → Prop
  | [] => True
  | turn :: turns => s.Withholds i p turn ∧ (s.perform turn).2.WithholdsAll i p turns

/-- The engine reads through its global object `o` behind the root `r` to an object that it does not get
at, and that is what it was on `h₀`. -/
structure Backs (h₀ : Heap) (p o : ObjectId) (r : ScopeId) (i : Nat) (s : Session) : Prop where
  zone : ∃ Z : Zone, Z.Sole ∧ Z.Alike (· = i) s s ∧ ¬Z.cells (.object p)
  there : s.heap.contains (.object o) = true
  rooted : (s.core i).Rooted o r
  proto : (s.heap.objects.get o).proto = some p
  kept : s.heap.objects.get? p = h₀.objects.get? p
  other : o ≠ p

namespace Backs

/-- The zone with what a turn hands over. -/
theorem admits (hs : Backs h₀ p o r i s) (hturn : s.Withholds i p turn) :
    ∃ Z : Zone, Z.Sole ∧ Z.Alike (· = i) s s ∧ ¬Z.cells (.object p) ∧ Z.Admits (· = i) s turn := by
  obtain ⟨Z, hZ, hA, haway⟩ := hs.zone
  have hpresent := hturn.supplied.present
  exact ⟨_, hZ.widen .., hA.widen hZ hpresent, fun hp => hp.elim haway hturn.supplied.never,
    hturn.engine, fun x hx => Zone.has_widen hpresent (.root hx)⟩

/-- A heap on which nothing outside of such a zone has changed. -/
theorem of_leaves (hs : Backs h₀ p o r i s) {Z : Zone} {k : Heap} (haway : ¬Z.cells (.object p))
    (hl : Z.Leaves s.heap k) :
    (k.objects.get o).proto = some p ∧ k.objects.get? p = h₀.objects.get? p :=
  ⟨(hl.kin o hs.there).trans hs.proto, (hl.object p haway).trans hs.kept⟩

/-- **One turn** leaves the object as it is, and the engine reading through. -/
theorem perform (hs : Backs h₀ p o r i s) (hturn : s.Withholds i p turn) :
    Backs h₀ p o r i (s.perform turn).2 := by
  obtain ⟨Z, hZ, hA, haway, hadmits⟩ := hs.admits hturn
  have hconcurs : ∀ j, j = i → Z.Concurs j s s := fun j _ =>
    { left := fun _ _ _ _ _ _ _ => hZ.seen _
      right := fun _ _ _ _ _ _ _ => hZ.seen _
      roots := fun _ _ => Iff.rfl }
  obtain ⟨⟨-, hpasses⟩, -⟩ := hA.perform hadmits hconcurs (fun _ _ => rfl) fun _ _ => rfl
  obtain ⟨hproto, hkept⟩ := hs.of_leaves haway hpasses.left.heap
  exact
    { zone := ⟨Z, hZ, hpasses.alike, haway⟩
      there := hpasses.left.heap.lasts _ hs.there
      rooted := (Invariant.lasting_rooted o r).perform (hA.there rfl) hturn.engine hs.rooted
      proto := hproto
      kept := hkept
      other := hs.other }

/-- **Every core in the course of a turn** has the object as it was, and reads through. -/
theorem during (hs : Backs h₀ p o r i s) (hturn : s.Withholds i p turn) {m : Machine} {c : Core}
    (hd : s.During turn m c) :
    c.heap.objects.get? p = h₀.objects.get? p ∧ c.ReadsThrough p := by
  obtain ⟨Z, hZ, hA, haway, hadmits⟩ := hs.admits hturn
  have hrel : Z.Rel s.heap s.heap c c := (hA.during hadmits hd).rel
  obtain ⟨hproto, hkept⟩ := hs.of_leaves haway hrel.ties.leaves
  have hrooted : c.Rooted o r := (Invariant.lasting_rooted o r).during hturn.engine hs.rooted hd
  exact ⟨hkept, hrooted.readsThrough hproto hs.other⟩

/-- **All turns.** -/
theorem after {turns : List Turn} (hs : Backs h₀ p o r i s) (hturns : s.WithholdsAll i p turns) :
    Backs h₀ p o r i (s.after turns) := by
  induction turns generalizing s with
  | nil => exact hs
  | cons turn turns ih => exact ih (hs.perform hturns.1) hturns.2

end Backs

/-! ### The start -/

/-- **A new engine reads through its global object.** -/
theorem backs_addEngine (name : Option String) (settings : Settings) {defines : List (String × Value)}
    (hp : base.heap.contains (.object p) = true)
    (hgiven : base.heap.Withholds (base.heap.Given p defines) p) :
    Backs base.heap p (base.heap.objects.next (engineRegion base.stations.size))
      (base.heap.scopes.next (engineRegion base.stations.size)) base.stations.size
      (base.addEngine name settings (some p) defines) := by
  obtain ⟨n, hheap, hstation⟩ := base.addEngine_founds name settings (some p) defines
  have hmade := Engine.create_furnished base.heap (engineRegion base.stations.size) n settings (some p)
    defines
  rw [← hheap] at hmade
  -- the zone: what is exposed behind the global object, what is defined, and all that is new
  have hties := Zone.ties_unborn (p := p) (R := base.heap.Given p defines) (fun x hx => .inl hx)
    hgiven.present
  have hhost : ∀ q, some p = some q → ((Zone.unborn base.heap p).widen base.heap
      (base.heap.Given p defines)).shown q := fun q hq => Option.some.inj hq ▸ .inl (.inr .refl)
  have hdefines : ∀ d ∈ defines, d.2.Within (((Zone.unborn base.heap p).widen base.heap
      (base.heap.Given p defines)).Has base.heap) := fun d hd x hx =>
    Zone.has_widen hgiven.present (.root (.inr (List.mem_filterMap.mpr ⟨d.2, List.mem_map_of_mem hd, hx⟩)))
  obtain ⟨halike, hleft⟩ := hties.alike.founded (s := base) trivial hhost hdefines
  have hmine : (fun j => False ∨ j = base.stations.size) = (· = base.stations.size) :=
    funext fun j => propext (by rw [false_or])
  rw [hmine] at halike
  have haway : ¬((Zone.unborn base.heap p).widen base.heap (base.heap.Given p defines)).cells
      (.object p) := by
    rintro (hmissing | hoffered)
    · cases hp.symm.trans hmissing
    · exact hgiven.never hoffered
  -- the global object, as it was made
  have hnew : (base.heap.nextGlobal (engineRegion base.stations.size) (some p)).objects.get?
      (base.heap.objects.next (engineRegion base.stations.size)) = some (.empty (some p)) := by
    unfold Heap.nextGlobal
    dsimp only
    rw [Store.get?_push, if_pos rfl]
  obtain ⟨o', hglobal, hproto⟩ := hmade.objects _ _ hnew
  have hengine : ((base.addEngine name settings (some p) defines).core base.stations.size).engine =
      (Engine.create base.heap (engineRegion base.stations.size) n settings (some p) defines).1 :=
    congrArg Station.engine hstation
  exact
    { zone := ⟨_, (Zone.sole_unborn base.heap p).widen .., halike, haway⟩
      there := Option.isSome_iff_exists.mpr ⟨o', hglobal⟩
      rooted := by
        refine ⟨by rw [hengine]; rfl, by rw [hengine]; rfl, ?_⟩
        refine (Heap.outline_push hmade.scopes _).trans ?_
        exact if_pos rfl
      proto := by
        rw [Store.get_of_get? hglobal]
        exact hproto
      kept := hleft.object p haway
      other := by
        rintro rfl
        have hnone : base.heap.objects.get? (base.heap.objects.next (engineRegion base.stations.size)) =
            none := Store.get?_next ..
        cases (congrArg Option.isSome hnone).symm.trans hp }

/-! ### The result -/

/-- **A host's object is read through, not written.** An engine is made with a global object that inherits
from the object. If nothing gives access to the object, of what the engine is given or a turn hands over,
then after any turns, and in the course of a further one, the object is what it was, and the engine reads
through its global object to it. -/
theorem reads_through (name : Option String) (settings : Settings) {defines : List (String × Value)}
    (hp : base.heap.contains (.object p) = true)
    (hgiven : base.heap.Withholds (base.heap.Given p defines) p) {turns : List Turn}
    (hturns : (base.addEngine name settings (some p) defines).WithholdsAll base.stations.size p turns) :
    let t := (base.addEngine name settings (some p) defines).after turns
    t.heap.objects.get? p = base.heap.objects.get? p ∧ (t.core base.stations.size).ReadsThrough p ∧
      ∀ turn, t.Withholds base.stations.size p turn → ∀ m c, t.During turn m c →
        c.heap.objects.get? p = base.heap.objects.get? p ∧ c.ReadsThrough p := by
  have hend := (backs_addEngine name settings hp hgiven).after hturns
  exact ⟨hend.kept, hend.rooted.readsThrough hend.proto hend.other,
    fun turn hturn m c hd => hend.during hturn hd⟩

/-- An object of a host with one property. -/
def hosting (key : String) (v : Value) : Session :=
  { heap := (({} : Heap).newObject hostRegion
      { class_ := .plain, properties := [⟨key, v, true⟩] }).2, fuel := 100 }

/-- Nothing gives access to such an object, if its property is no cell. -/
theorem withholds_hosting {key : String} {v : Value} (hv : Cell.ofValue? v = none) :
    (hosting key v).heap.Withholds ((hosting key v).heap.Given ⟨hostRegion, 0⟩ []) ⟨hostRegion, 0⟩ := by
  have hchain : ∀ q, (hosting key v).heap.Inherits ⟨hostRegion, 0⟩ q → q = ⟨hostRegion, 0⟩ := by
    intro q hq
    induction hq with
    | refl => rfl
    | proto _ hproto ih =>
      subst ih
      cases hproto
  have hnothing : ∀ x, ¬(hosting key v).heap.Offers
      ((hosting key v).heap.Given ⟨hostRegion, 0⟩ []) x := by
    intro x hx
    induction hx with
    | root hx =>
      rcases hx with ⟨q, hq, hx⟩ | hx
      · obtain rfl := hchain q hq
        have hcells : Cell.ofValues [v] = [] := by
          unfold Cell.ofValues
          rw [List.filterMap_cons, hv]
          rfl
        have hmem : _ ∈ Cell.ofValues [v] := hx
        rw [hcells] at hmem
        cases hmem
      · cases hx
    | property _ _ ih => exact ih
    | behind _ _ _ ih => exact ih
  exact ⟨hnothing _, fun x hx => absurd hx (hnothing x)⟩

/-- Sources hand nothing over. -/
theorem withholdsAll_run (s : Session) (i : Nat) (p : ObjectId) (sources : List String) :
    s.WithholdsAll i p (sources.map (Turn.run i)) := by
  induction sources generalizing s with
  | nil => trivial
  | cons source sources ih =>
    have hnone : ∀ x, ¬s.heap.Offers (· ∈ (Turn.run i source).supplied) x := by
      intro x hx
      induction hx with
      | root hx => cases hx
      | property _ _ ih => exact ih
      | behind _ _ _ ih => exact ih
    exact ⟨⟨fun j hj => (Option.some.inj hj).symm, hnone _, fun x hx => absurd hx (hnone x)⟩, ih _⟩

/-- A guest assigns to the name of a property of the host's object, and deletes it. -/
theorem reads_through_shared :
    let base := hosting "shared" (.bool true)
    let p : ObjectId := ⟨hostRegion, 0⟩
    let i := base.stations.size
    let turns := ["shared = !shared; shared", "delete shared; shared"].map (Turn.run i)
    base.heap.contains (.object p) = true ∧ base.heap.Withholds (base.heap.Given p []) p ∧
      (base.addEngine none {} (some p) []).WithholdsAll i p turns ∧
      let t := (base.addEngine none {} (some p) []).after turns
      t.heap.objects.get? p = base.heap.objects.get? p ∧ (t.core i).ReadsThrough p ∧
        ∀ turn, t.Withholds i p turn → ∀ m c, t.During turn m c →
          c.heap.objects.get? p = base.heap.objects.get? p ∧ c.ReadsThrough p := by
  intro base p i turns
  have hp : base.heap.contains (.object p) = true := rfl
  have hgiven : base.heap.Withholds (base.heap.Given p []) p := withholds_hosting rfl
  have hturns := withholdsAll_run (base.addEngine none {} (some p) []) i p
    ["shared = !shared; shared", "delete shared; shared"]
  exact ⟨hp, hgiven, hturns, reads_through none {} hp hgiven hturns⟩

/-- A reserved name is not read through: the root answers for it, whatever the host's object has. -/
theorem undefined_not_read_through :
    let base := hosting "undefined" (.bool true)
    let p : ObjectId := ⟨hostRegion, 0⟩
    let s := base.addEngine none { installStdlib := false } (some p) []
    base.heap.contains (.object p) = true ∧ base.heap.Withholds (base.heap.Given p []) p ∧
      (s.core 0).through? p "undefined" = some (.bool true) ∧
      s.heap.getName (s.engine 0).root "undefined" = .ok .undefined :=
  ⟨rfl, withholds_hosting rfl, rfl, rfl⟩

end Session

end Fermata
