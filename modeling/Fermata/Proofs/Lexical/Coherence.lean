import Fermata.Proofs.Array.Write
import Fermata.Proofs.Backing.ReadThrough
import Mathlib.Computability.RegularExpressions
import Mathlib.Logic.Relation

/-!
# Names along a chain of scopes

Reading, writing and asking for a name each walk up a chain of scopes on their own, and so does the list
of the visible names, by which code is compiled that is to run in a scope. They all stop at the same
scope: the nearest one that binds the name, or the root (`Heap.Chain.place_eq`).

* `Name.pattern`, `Name.isValidName_iff`: what a name looks like.
* `Heap.Chain`: the scopes of a chain, innermost first, each with its names.
* `Heap.Rebinds`, `Heap.Puts`: the two changes that writing a name can make.
* `Heap.Coherent`: what it means that the walks agree.
* `Session.retains_step`, `Session.retains_running`: a scope keeps its names, whatever hosts and guests do.
* `Session.chain_coherent`: the walks agree, and the names stay.
* `Session.Grounded`: the scopes that engines hold begin such chains, whatever guests do
  (`Session.Grounded.perform`), unless a host makes up a scope.
-/

namespace Fermata

/-! ## What a name looks like -/

namespace Name

/-- The characters from one to another. -/
def charsFrom (first last : Char) : List Char :=
  (List.range' first.toNat (last.toNat + 1 - first.toNat)).map Char.ofNat

/-- One of some characters. -/
def oneOf (cs : List Char) : RegularExpression Char :=
  cs.foldr (fun c p => .char c + p) 0

/-- What a name can start with: `$A-Za-z_`. -/
def starts : List Char := '$' :: charsFrom 'A' 'Z' ++ charsFrom 'a' 'z' ++ ['_']

/-- What a name can go on with: `$0-9A-Za-z_`. -/
def parts : List Char :=
  '$' :: charsFrom '0' '9' ++ charsFrom 'A' 'Z' ++ charsFrom 'a' 'z' ++ ['_']

/-- The names of the guest language: `[$A-Za-z_][$0-9A-Za-z_]*`. -/
def pattern : RegularExpression Char := oneOf starts * (oneOf parts).star

/-- The text is a name. -/
def Matches (x : String) : Prop := x.toList ∈ pattern.matches'

/-- Code points below the surrogates stand for characters. -/
theorem toNat_ofNat {n : Nat} (h : n < 0xD800) : (Char.ofNat n).toNat = n := by
  rw [Char.ofNat, dif_pos (.inl h)]
  rfl

theorem mem_charsFrom {first last c : Char} (hlast : last.toNat < 0xD800) :
    c ∈ charsFrom first last ↔ first ≤ c ∧ c ≤ last := by
  have hle (a b : Char) : a ≤ b ↔ a.toNat ≤ b.toNat := Iff.rfl
  simp only [charsFrom, List.mem_map, List.mem_range'_1, hle]
  constructor
  · rintro ⟨n, hn, rfl⟩
    rw [toNat_ofNat (by omega)]
    omega
  · exact fun h => ⟨c.toNat, by omega, Char.ofNat_toNat c⟩

theorem mem_oneOf {cs text : List Char} : text ∈ (oneOf cs).matches' ↔ ∃ c ∈ cs, text = [c] := by
  induction cs with
  | nil => simp [oneOf]
  | cons c cs ih =>
    have hchar : text ∈ (RegularExpression.char c).matches' ↔ text = [c] := Iff.rfl
    rw [oneOf, List.foldr_cons, RegularExpression.matches'_add, Language.mem_add, ← oneOf, ih, hchar,
      List.exists_mem_cons_iff]

theorem mem_star_oneOf {cs text : List Char} :
    text ∈ (oneOf cs).star.matches' ↔ ∀ c ∈ text, c ∈ cs := by
  rw [RegularExpression.matches'_star, Language.mem_kstar]
  constructor
  · rintro ⟨pieces, rfl, hpieces⟩ c hc
    obtain ⟨piece, hpiece, hc⟩ := List.mem_flatten.mp hc
    obtain ⟨d, hd, rfl⟩ := mem_oneOf.mp (hpieces piece hpiece)
    rwa [List.mem_singleton.mp hc]
  · intro h
    refine ⟨text.map fun c => [c], (List.flatMap_singleton' text).symm, fun piece hpiece => ?_⟩
    obtain ⟨c, hc, rfl⟩ := List.mem_map.mp hpiece
    exact mem_oneOf.mpr ⟨c, h c hc, rfl⟩

theorem isNameStart_iff {c : Char} : Text.isNameStart c = true ↔ c ∈ starts := by
  simp only [Text.isNameStart, Text.isLetter, starts, List.cons_append, List.mem_cons, List.mem_append,
    List.not_mem_nil, or_false, mem_charsFrom (show ('Z' : Char).toNat < 0xD800 by decide),
    mem_charsFrom (show ('z' : Char).toNat < 0xD800 by decide), Bool.or_eq_true, Bool.and_eq_true,
    decide_eq_true_eq]
  tauto

theorem isNamePart_iff {c : Char} : Text.isNamePart c = true ↔ c ∈ parts := by
  simp only [Text.isNamePart, Bool.or_eq_true, isNameStart_iff, starts, parts, List.cons_append,
    List.mem_cons, List.mem_append, mem_charsFrom (show ('9' : Char).toNat < 0xD800 by decide),
    Bool.and_eq_true, decide_eq_true_eq]
  tauto

/-- **Names are what the pattern matches.** -/
theorem isValidName_iff {x : String} : isValidName x = true ↔ Matches x := by
  unfold isValidName Text.isName Matches pattern
  rw [RegularExpression.matches'_mul, Language.mem_mul]
  constructor
  · intro h
    cases htext : x.toList with
    | nil =>
      rw [htext] at h
      cases h
    | cons c cs =>
      rw [htext] at h
      obtain ⟨hc, hcs⟩ := Bool.and_eq_true_iff.mp h
      exact ⟨[c], mem_oneOf.mpr ⟨c, isNameStart_iff.mp hc, rfl⟩, cs,
        mem_star_oneOf.mpr fun d hd => isNamePart_iff.mp (List.all_eq_true.mp hcs d hd), rfl⟩
  · rintro ⟨text, htext, cs, hcs, hx⟩
    obtain ⟨c, hc, rfl⟩ := mem_oneOf.mp htext
    rw [← hx]
    exact Bool.and_eq_true_iff.mpr ⟨isNameStart_iff.mpr hc, List.all_eq_true.mpr fun d hd =>
      isNamePart_iff.mpr (mem_star_oneOf.mp hcs d hd)⟩

end Name

/-! ## Chains -/

namespace Heap

/-- The scopes from this one up to the root, innermost first and without the root, each with the names that
it binds. A scope is younger than its parent. -/
inductive Chain (h : Heap) (root : ScopeId) : ScopeId → List (ScopeId × List String) → Prop
  | root : Chain h root root []
  | child {i j names links} : h.outline i = some (some j, .inr names) → j.index < i.index →
      Chain h root j links → Chain h root i ((i, names) :: links)

/-- The nearest scope that binds a name. -/
def binder? (x : String) : List (ScopeId × List String) → Option ScopeId
  | [] => none
  | (id, names) :: links => if x ∈ names then some id else binder? x links

variable {h k : Heap} {root id b : ScopeId} {links : List (ScopeId × List String)} {g : ObjectId}
  {x : String} {v : Value}

theorem isSome_binder? : (binder? x links).isSome = true ↔ x ∈ links.flatMap (·.2) := by
  induction links with
  | nil => simp [binder?]
  | cons link links ih =>
    rw [binder?, List.flatMap_cons, List.mem_append, ← ih]
    split
    next hx => simp [hx]
    next hx => simp [hx]

/-- The nearest scope that binds a name is on the chain. -/
theorem mem_of_binder? (hb : binder? x links = some b) : ∃ names, (b, names) ∈ links ∧ x ∈ names := by
  induction links with
  | nil => cases hb
  | cons link links ih =>
    rw [binder?] at hb
    split at hb
    next hx =>
      cases hb
      exact ⟨link.2, List.mem_cons_self, hx⟩
    next =>
      obtain ⟨names, hmem, hx⟩ := ih hb
      exact ⟨names, List.mem_cons_of_mem _ hmem, hx⟩

namespace Chain

theorem descends (hc : h.Chain root id links) : h.Descends root id := by
  induction hc with
  | root => exact .root
  | child ho hage _ ih => exact .child ho hage ih

theorem retains (hc : h.Chain root id links) (hk : h.Retains k) : k.Chain root id links := by
  induction hc with
  | root => exact .root
  | child ho hage _ ih => exact .child (hk _ _ ho) hage ih

theorem outline_of_mem {names : List String} (hc : h.Chain root id links) (hmem : (b, names) ∈ links) :
    ∃ parent, h.outline b = some (parent, .inr names) := by
  induction hc with
  | root => cases hmem
  | child ho _ _ ih =>
    rcases List.mem_cons.mp hmem with heq | hmem
    · cases heq
      exact ⟨_, ho⟩
    · exact ih hmem

/-- A new scope makes a chain longer. -/
theorem newChild {parent : ScopeId} (hc : h.Chain root parent links)
    (hthere : (h.outline parent).isSome = true) (owner : String) (bindings : List Binding)
    (this : Value) :
    (h.newChild parent owner bindings this).2.Chain root (h.newChild parent owner bindings this).1
      (((h.newChild parent owner bindings this).1, bindings.map Binding.name) :: links) := by
  have hpush : (h.newChild parent owner bindings this).2.scopes =
      h.scopes.push parent.region ⟨some parent, owner, .locals bindings, this⟩ := rfl
  have hid : (h.newChild parent owner bindings this).1 = h.scopes.next parent.region := rfl
  have hold : (h.scopes.get? parent).isSome = true := by rwa [← Option.isSome_map]
  refine .child ?_ (Store.index_lt_next hold) (hc.retains (.of_push hpush))
  rw [outline_push hpush, hid, if_pos rfl]
  rfl

/-- **Where a name leads to**: to the nearest scope that binds it, or to the global object. -/
theorem place_eq (hc : h.Chain root id links)
    (hroot : h.outline root = some (none, .inl g)) (x : String) :
    h.place id x = (binder? x links).elim (.global g) .binding := by
  induction hc with
  | root => exact placeWithin_root hroot x _
  | @child i j names links ho hage hrest ih =>
    rw [binder?]
    by_cases hx : x ∈ names
    · rw [place_own ho hx, if_pos hx]
      rfl
    · rw [(Descends.child ho hage hrest.descends).place_parent hroot ho hx, ih, if_neg hx]

end Chain

/-! ## Visible names -/

theorem nodup_eraseDups (names : List String) : names.eraseDups.Nodup := by
  cases names with
  | nil => exact .nil
  | cons x xs =>
    rw [List.eraseDups_cons, List.nodup_cons]
    refine ⟨fun hx => ?_, nodup_eraseDups _⟩
    simpa using (List.mem_filter.mp (List.mem_eraseDups.mp hx)).2
termination_by names.length
decreasing_by exact Nat.lt_succ_of_le (List.length_filter_le ..)

theorem eraseDups_of_nodup {names : List String} (h : names.Nodup) : names.eraseDups = names := by
  induction names with
  | nil => rfl
  | cons x xs ih =>
    obtain ⟨hx, hxs⟩ := List.nodup_cons.mp h
    rw [List.eraseDups_cons, List.filter_eq_self.mpr, ih hxs]
    rintro y hy
    have hne : y ≠ x := fun heq => hx (heq ▸ hy)
    simpa using hne

/-- Names that come again later do not matter. -/
theorem eraseDups_eraseDups_append (names rest : List String) :
    (names.eraseDups ++ rest).eraseDups = (names ++ rest).eraseDups := by
  have hsame : rest.removeAll names.eraseDups = rest.removeAll names := by
    refine List.filter_congr fun x _ => ?_
    rw [Bool.eq_iff_iff]
    simp
  rw [List.eraseDups_append, List.eraseDups_append, hsame, eraseDups_of_nodup (nodup_eraseDups names)]

/-- Adding names that are not yet there leaves out the later ones of equal names. -/
theorem foldl_names_eq {bindings : List Binding} {names : List String} (hnames : names.Nodup) :
    bindings.foldl (fun ns b => if ns.contains b.name then ns else ns ++ [b.name]) names =
      (names ++ bindings.map Binding.name).eraseDups := by
  induction bindings generalizing names with
  | nil => rw [List.map_nil, List.append_nil, eraseDups_of_nodup hnames, List.foldl_nil]
  | cons b bs ih =>
    rw [List.foldl_cons, List.map_cons]
    by_cases hb : b.name ∈ names
    · rw [if_pos (List.contains_iff_mem.mpr hb), ih hnames, List.eraseDups_append,
        List.eraseDups_append, List.removeAll, List.removeAll, List.filter_cons_of_neg]
      simpa using hb
    · rw [if_neg fun hmem => hb (List.contains_iff_mem.mp hmem), ih ?_, List.append_assoc,
        List.singleton_append]
      exact List.nodup_append_comm.mp (List.nodup_cons.mpr ⟨hb, hnames⟩)

theorem Chain.visibleWithin_eq {n : Nat} {names : List String} (hc : h.Chain root id links)
    (hroot : h.outline root = some (none, .inl g)) (hn : id.index < n) (hnames : names.Nodup) :
    h.visibleWithin n id names = (names ++ links.flatMap (·.2)).eraseDups := by
  induction hc generalizing n names with
  | root =>
    obtain ⟨n, rfl⟩ := Nat.exists_eq_add_one_of_ne_zero (Nat.ne_zero_of_lt hn)
    obtain ⟨s, hs, heq⟩ := Option.map_eq_some_iff.mp hroot
    have hget : h.scopes.get root = s := by rw [Store.get, hs, Option.getD_some]
    have hstorage : s.storage = .global g := Storage.shape_eq_inl (congrArg Prod.snd heq)
    have hparent : s.parent = none := congrArg Prod.fst heq
    unfold visibleWithin
    dsimp only
    rw [hget, hstorage, hparent, List.flatMap_nil, List.append_nil, eraseDups_of_nodup hnames]
  | @child i j own links ho hage _ ih =>
    obtain ⟨n, rfl⟩ := Nat.exists_eq_add_one_of_ne_zero (Nat.ne_zero_of_lt hn)
    obtain ⟨hparent, bindings, hstorage, rfl⟩ := get_of_outline ho
    unfold visibleWithin
    dsimp only
    rw [hstorage, hparent]
    dsimp only
    rw [foldl_names_eq hnames, ih (by omega) (nodup_eraseDups _), eraseDups_eraseDups_append,
      List.flatMap_cons, List.append_assoc]

/-- **The visible names** are those of the chain, each where it comes first. -/
theorem Chain.visibleNames_eq (hc : h.Chain root id links)
    (hroot : h.outline root = some (none, .inl g)) :
    h.visibleNames id = (links.flatMap (·.2)).eraseDups :=
  hc.visibleWithin_eq hroot (Nat.lt_succ_self _) .nil

/-! ## Reading and writing -/

/-- One binding has another value: the first one of the name in the scope. -/
structure Rebinds (h k : Heap) (b : ScopeId) (x : String) (w v : Value) : Prop where
  storage : ∃ before after, (h.scopes.get b).storage = .locals (before ++ ⟨x, w⟩ :: after) ∧
    x ∉ before.map Binding.name ∧ k.scopes.get? b =
      some { h.scopes.get b with storage := .locals (before ++ ⟨x, v⟩ :: after) }
  others : ∀ i ≠ b, k.scopes.get? i = h.scopes.get? i
  rest : k = { h with scopes := k.scopes }

/-- One own property of an object has been overwritten, or added after the others. -/
structure Puts (h k : Heap) (g : ObjectId) (x : String) (v : Value) : Prop where
  own : (k.objects.get g).find? x = some v
  names : (k.objects.get g).names =
    if x ∈ (h.objects.get g).names then (h.objects.get g).names else (h.objects.get g).names ++ [x]
  properties : ∀ key ≠ x, (k.objects.get g).stored? key = (h.objects.get g).stored? key
  object : k.objects.get g = { h.objects.get g with properties := (k.objects.get g).properties }
  others : ∀ i ≠ g, k.objects.get? i = h.objects.get? i
  rest : k = { h with objects := k.objects }

theorem overwrite_split {before after : List Binding} {w : Value} (hx : x ∉ before.map Binding.name) :
    Storage.overwrite x v (before ++ ⟨x, w⟩ :: after) = before ++ ⟨x, v⟩ :: after := by
  induction before with
  | nil => exact if_pos rfl
  | cons b bs ih =>
    rw [List.map_cons, List.mem_cons, not_or] at hx
    rw [List.cons_append, Storage.overwrite, if_neg fun heq => hx.1 heq.symm, ih hx.2]
    rfl

/-- What a scope binds is read and written in the first binding of the name. -/
theorem rebinds_setLocal {parent : Option ScopeId} {names : List String}
    (ho : h.outline b = some (parent, .inr names)) (hx : x ∈ names) :
    ∃ w, (h.scopes.get b).storage.localValue? x = some w ∧
      ∀ v, h.Rebinds (h.setLocal b x v) b x w v := by
  obtain ⟨-, bindings, hs, rfl⟩ := get_of_outline ho
  obtain ⟨binding, hfind⟩ : ∃ binding, bindings.find? (·.name == x) = some binding :=
    Option.isSome_iff_exists.mp
      (List.find?_isSome.mpr (List.any_eq_true.mp (Storage.any_iff.mpr hx)))
  obtain ⟨hname, before, after, rfl, hbefore⟩ := List.find?_eq_some_iff_append.mp hfind
  obtain ⟨x', w⟩ := binding
  obtain rfl : x' = x := by simpa using hname
  have hfirst : x' ∉ before.map Binding.name := by
    rw [List.mem_map]
    rintro ⟨c, hc, hcname⟩
    simpa [hcname] using hbefore c hc
  refine ⟨w, by rw [hs]; exact congrArg (Option.map Binding.value) hfind, fun v =>
    ⟨⟨before, after, hs, hfirst, ?_⟩, fun i hi => ?_, rfl⟩⟩
  · obtain ⟨s, hget, -⟩ := Option.map_eq_some_iff.mp ho
    have hself : h.scopes.get b = s := by rw [Store.get, hget, Option.getD_some]
    rw [hself] at hs
    unfold setLocal
    dsimp only
    rw [Store.get?_modify, if_pos rfl, hself, hget, Option.map_some, hs, Storage.setLocal,
      overwrite_split hfirst]
  · unfold setLocal
    dsimp only
    rw [Store.get?_modify, if_neg hi]

/-- Writing to an object that is no array writes one own property. -/
theorem puts_set {o : Object} (hg : h.objects.get? g = some o) (hplain : o.isArray = false)
    (x : String) (v : Value) : h.Puts (h.set g x v) g x v := by
  have hold : h.objects.get g = o := by rw [Store.get, hg, Option.getD_some]
  have hnew : (h.set g x v).objects.get g = o.store x v true := by
    rw [Heap.set, Object.get_write hg, Object.put, hplain, if_neg Bool.false_ne_true]
  refine ⟨?_, ?_, fun key hkey => ?_, ?_, (editsOnly_set h g x v).others, rfl⟩
  · rw [hnew, Object.find?, Object.isArray_store, hplain, if_neg Bool.false_ne_true,
      Object.value_stored?_store, if_pos rfl]
  · rw [hnew, hold, Object.names_store]
  · rw [hnew, hold, Object.stored?_store_of_ne hkey]
  · rw [hnew, hold]
    unfold Object.store
    split <;> rfl

/-- An own property is found first. -/
theorem lookup?_of_find? (hv : (h.objects.get g).find? x = some v) : h.lookup? g x = some v := by
  rw [lookup?, ← alongChain_eq rfl (Nat.le_succ h.objectCount) g, alongChain, hv]

/-- What can be read at the root: the reserved names, and the properties of the global object. -/
theorem isSome_globalValue? (h : Heap) (g : ObjectId) (x : String) :
    (h.globalValue? g x).isSome = (reservedNames.contains x || h.has g x) := by
  by_cases hx : x ∈ reservedNames
  · rw [List.contains_iff_mem.mpr hx, Bool.true_or]
    unfold globalValue?
    rcases List.mem_cons.mp hx with rfl | hx
    · rfl
    rcases List.mem_cons.mp hx with rfl | hx
    · rfl
    rw [List.mem_singleton.mp hx]
    rfl
  · have hnot : reservedNames.contains x = false := by simpa using hx
    rw [Core.globalValue?_eq h g hx, hnot, Bool.false_or, has_eq]

/-- The walks up a chain agree on a name. -/
structure Coherent (h : Heap) (g : ObjectId) (id : ScopeId) (links : List (ScopeId × List String))
    (x : String) : Prop where
  /-- A name is there exactly if it can be read. -/
  has_iff : h.hasName id x = true ↔ ∃ v, h.getName id x = .ok v
  get_invalid : h.getName id x = .error (.invalidName x) ↔ ¬Name.Matches x
  set_invalid : ∀ v, h.setName id x v = .error (.invalidName x) ↔ ¬Name.Matches x
  set_ok : Name.Matches x → ∀ v, ∃ k, h.setName id x v = .ok k
  /-- What was written is read, but for the names that the root keeps to itself. -/
  reads_back : ∀ v k, h.setName id x v = .ok k →
    if binder? x links = none ∧ x ∈ reservedNames then k = h else k.getName id x = .ok v
  /-- A name that a scope binds is written where it is read. -/
  rebinds : ∀ b, binder? x links = some b → ∀ v k, h.setName id x v = .ok k →
    ∃ w, h.getName id x = .ok w ∧ h.Rebinds k b x w v
  /-- A name that no scope binds is written as an own property of the global object. -/
  puts : binder? x links = none → x ∉ reservedNames → ∀ v k, h.setName id x v = .ok k → h.Puts k g x v
  outline : ∀ v k, h.setName id x v = .ok k → k.outline = h.outline
  visible : h.visibleNames id = (links.flatMap (·.2)).eraseDups
  nodup : (h.visibleNames id).Nodup
  /-- A visible name is one that a scope of the chain answers for. -/
  visible_iff : Name.Matches x →
    (x ∈ h.visibleNames id ↔ ∃ b ∈ links.map (·.1), h.Leads id x b)

/-- Reading a name along a chain. -/
theorem Chain.getName_eq (hc : h.Chain root id links) (hroot : h.outline root = some (none, .inl g))
    (hx : isValidName x = true) (hbinder : binder? x links = none) :
    h.getName id x = (h.globalValue? g x).elim (.error (.unbound x)) .ok := by
  unfold getName
  rw [hx, hc.place_eq hroot, hbinder]
  dsimp only [Option.elim_none]
  cases h.globalValue? g x <;> rfl

/-- Writing a name along a chain. -/
theorem Chain.setName_eq (hc : h.Chain root id links) (hroot : h.outline root = some (none, .inl g))
    (hx : isValidName x = true) (v : Value) :
    h.setName id x v = .ok (h.setAt ((binder? x links).elim (.global g) .binding) x v) := by
  unfold setName target
  rw [hx, hc.place_eq hroot]
  cases binder? x links <;> rfl

/-- A name that a scope of the chain binds. -/
theorem Chain.leads (hc : h.Chain root id links) (hroot : h.outline root = some (none, .inl g))
    (hx : isValidName x = true) (hb : binder? x links = some b) : h.Leads id x b :=
  leads_of_place hx (by rw [hc.place_eq hroot, hb]; rfl)

theorem Chain.rebinds (hc : h.Chain root id links) (hroot : h.outline root = some (none, .inl g))
    (hx : isValidName x = true) (hb : binder? x links = some b) (v : Value) :
    ∃ w, h.getName id x = .ok w ∧ h.Rebinds (h.setLocal b x v) b x w v := by
  obtain ⟨names, hmem, hname⟩ := mem_of_binder? hb
  obtain ⟨parent, ho⟩ := hc.outline_of_mem hmem
  obtain ⟨w, hw, hrebinds⟩ := rebinds_setLocal ho hname
  obtain ⟨w', hget, hw'⟩ := (hc.leads hroot hx hb).reads
  cases hw.symm.trans hw'
  exact ⟨w, hget, hrebinds v⟩

/-- What was written to a binding is read from it. -/
theorem Chain.reads_local (hc : h.Chain root id links) (hroot : h.outline root = some (none, .inl g))
    (hx : isValidName x = true) (hb : binder? x links = some b) (v : Value) :
    (h.setLocal b x v).getName id x = .ok v := by
  have houtline := outline_setLocal h b x v
  have hc' := hc.retains (.of_eq houtline)
  have hroot' := (congrFun houtline root).trans hroot
  obtain ⟨w, hget, hw⟩ := (hc'.leads hroot' hx hb).reads
  obtain ⟨w', -, hrebinds⟩ := hc.rebinds hroot hx hb v
  obtain ⟨before, after, -, hfirst, hstorage⟩ := hrebinds.storage
  rw [Store.get, hstorage, Option.getD_some, Storage.localValue?, List.find?_append,
    List.find?_eq_none.mpr fun c hc => ?_, Option.none_or] at hw
  · obtain rfl : v = w := by simpa using hw
    exact hget
  · exact fun heq => hfirst (List.mem_map.mpr ⟨c, hc, beq_iff_eq.mp heq⟩)

/-- What was written to the global object is read from it. -/
theorem Chain.reads_global {o : Object} (hc : h.Chain root id links)
    (hroot : h.outline root = some (none, .inl g)) (hg : h.objects.get? g = some o)
    (hplain : o.isArray = false) (hx : isValidName x = true) (hbinder : binder? x links = none)
    (hfree : x ∉ reservedNames) (v : Value) : (h.set g x v).getName id x = .ok v := by
  have hc' : (h.set g x v).Chain root id links := hc.retains (.of_eq rfl)
  rw [hc'.getName_eq hroot hx hbinder, Core.globalValue?_eq _ _ hfree,
    lookup?_of_find? (puts_set hg hplain x v).own]
  rfl

theorem getName_invalid (hx : isValidName x = false) : h.getName id x = .error (.invalidName x) := by
  rw [getName, hx]
  rfl

theorem setName_invalid (hx : isValidName x = false) (v : Value) :
    h.setName id x v = .error (.invalidName x) := by
  rw [setName, target, hx]
  rfl

/-- What stands behind a name that can be written. -/
theorem Chain.setName_cases {k : Heap} (hc : h.Chain root id links)
    (hroot : h.outline root = some (none, .inl g)) (hk : h.setName id x v = .ok k) :
    isValidName x = true ∧ ((∃ b, binder? x links = some b ∧ k = h.setLocal b x v) ∨
      binder? x links = none ∧ (x ∈ reservedNames ∧ k = h ∨ x ∉ reservedNames ∧ k = h.set g x v)) := by
  cases hx : isValidName x with
  | false =>
    rw [setName_invalid hx] at hk
    cases hk
  | true =>
    rw [hc.setName_eq hroot hx] at hk
    refine ⟨rfl, ?_⟩
    cases hb : binder? x links with
    | some b =>
      rw [hb] at hk
      cases hk
      exact .inl ⟨b, rfl, rfl⟩
    | none =>
      rw [hb] at hk
      cases hk
      refine .inr ⟨rfl, ?_⟩
      by_cases hreserved : x ∈ reservedNames
      · exact .inl ⟨hreserved, if_pos (List.contains_iff_mem.mpr hreserved)⟩
      · exact .inr ⟨hreserved, if_neg fun hmem => hreserved (List.contains_iff_mem.mp hmem)⟩

/-- A name is there exactly if it can be read. -/
theorem Chain.hasName_iff (hc : h.Chain root id links)
    (hroot : h.outline root = some (none, .inl g)) :
    h.hasName id x = true ↔ ∃ v, h.getName id x = .ok v := by
  cases hx : isValidName x with
  | false =>
    rw [hasName, hx, getName_invalid hx]
    exact ⟨nofun, nofun⟩
  | true =>
    rw [hasName, hx, Bool.true_and, hc.place_eq hroot]
    cases hb : binder? x links with
    | some b =>
      obtain ⟨v, hget, -⟩ := (hc.leads hroot hx hb).reads
      exact ⟨fun _ => ⟨v, hget⟩, fun _ => rfl⟩
    | none =>
      rw [hc.getName_eq hroot hx hb]
      dsimp only [Option.elim_none]
      rw [← isSome_globalValue?]
      cases h.globalValue? g x with
      | some v => exact ⟨fun _ => ⟨v, rfl⟩, fun _ => rfl⟩
      | none => exact ⟨nofun, nofun⟩

/-- A valid name is visible exactly if a scope of the chain answers for it. -/
theorem Chain.visible_iff (hc : h.Chain root id links)
    (hroot : h.outline root = some (none, .inl g)) (hx : isValidName x = true) :
    x ∈ h.visibleNames id ↔ ∃ b ∈ links.map (·.1), h.Leads id x b := by
  rw [hc.visibleNames_eq hroot, List.mem_eraseDups]
  constructor
  · intro hmem
    obtain ⟨b, hb⟩ := Option.isSome_iff_exists.mp (isSome_binder?.mpr hmem)
    obtain ⟨names, hlink, -⟩ := mem_of_binder? hb
    exact ⟨b, List.mem_map.mpr ⟨_, hlink, rfl⟩, hc.leads hroot hx hb⟩
  · rintro ⟨b, hb, hleads⟩
    obtain ⟨⟨b', names⟩, hlink, rfl⟩ := List.mem_map.mp hb
    obtain ⟨parent, ho⟩ := hc.outline_of_mem hlink
    obtain ⟨-, bindings, hs, rfl⟩ := get_of_outline ho
    obtain ⟨v, -, hv⟩ := hleads.reads
    -- a scope that answers for the name has a binding of it
    rw [hs] at hv
    obtain ⟨binding, hfind, -⟩ := Option.map_eq_some_iff.mp hv
    refine List.mem_flatMap.mpr ⟨_, hlink, List.mem_map.mpr ⟨binding, List.mem_of_find?_eq_some hfind, ?_⟩⟩
    simpa using List.find?_some hfind

/-- **The walks up a chain agree.** -/
theorem Chain.coherent {o : Object} (hc : h.Chain root id links)
    (hroot : h.outline root = some (none, .inl g)) (hg : h.objects.get? g = some o)
    (hplain : o.isArray = false) (x : String) : h.Coherent g id links x where
  has_iff := hc.hasName_iff hroot
  get_invalid := by
    rw [← Name.isValidName_iff, Bool.not_eq_true]
    refine ⟨fun hget => ?_, getName_invalid⟩
    by_contra hx
    have hx : isValidName x = true := Bool.not_eq_false _ ▸ hx
    cases hb : binder? x links with
    | some b =>
      obtain ⟨v, hv, -⟩ := (hc.leads hroot hx hb).reads
      cases hv.symm.trans hget
    | none =>
      rw [hc.getName_eq hroot hx hb] at hget
      cases hv : h.globalValue? g x <;> rw [hv] at hget <;> cases hget
  set_invalid v := by
    rw [← Name.isValidName_iff, Bool.not_eq_true]
    refine ⟨fun hset => ?_, fun hx => setName_invalid hx v⟩
    by_contra hx
    rw [hc.setName_eq hroot (Bool.not_eq_false _ ▸ hx)] at hset
    cases hset
  set_ok hx v := ⟨_, hc.setName_eq hroot (Name.isValidName_iff.mpr hx) v⟩
  reads_back v k hk := by
    obtain ⟨hx, ⟨b, hb, rfl⟩ | ⟨hnone, ⟨hreserved, rfl⟩ | ⟨hfree, rfl⟩⟩⟩ := hc.setName_cases hroot hk
    · rw [if_neg fun hboth => by cases hb.symm.trans hboth.1]
      exact hc.reads_local hroot hx hb v
    · rw [if_pos ⟨hnone, hreserved⟩]
    · rw [if_neg fun hboth => hfree hboth.2]
      exact hc.reads_global hroot hg hplain hx hnone hfree v
  rebinds b hb v k hk := by
    obtain ⟨hx, ⟨b', hb', rfl⟩ | ⟨hnone, -⟩⟩ := hc.setName_cases hroot hk
    · cases hb.symm.trans hb'
      exact hc.rebinds hroot hx hb v
    · cases hb.symm.trans hnone
  puts hnone hfree v k hk := by
    obtain ⟨hx, ⟨b, hb, -⟩ | ⟨-, ⟨hreserved, -⟩ | ⟨-, rfl⟩⟩⟩ := hc.setName_cases hroot hk
    · cases hb.symm.trans hnone
    · exact absurd hreserved hfree
    · exact puts_set hg hplain x v
  outline v k hk := by
    obtain ⟨-, ⟨b, -, rfl⟩ | ⟨-, ⟨-, rfl⟩ | ⟨-, rfl⟩⟩⟩ := hc.setName_cases hroot hk
    · exact outline_setLocal h b x v
    · rfl
    · rfl
  visible := hc.visibleNames_eq hroot
  nodup := hc.visibleNames_eq hroot ▸ nodup_eraseDups _
  visible_iff hx := hc.visible_iff hroot (Name.isValidName_iff.mpr hx)

/-! ## Scopes keep their names -/

/-- Every local scope of the one heap binds the same names in the other. -/
def KeepsNames (h k : Heap) : Prop :=
  ∀ b parent names, h.outline b = some (parent, .inr names) →
    h.bindingNames b = names ∧ k.bindingNames b = names

theorem bindingNames_of_outline {parent : Option ScopeId} {names : List String}
    (ho : h.outline b = some (parent, .inr names)) : h.bindingNames b = names := by
  obtain ⟨-, bindings, hs, rfl⟩ := get_of_outline ho
  rw [bindingNames, hs]

theorem Retains.keepsNames (hk : h.Retains k) : h.KeepsNames k := fun _ _ _ ho =>
  ⟨bindingNames_of_outline ho, bindingNames_of_outline (hk _ _ ho)⟩

end Heap

namespace Session

variable {H : Host} {s t : Session} {i : Nat} {m : Machine} {c : Core}

theorem Request.any {act : Act Move} {loan : Loan} (hact : Request H s i act loan) :
    Request .any s i act loan := by
  cases hact with
  | unit _ => exact .unit trivial
  | code hregion hu => exact .code hregion hu
  | call fn this args kept => exact .call fn this args kept

theorem lasting_outlined (b : ScopeId) (o : Option ScopeId × (ObjectId ⊕ List String)) :
    (Invariant.outlined b o).Lasting where
  frames h := h
  ended {c} h held := (congrFun (Heap.outline_prune c.heap c.engine.links held) b).trans h

/-- What a host does by itself leaves all scopes as they are, but for values. -/
theorem retains_edit (hedit : Edit H s t) : s.heap.Retains t.heap := by
  cases hedit with
  | abandon i =>
    rcases s.abandon_cases i with ⟨heq, -⟩ | ⟨f, -, heq⟩ <;> rw [heq]
    · exact .of_eq rfl
    · exact .of_eq rfl
  | engine name settings host defines =>
    have hmade := Engine.create_furnished s.heap (engineRegion s.stations.size)
      ((name.or settings.name).getD ("engine-" ++ toString (engineRegion s.stations.size))) settings
      host defines
    exact .of_push hmade.scopes
  | binding scope name v => exact .of_eq (Heap.outline_setLocal s.heap scope name v)
  | child parent owner bindings this => exact .of_push rfl
  | compile hu =>
    rcases compile_cases hu with rfl | ⟨u, units, rfl⟩
    · exact .of_eq rfl
    · exact .of_eq rfl
  | compileIn hu =>
    obtain ⟨u, rfl⟩ := compileIn_cases hu
    exact .of_eq rfl
  | _ => exact .of_eq rfl

/-- **A scope keeps its parent and its names** in one step of a host. -/
theorem retains_step (hstep : Step H s t) : s.heap.Retains t.heap := by
  cases hstep with
  | edit hedit => exact retains_edit hedit
  | evaluate hi hact heq _ =>
    intro b o ho
    have hlast := (lasting_outlined b o).evaluate hi ho hact.any
    rwa [heq] at hlast
  | poll hi heq _ =>
    intro b o ho
    have hlast := (lasting_outlined b o).poll hi ho
    rwa [heq] at hlast

/-- And in the middle of an evaluation. -/
theorem retains_running (hm : Running H s i m c) : s.heap.Retains c.heap := by
  intro b o ho
  have hlasting := lasting_outlined b o
  induction hm with
  | start _ hact => exact hlasting.request ho hact.any
  | resume _ _ _ => exact Invariant.Lasting.arrive (I := .outlined b o) (i := i) ho i
  | @step m c m' c' _ hstep ih =>
    have hnext := hlasting.step ih m
    rwa [hstep] at hnext
  | @settle m c m' p c' settlement m'' _ hstep _ _ _ ih =>
    have hnext := hlasting.step ih m
    rw [hstep] at hnext
    exact (Invariant.outlined b o).apart hnext _ _ _ _

theorem retains_steps (hsteps : Relation.ReflTransGen (Step H) s t) : s.heap.Retains t.heap := by
  induction hsteps with
  | refl => exact .of_eq rfl
  | tail _ hstep ih => exact fun b o ho => retains_step hstep b o (ih b o ho)

/-- **Names along a chain of scopes.** -/
theorem chain_coherent {root id : ScopeId} {links : List (ScopeId × List String)} {g : ObjectId}
    {o : Object} (hc : s.heap.Chain root id links)
    (hroot : s.heap.outline root = some (none, .inl g)) (hg : s.heap.objects.get? g = some o)
    (hplain : o.isArray = false) :
    (∀ x, s.heap.Coherent g id links x) ∧ ∀ H : Host,
      (∀ t, Relation.ReflTransGen (Step H) s t → s.heap.KeepsNames t.heap) ∧
      ∀ i m c, Running H s i m c → s.heap.KeepsNames c.heap :=
  ⟨hc.coherent hroot hg hplain, fun _ => ⟨fun _ hsteps => (retains_steps hsteps).keepsNames,
    fun _ _ _ hm => (retains_running hm).keepsNames⟩⟩

/-- Two scopes below a root. The inner one binds `x`, which the outer one binds as well. -/
theorem chain_coherent_shadowed :
    let h := (((Heap.nextGlobal {} 1 none).newChild ⟨1, 0⟩ "outer" [⟨"x", .null⟩, ⟨"y", .null⟩]
      .undefined).2.newChild ⟨1, 1⟩ "inner" [⟨"x", .null⟩] .undefined).2
    h.Chain ⟨1, 0⟩ ⟨1, 2⟩ [(⟨1, 2⟩, ["x"]), (⟨1, 1⟩, ["x", "y"])] ∧
      h.outline ⟨1, 0⟩ = some (none, .inl ⟨1, 0⟩) ∧ h.objects.get? ⟨1, 0⟩ = some (.empty none) ∧
      (Object.empty none).isArray = false ∧ h.visibleNames ⟨1, 2⟩ = ["x", "y"] ∧
      ∃ k, h.setName ⟨1, 2⟩ "x" (.bool true) = .ok k ∧ k.getName ⟨1, 2⟩ "x" = .ok (.bool true) := by
  intro h
  have hc : h.Chain ⟨1, 0⟩ ⟨1, 2⟩ [(⟨1, 2⟩, ["x"]), (⟨1, 1⟩, ["x", "y"])] :=
    (Heap.Chain.root.newChild rfl "outer" [⟨"x", .null⟩, ⟨"y", .null⟩] .undefined).newChild rfl "inner"
      [⟨"x", .null⟩] .undefined
  have hcoherent := (chain_coherent (s := { heap := h }) hc rfl rfl rfl).1 "x"
  obtain ⟨k, hk⟩ := hcoherent.set_ok (Name.isValidName_iff.mp (by decide)) (.bool true)
  refine ⟨hc, rfl, rfl, rfl, hcoherent.visible.trans (by decide), k, hk, ?_⟩
  have hread := hcoherent.reads_back (.bool true) k hk
  rwa [if_neg fun hboth => nomatch hboth.1] at hread

end Session

/-! ## Scopes that are held -/

/-- The scope begins a chain of scopes that ends at the root of an engine. -/
def Heap.Anchored (h : Heap) (id : ScopeId) : Prop :=
  ∃ root g links, h.outline root = some (none, .inl g) ∧ h.Chain root id links

namespace Heap.Anchored

variable {h k : Heap} {id : ScopeId}

theorem retains (ha : h.Anchored id) (hk : h.Retains k) : k.Anchored id :=
  have ⟨root, g, links, hroot, hc⟩ := ha
  ⟨root, g, links, hk _ _ hroot, hc.retains hk⟩

/-- Either it is the root, or its parent begins such a chain as well. -/
theorem cases (ha : h.Anchored id) : (∃ g, h.outline id = some (none, .inl g)) ∨
    ∃ p names, h.outline id = some (some p, .inr names) ∧ p.index < id.index ∧ h.Anchored p := by
  obtain ⟨root, g, links, hroot, hc⟩ := ha
  cases hc with
  | root => exact .inl ⟨g, hroot⟩
  | child ho hage hrest => exact .inr ⟨_, _, ho, hage, root, g, _, hroot, hrest⟩

theorem newChild (ha : h.Anchored id) (owner : String) (bindings : List Binding) (this : Value) :
    (h.newChild id owner bindings this).2.Anchored (h.newChild id owner bindings this).1 := by
  have hthere : (h.outline id).isSome = true := by
    rcases ha.cases with ⟨g, ho⟩ | ⟨p, names, ho, -⟩ <;> exact Option.isSome_of_eq_some ho
  obtain ⟨root, g, links, hroot, hc⟩ := ha
  exact ⟨root, g, _, Retains.of_push rfl _ _ hroot, hc.newChild hthere owner bindings this⟩

end Heap.Anchored

/-- What began a chain that ends at a root in a heap still does, and so do the scopes in the hands of an
engine. -/
structure Core.Grounded (h : Heap) (fs : List Frame) (c : Core) : Prop where
  keeps : ∀ id, h.Anchored id → c.heap.Anchored id
  root : c.heap.Anchored c.engine.root
  table : ∀ (n : Nat) x, c.engine.links[n]? = some x → c.heap.Anchored x.scope
  frames : ∀ f ∈ fs, c.heap.Anchored f.scope

namespace Core.Grounded

variable {h : Heap} {c d : Core} {fs : List Frame} {f g : Frame}

theorem retains (hc : c.Grounded h fs) (hk : c.heap.Retains d.heap)
    (hroot : d.engine.root = c.engine.root)
    (htable : ∀ (n : Nat) x, d.engine.links[n]? = some x → c.engine.links[n]? = some x) :
    d.Grounded h fs :=
  ⟨fun id hid => (hc.keeps id hid).retains hk, hroot ▸ hc.root.retains hk,
    fun n x hx => (hc.table n x (htable n x hx)).retains hk, fun f hf => (hc.frames f hf).retains hk⟩

theorem cons (hc : c.Grounded h fs) (hf : c.heap.Anchored f.scope) : c.Grounded h (f :: fs) :=
  ⟨hc.keeps, hc.root, hc.table, List.forall_mem_cons.mpr ⟨hf, hc.frames⟩⟩

theorem head (hc : c.Grounded h (f :: fs)) : c.heap.Anchored f.scope := hc.frames f List.mem_cons_self

theorem tail (hc : c.Grounded h (f :: fs)) : c.Grounded h fs :=
  ⟨hc.keeps, hc.root, hc.table, (List.forall_mem_cons.mp hc.frames).2⟩

/-- The heap as it is now. -/
theorem now (hc : c.Grounded h fs) : c.Grounded c.heap fs := ⟨fun _ => id, hc.root, hc.table, hc.frames⟩

theorem defining (hc : c.Grounded h fs) {n : Nat} {s : ScopeId}
    (hs : c.engine.links.scope? n = some s) : c.heap.Anchored s := by
  obtain ⟨x, hx, rfl⟩ := Links.scope?_eq_some hs
  exact hc.table n x hx

theorem bearing (hc : c.Grounded h fs) (fn : FunctionNode) (u : CodeUnit) :
    (c.bearing fn u).Grounded h fs :=
  hc.retains (.of_eq rfl) rfl fun _ _ => id

theorem linking (hc : c.Grounded h (f :: fs)) (fn : FunctionNode) (u : CodeUnit) :
    (c.linking fn u f.scope).Grounded h (f :: fs) := by
  have hborn := hc.bearing fn u
  refine ⟨hborn.keeps, hborn.root, fun n x hx => ?_, hborn.frames⟩
  rw [show (c.linking fn u f.scope).engine.links = (c.engine.links.associate c.engine.nextSerial
    ⟨c.heap.closures.next c.engine.region, f.scope, fn.id⟩).2 from rfl, Links.getElem?_associate] at hx
  split at hx
  · cases hx
    exact hborn.head
  · exact hborn.table n x hx

end Core.Grounded

/-- No act takes hold of a scope that begins no such chain. -/
def Invariant.grounded (h : Heap) : Invariant where
  holds fs c := c.Grounded h fs
  quiet hc _ := hc.retains (.of_eq rfl) rfl fun _ _ => id
  binding hc scope name v :=
    hc.retains (.of_eq (Heap.outline_setLocal _ scope name v)) rfl fun _ _ => id
  birth hc _ := hc.bearing _ _
  link hc _ _ _ :=
    have hlinked := hc.linking _ _
    hlinked.tail.cons hlinked.head
  capture {_ c r defining bindings this} _ hc hs _ _ _ :=
    have hunder : (c.under defining r.name bindings this).Grounded h _ :=
      hc.retains (.of_push rfl) rfl fun _ _ hx => hx
    hunder.cons ((hc.defining hs).newChild r.name bindings this)
  share _ hc hs _ _ := hc.cons (hc.defining hs)
  code hc _ := hc.cons hc.head
  mark hc _ := hc.tail.cons hc.head
  close hc := hc.tail

namespace Session

/-- **The scopes that engines hold begin chains that end at roots.** -/
structure Grounded (s : Session) : Prop where
  core : ∀ j < s.stations.size, (s.core j).Grounded s.heap (s.station j).frames
  held : ∀ j < s.stations.size, ∀ f, (s.station j).flight = some f →
    ∀ id, .scope id ∈ f.loan.held → s.heap.Anchored id

/-- **A turn leaves every scope its parent and its names.** -/
theorem retains_perform {s : Session} {i : Nat} {turn : Turn} (hi : i < s.stations.size)
    (hturn : turn.IsFor i) : s.heap.Retains (s.perform turn).2.heap :=
  fun b o ho => (lasting_outlined b o).perform hi hturn ho

namespace Grounded

variable {H : Host} {s t : Session} {i : Nat} {c : Core} {turn : Turn}

theorem empty (fuel : Nat) : ({ fuel } : Session).Grounded :=
  ⟨nofun, fun f hf => by cases hf⟩

/-- A scope that a parked evaluation holds. -/
theorem inFlight (hg : s.Grounded) {j : Nat} (hj : j < s.stations.size) {id : ScopeId}
    (hid : .scope id ∈ (s.station j).inFlight) : s.heap.Anchored id := by
  have hframes := (hg.core j hj).frames
  have hheld := hg.held j hj
  unfold Station.frames at hframes
  unfold Station.inFlight at hid
  cases hf : (s.station j).flight with
  | none =>
    rw [hf] at hid
    cases hid
  | some f =>
    rw [hf] at hid hframes
    rcases List.mem_append.mp hid with hid | hid
    · have hid := (List.mem_append.mp hid).resolve_right Cell.scope_notMem_ofValues
      obtain ⟨a, ha, hid⟩ := List.mem_flatMap.mp
        ((List.mem_append.mp hid).resolve_left Cell.scope_notMem_ofValues)
      rcases List.mem_cons.mp hid with heq | hid
      · cases heq
        exact hframes a.frame (List.mem_map_of_mem ha)
      · exact absurd hid Cell.scope_notMem_ofValues
    · exact hheld f hf id hid

/-! ### Evaluations -/

/-- Engine `i` takes over the heap. -/
theorem seat (hg : s.Grounded) (hi : i < s.stations.size) {g : Station → Station}
    (hc : c.Grounded s.heap (g (s.station i)).frames)
    (hheld : ∀ f, (g (s.station i)).flight = some f → ∀ id, .scope id ∈ f.loan.held →
      s.heap.Anchored id) : (s.seat i c g).Grounded := by
  have hsize : (s.seat i c g).stations.size = s.stations.size := size_modifyStation ..
  refine ⟨fun j hj => ?_, fun j hj f hf id hid => hc.keeps id ?_⟩
  · rw [hsize] at hj
    unfold Session.core Session.engine
    by_cases hij : j = i
    · subst hij
      rw [station_seat hi]
      exact hc.now
    · rw [station_seat_ne hij]
      have hold := hg.core j hj
      exact ⟨fun _ => id, hc.keeps _ hold.root, fun n x hx => hc.keeps _ (hold.table n x hx),
        fun f hf => hc.keeps _ (hold.frames f hf)⟩
  · rw [hsize] at hj
    by_cases hij : j = i
    · subst hij
      rw [station_seat hi] at hf
      exact hheld f hf id hid
    · rw [station_seat_ne hij] at hf
      exact hg.held j hj f hf id hid

/-- A drive ended. -/
theorem settleStop (hg : s.Grounded) (hi : i < s.stations.size) {loan : Loan} {stop : Core.Stop}
    (hc : c.Grounded s.heap stop.frames)
    (hheld : ∀ id, .scope id ∈ loan.held → s.heap.Anchored id) :
    (s.settleStop i loan stop c).2.Grounded := by
  cases stop with
  | done outcome =>
    rw [settleStop_done, Core.finish_eq]
    refine hg.seat hi (hc.retains ?_ rfl fun n x hx => ?_) fun f hf => by cases hf
    · exact .of_eq (Heap.outline_prune ..)
    · exact ((Heap.getElem?_prune ..).mp hx).1
  | parked m p =>
    rw [settleStop_parked]
    refine hg.seat hi ((Invariant.grounded s.heap).taken hc p) fun f hf => ?_
    cases hf
    exact hheld
  | outOfFuel m =>
    rw [settleStop_outOfFuel]
    have hframes := (hg.core i hi).frames
    exact hg.seat hi ⟨hc.keeps, hc.root, hc.table, fun f hf => hc.keeps _ (hframes f hf)⟩ (hg.held i hi)

theorem evaluate (hg : s.Grounded) (hi : i < s.stations.size) {act : Act Move} {loan : Loan}
    (hact : Request H s i act loan) (hheld : ∀ id, .scope id ∈ loan.held → s.heap.Anchored id) :
    (s.evaluate i act loan).2.Grounded := by
  unfold Session.evaluate
  split
  · exact hg
  · have hcore := (Invariant.grounded s.heap).nil (hg.core i hi)
    have hlent : ∀ id, .scope id ∈ loan.lent → s.heap.Anchored id := fun id hid =>
      hheld id (List.mem_append_right _ hid)
    have hstart := (Invariant.grounded s.heap).start_request hcore (fun hc _ => hc.cons hc.root)
      (fun hscope hc _ => hc.cons (hc.keeps _ (hscope.elim (fun heq => heq ▸ hcore.root) (hlent _)))) hact
    exact hg.settleStop hi (Invariant.drive_frames _ _ hstart) hheld

theorem goOn (hg : s.Grounded) (hi : i < s.stations.size) : (s.goOn i).2.Grounded := by
  unfold Session.goOn
  split
  · exact hg
  next f hf =>
    have hcore := hg.core i hi
    rw [Station.frames, hf] at hcore
    have hwatch : (s.armed i).Grounded s.heap f.machine.frames :=
      (Invariant.grounded s.heap).starting hcore _
    split
    · exact hg
    next settlement hset =>
      refine hg.settleStop hi ?_ (hg.held i hi f hf)
      split
      next m hm =>
        refine Invariant.drive_frames (.grounded s.heap) _ ?_
        rw [Machine.frames_resume hm]
        exact hwatch
      next => exact (Invariant.grounded s.heap).nil hwatch

/-! ### Edits -/

/-- The heap loses no scope, and engines get hold of none. -/
theorem map (hg : s.Grounded) (hsize : t.stations.size = s.stations.size)
    (hk : s.heap.Retains t.heap)
    (hroot : ∀ j, (t.engine j).root = (s.engine j).root)
    (htable : ∀ j (n : Nat) x, (t.engine j).links[n]? = some x → (s.engine j).links[n]? = some x ∨
      t.heap.Anchored x.scope)
    (hflight : ∀ j, (t.station j).flight = (s.station j).flight ∨ (t.station j).flight = none) :
    t.Grounded := by
  refine ⟨fun j hj => ?_, fun j hj f hf id hid => ?_⟩
  · have hold := hg.core j (hsize ▸ hj)
    refine ⟨fun _ => id, ?_, fun n x hx => ?_, fun f hf => ?_⟩
    · change t.heap.Anchored (t.engine j).root
      rw [hroot]
      exact hold.root.retains hk
    · exact (htable j n x hx).elim (fun hx => (hold.table n x hx).retains hk) id
    · refine (hold.frames f ?_).retains hk
      rcases hflight j with heq | heq
      · rwa [Station.frames, heq] at hf
      · rw [Station.frames, heq] at hf
        cases hf
  · rcases hflight j with heq | heq
    · exact (hg.held j (hsize ▸ hj) f (heq ▸ hf) id hid).retains hk
    · cases heq.symm.trans hf

/-- The heap loses no scope. -/
theorem heap (hg : s.Grounded) {k : Heap} (hk : s.heap.Retains k) : { s with heap := k }.Grounded :=
  hg.map rfl hk (fun _ => rfl) (fun _ _ _ => .inl) fun _ => .inl rfl

theorem arrive (hg : s.Grounded) (j : Nat) : (s.arrive j).Grounded := by
  rcases s.arrive_cases j with heq | ⟨f, settlement, -, -, -, heq⟩ <;> rw [heq]
  · exact hg
  · exact hg.heap (.of_eq rfl)

theorem poll (hg : s.Grounded) (hi : i < s.stations.size) : (s.poll i).2.Grounded :=
  (hg.arrive i).goOn (by rwa [stations_arrive])

/-- A change of one station that gets its engine hold of no scope. -/
theorem station (hg : s.Grounded) (j : Nat) (g : Station → Station)
    (hroot : ∀ u, (g u).engine.root = u.engine.root)
    (htable : ∀ u (n : Nat) x, (g u).engine.links[n]? = some x → u.engine.links[n]? = some x ∨
      s.heap.Anchored x.scope)
    (hflight : ∀ u, (g u).flight = u.flight ∨ (g u).flight = none) :
    (s.modifyStation j g).Grounded := by
  refine hg.map (size_modifyStation ..) (.of_eq rfl) (fun i => ?_) (fun i n x hx => ?_) fun i => ?_
  all_goals rcases s.station_modifyStation_cases j i g with heq | heq
  · rw [engine, heq, engine]
  · rw [engine, heq, hroot, engine]
  · rw [engine, heq] at hx
    exact .inl hx
  · rw [engine, heq] at hx
    exact htable _ n x hx
  · exact .inl (by rw [heq])
  · rw [heq]
    exact hflight _

/-- The root of a new engine has no parent. -/
theorem addEngine (hg : s.Grounded) (name : Option String) (settings : Settings)
    (host : Option ObjectId) (defs : List (String × Value)) :
    (s.addEngine name settings host defs).Grounded := by
  obtain ⟨n, hheap, hstation⟩ := s.addEngine_founds name settings host defs
  have hk : s.heap.Retains (s.addEngine name settings host defs).heap :=
    retains_edit (H := .any) (.engine s name settings host defs)
  have hcases : ∀ j < (s.addEngine name settings host defs).stations.size,
      j < s.stations.size ∨ j = s.stations.size := fun j hj => by
    rw [size_addEngine] at hj
    omega
  refine ⟨fun j hj => ?_, fun j hj f hf id hid => ?_⟩
  · rcases hcases j hj with hj | rfl
    · have hold := (hg.core j hj).retains (d := ⟨(s.addEngine name settings host defs).heap, s.engine j⟩)
        hk rfl fun _ _ => id
      unfold Session.core Session.engine
      rw [station_addEngine_of_lt hj]
      exact hold.now
    · unfold Session.core Session.engine
      rw [hstation, hheap]
      have hroot : (s.addEngine name settings host defs).heap.outline
          (Engine.create s.heap (engineRegion s.stations.size) n settings host defs).1.root =
            some (s.heap.nextRoot (engineRegion s.stations.size)).outline := by
        rw [hheap]
        exact (Heap.outline_push (Engine.create_heap ..).scopes _).trans (if_pos rfl)
      refine ⟨fun _ => id, ⟨_, _, [], hheap ▸ hroot, .root⟩, fun n x hx => ?_, nofun⟩
      cases Links.getElem?_empty.symm.trans hx
  · rcases hcases j hj with hj | rfl
    · rw [station_addEngine_of_lt hj] at hf
      exact (hg.held j hj f hf id hid).retains hk
    · rw [hstation] at hf
      cases hf

/-- **What a host does by itself**, if it links functions in scopes that begin such chains. -/
theorem edit (hg : s.Grounded) (hedit : Edit H s t)
    (hlinks : ∀ scope id, H.links s scope id → s.heap.Anchored scope) : t.Grounded := by
  have hk := retains_edit hedit
  cases hedit with
  | engine name settings host defines => exact hg.addEngine name settings host defines
  | abandon i =>
    rcases s.abandon_cases i with ⟨heq, -⟩ | ⟨f, -, heq⟩ <;> rw [heq]
    · exact hg
    · exact hg.station i _ (fun _ => rfl) (fun _ _ _ => .inl) fun _ => .inr rfl
  | console i => exact hg.station i _ (fun _ => rfl) (fun _ _ _ => .inl) fun _ => .inl rfl
  | compile hu =>
    rcases compile_cases hu with rfl | ⟨u, units, rfl⟩
    · exact hg
    · have hadded : (s.addUnit u).2.Grounded :=
        hg.map rfl (.of_eq rfl) (fun _ => rfl) (fun _ _ _ => .inl) fun _ => .inl rfl
      exact hadded.station _ _ (fun _ => rfl) (fun _ _ _ => .inl) fun _ => .inl rfl
  | compileIn hu =>
    obtain ⟨u, rfl⟩ := compileIn_cases hu
    exact hg.map rfl hk (fun _ => rfl) (fun _ _ _ => .inl) fun _ => .inl rfl
  | @link scope id hlink =>
    refine hg.map (size_modifyStation ..) hk (fun j => ?_) (fun j n x hx => ?_) fun j => ?_
    · rcases s.core_link scope id j with heq | ⟨-, heq⟩ <;> exact congrArg (fun c => c.engine.root) heq
    · rcases s.core_link scope id j with heq | ⟨-, heq⟩
      · exact .inl ((congrArg (fun c => c.engine.links[n]?) heq).symm.trans hx)
      · have hx := (congrArg (fun c => c.engine.links[n]?) heq).symm.trans hx
        dsimp only at hx
        rw [Links.getElem?_associate] at hx
        split at hx
        · cases hx
          exact .inr (hlinks scope id hlink)
        · exact .inl hx
    · left
      rcases s.station_modifyStation_cases (scope.region - 1) j _ with heq | heq
      · exact congrArg Station.flight heq
      · have hflight := congrArg Station.flight heq
        exact hflight
  | _ => exact hg.map rfl hk (fun _ => rfl) (fun _ _ _ => .inl) fun _ => .inl rfl

/-- A scope that the host holds for an evaluation is the one in which code is to run. -/
theorem evalIn_of_ask {a : Ask} (h : s.ask? turn = some a) {id : ScopeId}
    (hid : .scope id ∈ a.loan.held) :
    ∃ code, turn = .evalIn a.engine id code := by
  cases turn with
  | run i source =>
    simp only [ask?] at h
    split at h <;> cases h
    cases hid
  | runUnit i u =>
    cases h
    cases hid
  | call i fn this args =>
    simp only [ask?] at h
    split at h <;> cases h
    rcases List.mem_append.mp hid with hid | hid <;> exact absurd hid Cell.scope_notMem_ofValues
  | evalIn i scope code =>
    simp only [ask?] at h
    split at h
    · split at h <;> cases h
      cases List.mem_singleton.mp hid
      exact ⟨code, rfl⟩
    · cases h
  | _ => cases h

/-- **A turn**, if the host evaluates code in scopes that begin such chains. -/
theorem perform (hg : s.Grounded) (hi : i < s.stations.size) (hturn : turn.IsFor i)
    (hscope : ∀ scope code, turn = .evalIn i scope code → s.heap.Anchored scope) :
    (s.perform turn).2.Grounded := by
  have hk := retains_perform hi hturn
  have hedit : ∀ {t}, Edit ⟨fun _ => True, fun _ _ _ => False⟩ s t → t.Grounded := fun hedit =>
    hg.edit hedit fun _ _ => False.elim
  cases hask : s.ask? turn with
  | some a =>
    have hasks := asks hask
    obtain rfl := hturn a.engine hasks.engine
    have hsession : a.session.Grounded ∧ a.session.heap = s.heap := by
      rcases hasks.compiled with heq | ⟨source, id, hc⟩
      · rw [heq]
        exact ⟨hg, rfl⟩
      · refine ⟨hedit (.compile hc), ?_⟩
        rcases compile_cases hc with heq | ⟨u, units, heq⟩
        · rw [heq]
        · rw [heq]
          rfl
    rw [hasks.perform]
    refine hsession.1.evaluate ((leads_ask hask).2 ▸ hi) hasks.request fun id hid => ?_
    obtain ⟨code, heq⟩ := evalIn_of_ask hask hid
    exact hsession.2 ▸ hscope id code heq
  | none =>
    cases unasked hask with
    | refused heq => rwa [heq]
    | poll j =>
      obtain rfl := hturn j rfl
      exact hg.poll hi
    | abandon j => exact hedit (.abandon s j)
    | console j => exact hedit (.console s j)
    | settle p settlement => exact hedit (.settle s p settlement)
    | setName scope name v =>
      obtain ⟨k, heq⟩ : ∃ k, (s.perform (.setName scope name v)).2 = { s with heap := k } := by
        unfold Session.perform assign
        dsimp only
        split
        · exact ⟨_, rfl⟩
        · exact ⟨s.heap, rfl⟩
      rw [heq] at hk ⊢
      exact hg.heap hk
    | setEnvironment scope env => exact hg.heap hk
    | keep slot v => exact hedit (.keep s slot v)
    | forget slot => exact hedit (.forget s slot)
    | hold scope => exact hedit (.hold s scope)
    | release scope => exact hedit (.release s scope)
    | elsewhere process => exact hedit (.elsewhere s process)

end Grounded

end Session

end Fermata
