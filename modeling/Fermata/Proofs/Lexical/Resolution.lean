import Fermata.Proofs.Lexical.Chain
import Fermata.Proofs.Link.Literal
import Fermata.Proofs.Prune.Effect

/-!
# Names resolve lexically

On a single engine, every frame runs the code of a place of the source in a scope that follows the
source, and every closure is associated with the scope of the frame that made it. So a name that a
function around the place declares is read from, and written to, the binding of the innermost such
function, and a name that was visible where code is evaluated is that visible one.

* `Core.Houses`: the code of a place can run in a scope.
* `Core.Lexical`: all frames and closures are housed. `Invariant.lexical` says that it stays so.
* `Session.names_lexical`: where names lead to, in every state of every evaluation.
-/

namespace Fermata

open Act

/-! ## Housing -/

/-- All these names lead to bindings. -/
def Heap.Sees (h : Heap) (names : List String) (scope : ScopeId) : Prop :=
  ∀ x ∈ names, ∃ b, h.place scope x = .binding b

/-- The code of a place can run in a scope: it follows the source down from the base of the unit, from
where the names that the unit was compiled for are seen, if it was not simply run at the root. -/
structure Core.Houses (c : Core) (u : CodeUnit) (p : Program) (outer : List String)
    (path : List FunctionNode) (base scope : ScopeId) : Prop where
  unit : u.MadeFrom p outer
  nested : p.Nested path
  enclosed : Enclosed u c.heap outer base path scope
  seen : c.heap.Sees outer base ∨ base = c.engine.root

namespace Core.Houses

variable {c d : Core} {u : CodeUnit} {p : Program} {outer : List String}
  {path : List FunctionNode} {base scope : ScopeId}

theorem retains (h : c.Houses u p outer path base scope) (hheap : c.heap.Retains d.heap)
    (hroot : d.engine.root = c.engine.root) : d.Houses u p outer path base scope := by
  refine ⟨h.unit, h.nested, h.enclosed.retains hheap, ?_⟩
  rcases h.seen with hseen | hbase
  · refine .inl fun x hx => ?_
    obtain ⟨b, hb⟩ := hseen x hx
    exact ⟨b, hheap.place hb⟩
  · exact .inr (hbase.trans hroot.symm)

/-- A function that is made in the scope finds it there, or nothing to find in it. -/
theorem anchored (h : c.Houses u p outer path base scope)
    (hroot : (c.heap.outline c.engine.root).isSome) {g : FunctionNode}
    (hg : .literal g ∈ p.mentionsIn path) :
    (c.heap.outline scope).isSome = true ∨ path = [] ∧ outer = [] := by
  by_cases hpath : path = []
  · subst hpath
    cases h.enclosed
    rcases h.seen with hseen | rfl
    · cases outer with
      | nil => exact .inr ⟨rfl, rfl⟩
      | cons x outer =>
        obtain ⟨b, hb⟩ := hseen x List.mem_cons_self
        obtain ⟨parent, ns, ho, -⟩ := Heap.placeWithin_succ hb
        exact .inl (Option.isSome_of_eq_some ho)
    · exact .inl hroot
  · exact .inl (h.enclosed.outline_isSome h.unit (.inside h.nested hg) hpath)

end Core.Houses

/-- The frame of a place runs in a scope that follows the source. -/
def Core.Seats (c : Core) (f : Frame) : Prop :=
  ∃ p outer path base, f.record = recordIn path ∧ c.Houses f.unit p outer path base f.scope

/-- The closure of a literal is associated, under its own name, with a scope in which the code around
the literal runs. -/
def Core.Settles (c : Core) (id : ClosureId) (k : Closure) (a : Association) : Prop :=
  a.closure = id ∧ ∃ p outer path base g, .literal g ∈ p.mentionsIn path ∧ g.id = k.node.id ∧
    c.Houses k.unit p outer path base a.scope

/-- All frames and associated closures are where the source has them. -/
structure Core.Lexical (fs : List Frame) (c : Core) : Prop where
  code : Provenance.compiler.Holds fs c.heap
  counted : c.Counted
  root : c.heap.outline c.engine.root = some (none, .inl c.engine.global)
  roots : c.heap.EndsAtRoots
  frames : ∀ f ∈ fs, c.Seats f
  closures : ∀ id k a, c.heap.closures.get? id = some k → c.engine.links[k.serial]? = some a →
    c.Settles id k a

theorem Store.index_lt_next {k : Kind} {α : Type} {s : Store k α} {a : Addr k}
    (h : (s.get? a).isSome = true) : a.index < (s.next a.region).index := by
  rw [Store.get?_eq] at h
  rw [Store.next_eq]
  cases hr : s.regions[a.region]? with
  | none =>
    rw [hr] at h
    cases h
  | some r =>
    rw [hr] at h
    obtain ⟨v, hv⟩ := Option.isSome_iff_exists.mp h
    exact (Array.getElem?_eq_some_iff.mp hv).1

namespace Core.Lexical

variable {c d : Core} {f : Frame} {fs gs : List Frame}

theorem seats_retains (h : c.Seats f) (hheap : c.heap.Retains d.heap)
    (hroot : d.engine.root = c.engine.root) : d.Seats f := by
  obtain ⟨p, outer, path, base, hrecord, hhouses⟩ := h
  exact ⟨p, outer, path, base, hrecord, hhouses.retains hheap hroot⟩

theorem settles_retains {id : ClosureId} {k : Closure} {a : Association} (h : c.Settles id k a)
    (hheap : c.heap.Retains d.heap) (hroot : d.engine.root = c.engine.root) : d.Settles id k a := by
  obtain ⟨hid, p, outer, path, base, g, hg, hnode, hhouses⟩ := h
  exact ⟨hid, p, outer, path, base, g, hg, hnode, hhouses.retains hheap hroot⟩

/-- What matters is what scopes keep, and which closures are associated with what. -/
theorem retains (h : c.Lexical fs) (hcode : Provenance.compiler.Holds fs d.heap)
    (hcounted : d.Counted) (hheap : c.heap.Retains d.heap) (hroots : d.heap.EndsAtRoots)
    (hroot : d.engine.root = c.engine.root) (hglobal : d.engine.global = c.engine.global)
    (hclosures : ∀ id k a, d.heap.closures.get? id = some k → d.engine.links[k.serial]? = some a →
      c.heap.closures.get? id = some k ∧ c.engine.links[k.serial]? = some a) : d.Lexical fs := by
  refine ⟨hcode, hcounted, ?_, hroots, fun f hf => seats_retains (h.frames f hf) hheap hroot,
    fun id k a hk ha => ?_⟩
  · rw [hroot, hglobal]
    exact hheap _ _ h.root
  · obtain ⟨hk, ha⟩ := hclosures id k a hk ha
    exact settles_retains (h.closures id k a hk ha) hheap hroot

/-- A change that keeps all outlines, closures and associations. -/
theorem same (h : c.Lexical fs) (hheap : d.heap.outline = c.heap.outline)
    (hclosures : d.heap.closures = c.heap.closures) (hlinks : d.engine.links = c.engine.links)
    (hserial : d.engine.nextSerial = c.engine.nextSerial) (hroot : d.engine.root = c.engine.root)
    (hglobal : d.engine.global = c.engine.global) : d.Lexical fs := by
  refine h.retains ⟨h.code.1, hclosures ▸ h.code.2⟩ ⟨?_, ?_⟩ (.of_eq hheap) (h.roots.of_eq hheap) hroot
    hglobal fun id k a hk ha => ⟨hclosures ▸ hk, hlinks ▸ ha⟩
  · rw [hserial, hlinks]
    exact h.counted.free
  · rw [hserial, hclosures]
    exact h.counted.given

theorem cons (h : c.Lexical fs) (hu : f.unit.Compiled) (hf : c.Seats f) : c.Lexical (f :: fs) := by
  refine ⟨h.code.cons hu, h.counted, h.root, h.roots, fun g hg => ?_, h.closures⟩
  rcases List.mem_cons.mp hg with rfl | hg
  · exact hf
  · exact h.frames g hg

theorem tail (h : c.Lexical (f :: fs)) : c.Lexical fs :=
  ⟨h.code.tail, h.counted, h.root, h.roots, fun g hg => h.frames g (List.mem_cons_of_mem f hg),
    h.closures⟩

/-- Only the unit, the record and the scope of a frame matter. -/
theorem mark {g : Frame} (h : c.Lexical (f :: fs)) (hunit : g.unit = f.unit)
    (hrecord : g.record = f.record) (hscope : g.scope = f.scope) : c.Lexical (g :: fs) := by
  refine h.tail.cons (hunit ▸ h.code.1 f List.mem_cons_self) ?_
  obtain ⟨p, outer, path, base, hplace, hhouses⟩ := h.frames f List.mem_cons_self
  rw [← hrecord] at hplace
  rw [← hunit, ← hscope] at hhouses
  exact ⟨p, outer, path, base, hplace, hhouses⟩

/-- The next closure has a number that is not in the table. -/
theorem bearing {node : Nat} {fn : FunctionNode} (h : c.Lexical (f :: fs))
    (hfn : f.unit.function? node = some fn) : (c.bearing fn f.unit).Lexical (f :: fs) := by
  refine h.retains (h.code.bearing hfn) (h.counted.bearing fn f.unit) (.of_eq rfl) h.roots rfl rfl
    fun id k a hk ha => ?_
  change (c.heap.closures.push _ _).get? id = some k at hk
  change c.engine.links[k.serial]? = some a at ha
  rw [Store.get?_push] at hk
  split at hk
  · cases hk
    rw [show (c.nextClosure fn f.unit).serial = c.engine.nextSerial from rfl,
      h.counted.free _ (Nat.le_refl _)] at ha
    cases ha
  · exact ⟨hk, ha⟩

/-- **A literal is associated with the scope of the frame** that evaluates it. -/
theorem linking {node next : Nat} {fn : FunctionNode} {r : ScopeRecord} (h : c.Lexical (f :: fs))
    (hfn : f.unit.function? node = some fn) (hr : f.unit.record? f.record = some r)
    (hnext : nextChildAfter? r.children f.nextChild fn.id = some next) :
    (c.linking fn f.unit f.scope).Lexical (f :: fs) := by
  have hborn := h.bearing hfn
  have hheap : (c.bearing fn f.unit).heap.Retains (c.linking fn f.unit f.scope).heap := .of_eq rfl
  refine ⟨hborn.code, hborn.counted.associate (Nat.lt_succ_self _) _, hborn.root, hborn.roots,
    fun g hg => seats_retains (hborn.frames g hg) hheap rfl, fun id k a hk ha => ?_⟩
  change (c.engine.links.associate c.engine.nextSerial _).2[k.serial]? = some a at ha
  rw [Links.getElem?_associate] at ha
  have hnew := hk
  change (c.heap.closures.push _ _).get? id = some k at hnew
  rw [Store.get?_push] at hnew
  split at hnew
  · -- the closure itself: its literal stands at the place of the frame
    rename_i hid
    cases hnew
    have hfree : ¬c.engine.links.contains c.engine.nextSerial = true := by
      rw [Std.TreeMap.contains_eq_isSome_getElem?, h.counted.free _ (Nat.le_refl _)]
      exact Bool.false_ne_true
    rw [if_pos ⟨rfl, hfree⟩] at ha
    cases ha
    obtain ⟨p, outer, path, base, hrecord, hhouses⟩ := hborn.frames f List.mem_cons_self
    obtain ⟨r', hr', hchildren, -⟩ := hhouses.unit.place hhouses.nested
    rw [hrecord, hr'] at hr
    cases hr
    obtain ⟨g, hg, hgid⟩ := (hchildren fn.id).mp (mem_of_nextChildAfter? hnext)
    exact ⟨hid.symm, p, outer, path, base, g, hg, hgid, hhouses.retains hheap rfl⟩
  · have hold : k.serial ≠ c.engine.nextSerial := by
      have hgiven := h.counted.given id
      rw [Store.get, hnew] at hgiven
      exact Nat.ne_of_lt hgiven
    rw [if_neg fun heq => hold heq.1] at ha
    exact settles_retains (hborn.closures id k a hk ha) hheap rfl

/-- What a call finds: a frame for the scope, below which the closure was made. -/
theorem entering {id : ClosureId} {r : ScopeRecord} {defining : ScopeId} (h : c.Lexical fs)
    (hscope : c.engine.links.scope? (c.heap.closures.get id).serial = some defining)
    (hr : (c.heap.closures.get id).unit.record? (c.heap.closures.get id).node.id = some r) :
    (c.heap.closures.get id).unit.Compiled ∧ ∃ p outer path base g, .literal g ∈ p.mentionsIn path ∧
      g.id = (c.heap.closures.get id).node.id ∧
      c.Houses (c.heap.closures.get id).unit p outer path base defining := by
  have hk := Heap.get?_of_record hr
  obtain ⟨a, ha, rfl⟩ := Option.map_eq_some_iff.mp hscope
  exact ⟨(h.code.2 id _ hk).1, (h.closures id _ a hk ha).2⟩

theorem capture {id : ClosureId} {r : ScopeRecord} {defining : ScopeId} {bindings : List Binding}
    {this : Value} (h : c.Lexical fs)
    (hscope : c.engine.links.scope? (c.heap.closures.get id).serial = some defining)
    (hr : (c.heap.closures.get id).unit.record? (c.heap.closures.get id).node.id = some r)
    (hneed : r.requiresCapture = true) (hnames : bindings.map Binding.name = r.bindings) :
    (c.under defining r.name bindings this).Lexical
      ((c.heap.closures.get id).frame r (c.heap.scopes.next defining.region) :: fs) := by
  obtain ⟨hunit, p, outer, path, base, g, hg, hid, hhouses⟩ := h.entering hscope hr
  have hpush : (c.under defining r.name bindings this).heap.scopes =
      c.heap.scopes.push defining.region ⟨some defining, r.name, .locals bindings, this⟩ := rfl
  have hunder : (c.under defining r.name bindings this).Lexical fs :=
    h.retains h.code ⟨h.counted.free, h.counted.given⟩ (.of_push hpush)
      (h.roots.of_push hpush fun _ ho => by cases ho) rfl rfl fun _ _ _ hk ha => ⟨hk, ha⟩
  have hold := hhouses.retains (d := c.under defining r.name bindings this) (.of_push hpush) rfl
  refine hunder.cons hunit ⟨p, outer, g :: path, base, hid.symm, hold.unit, .inside hold.nested hg,
    .own hold.enclosed (hid ▸ hr) hneed ?_ ?_, hold.seen⟩
  · rw [Heap.outline_push hpush]
    exact (if_pos rfl).trans (congrArg (fun names => some (some defining, Sum.inr names)) hnames)
  · rcases hhouses.anchored (Option.isSome_of_eq_some h.root) hg with hthere | hnone
    · exact .inl (Store.index_lt_next (Option.isSome_map.symm.trans hthere))
    · exact .inr hnone

theorem share {id : ClosureId} {r : ScopeRecord} {defining : ScopeId} (h : c.Lexical fs)
    (hscope : c.engine.links.scope? (c.heap.closures.get id).serial = some defining)
    (hr : (c.heap.closures.get id).unit.record? (c.heap.closures.get id).node.id = some r)
    (hneed : r.requiresCapture = false) :
    c.Lexical ((c.heap.closures.get id).frame r defining :: fs) := by
  obtain ⟨hunit, p, outer, path, base, g, hg, hid, hhouses⟩ := h.entering hscope hr
  exact h.cons hunit ⟨p, outer, g :: path, base, hid.symm, hhouses.unit, .inside hhouses.nested hg,
    .shared hhouses.enclosed (hid ▸ hr) hneed, hhouses.seen⟩

/-- Code that is compiled for what is visible sees it. -/
theorem evaluating {source : String} {u : CodeUnit} {scope : ScopeId} (h : c.Lexical fs)
    (hu : CodeUnit.compile source (c.heap.visibleNames scope) = .ok u) :
    c.Lexical (unitFrame u scope :: fs) := by
  obtain ⟨p, hp⟩ := CodeUnit.madeFrom_compile hu
  exact h.cons ⟨_, _, hu⟩ ⟨p, _, [], scope, rfl, hp, .top, .top,
    .inl fun x hx => Heap.exists_place_of_visible h.roots hx⟩

theorem ended (h : c.Lexical []) (held : List Cell) : (c.ended held).Lexical [] := by
  have houtline := Heap.outline_prune c.heap c.engine.links held
  refine h.retains (h.code.ended held) (h.counted.ended held) (.of_eq houtline)
    (h.roots.of_eq houtline) rfl rfl fun id k a hk ha => ?_
  have hclosures : (c.ended held).heap.closures = c.heap.closures := Heap.closures_prune ..
  exact ⟨hclosures ▸ hk, ((Heap.getElem?_prune ..).mp ha).1⟩

end Core.Lexical

/-- **Frames and closures follow the source**, whatever an evaluation does. -/
def Invariant.lexical : Invariant where
  holds fs c := c.Lexical fs
  quiet h _ := h.same rfl rfl rfl rfl rfl rfl
  binding h scope name v := h.same (Heap.outline_setLocal _ scope name v) rfl rfl rfl rfl rfl
  birth h hfn := h.bearing hfn
  link {f} _ _ _ _ _ _ h hfn hr hnext := (h.linking hfn hr hnext).mark (f := f) rfl rfl rfl
  capture _ h hscope hr hneed hnames := h.capture hscope hr hneed hnames
  share _ h hscope hr hneed := h.share hscope hr hneed
  code h hunit := h.evaluating hunit
  mark {f} _ _ h _ := h.mark (f := f) rfl rfl rfl
  close h := h.tail

/-- A host of one engine that runs units as they come from the compiler, and links no function that
has lost its association, or never had one. -/
def Host.faithful : Host where
  units := CodeUnit.Compiled
  links s scope id :=
    (s.engine (scope.region - 1)).links.contains (s.heap.closures.get id).serial = true

/-- An engine that is alone follows the source from the beginning. -/
def Regime.lexical : Regime .faithful where
  invariant := .lexical
  atlas := .mentioned
  lone := true
  covers _ _ h := Provenance.covers (fun _ _ _ _ hfn => Atlas.mentioned_function hfn) h.code
  place _ _ ht m hm := CodeUnit.mentions_body (Mention.mem_ofStmts ht m hm)
  unit {c u} h hu := by
    obtain ⟨p, outer, hp⟩ := CodeUnit.Compiled.madeFrom hu
    exact h.cons hu ⟨p, outer, [], c.engine.root, rfl, hp, .top, .top, .inr rfl⟩
  code h hu := h.evaluating hu
  ended h held := h.ended held
  child {_ c} h parent owner bindings this :=
    have hpush : (c.under parent owner bindings this).heap.scopes =
      c.heap.scopes.push parent.region ⟨some parent, owner, .locals bindings, this⟩ := rfl
    h.retains h.code ⟨h.counted.free, h.counted.given⟩ (.of_push hpush)
      (h.roots.of_push hpush fun _ ho => by cases ho) rfl rfl fun _ _ _ hk ha => ⟨hk, ha⟩
  link {s scope id i _} hlink h := by
    rcases s.core_link scope id i with heq | ⟨rfl, heq⟩
    · rw [heq]
      exact h
    · have htaken : (s.engine (scope.region - 1)).links.contains (s.heap.closures.get id).serial =
        true := hlink
      rw [heq, Links.associate, if_pos htaken]
      exact h
  first {h} hfresh name settings host defines := by
    have hmade := Engine.create_heap h (engineRegion 0) name settings host defines
    have hnone : ∀ id, (Engine.create h (engineRegion 0) name settings host
        defines).2.closures.get? id = none := by
      intro id
      rw [hmade.closures]
      exact hfresh.closures id
    have hcode : Provenance.compiler.Holds [] h := .unused hfresh.closures
    refine ⟨hcode.create _ name settings host defines,
      ⟨fun _ _ => Std.TreeMap.getElem?_emptyc, fun id => ?_⟩, ?_, ?_,
      fun _ hf => absurd hf List.not_mem_nil, fun id k a hk _ => ?_⟩
    · rw [Store.get, hnone id]
      exact Nat.one_pos
    · rw [Heap.outline_push hmade.scopes]
      exact if_pos rfl
    · exact hfresh.roots.of_push hmade.scopes fun _ _ => rfl
    · rw [hnone id] at hk
      cases hk
  further hlone := by cases hlone
  others hlone := by cases hlone

/-! ## Where names lead to -/

/-- Where the names of the code of a frame lead to. -/
structure Core.Resolves (c : Core) (f : Frame) (p : Program) (outer : List String)
    (path : List FunctionNode) (base : ScopeId) : Prop where
  /-- The frame runs the code of a place of the program. -/
  place : f.At p outer path
  /-- Its scope follows the source: each scope on the way lies below the one in which its closure was
  made. -/
  scope : Enclosed f.unit c.heap outer base path f.scope
  /-- The unit was compiled for names that are visible from its base, or it was run at the root. -/
  seen : c.heap.Sees outer base ∨ base = c.engine.root
  /-- A name that a function around declares is that of the innermost one. -/
  declared : ∀ before g rest x, path = before ++ g :: rest → (∀ f' ∈ before, ¬f'.Declares x) →
    g.Declares x → .name x ∈ p.mentionsIn path →
    ∃ t, Enclosed f.unit c.heap outer base (g :: rest) t ∧ c.heap.Leads f.scope x t
  /-- Any other name that is visible from the base is the visible one. -/
  outer : c.heap.Sees outer base → ∀ x ∈ outer, (∀ g ∈ path, ¬g.Declares x) →
    .name x ∈ p.mentionsIn path → ∃ t, c.heap.place base x = .binding t ∧ c.heap.Leads f.scope x t

/-- **Names of a frame that is where the source has it lead to where the source says.** -/
theorem Core.Seats.resolves {c : Core} {f : Frame} (h : c.Seats f) :
    ∃ p outer path base, c.Resolves f p outer path base := by
  obtain ⟨p, outer, path, base, hrecord, hunit, hnested, henclosed, hseen⟩ := h
  refine ⟨p, outer, path, base, ⟨hunit, hnested, hrecord⟩, henclosed, hseen, ?_, ?_⟩
  · rintro before g rest x rfl hbefore hdecl hx
    obtain ⟨t, ht, hplace⟩ := henclosed.exists_place hunit before hnested hbefore hdecl (.name hx)
    exact ⟨t, ht, Heap.leads_of_place (hunit.valid hnested hx) hplace⟩
  · intro hsees x hmem hnot hx
    obtain ⟨t, ht⟩ := hsees x hmem
    exact ⟨t, ht, Heap.leads_of_place (hunit.valid hnested hx)
      (henclosed.place_outer hunit hnested hnot hmem ht)⟩

/-! ## Where closures are made and run -/

/-- Scopes keep their outlines. -/
def Invariant.outlined (t : ScopeId) (o : Option ScopeId × (ObjectId ⊕ List String)) : Invariant where
  holds _ c := c.heap.outline t = some o
  quiet h _ := h
  binding h scope name v := (congrFun (Heap.outline_setLocal _ scope name v) t).trans h
  birth h _ := h
  link h _ _ _ := h
  capture _ h _ _ _ _ := Heap.Retains.of_push rfl t o h
  share _ h _ _ _ := h
  code h _ := h
  mark h _ := h
  close h := h

/-- Associations stay as they are. -/
def Invariant.associated (n : Nat) (a : Association) : Invariant where
  holds _ c := c.engine.links[n]? = some a
  quiet h _ := h
  binding h _ _ _ := h
  birth h _ := h
  link {_ _ c _ _ _ _} h _ _ _ := by
    change (c.engine.links.associate _ _).2[n]? = some a
    rw [Links.getElem?_associate, if_neg]
    · exact h
    · rintro ⟨rfl, hfree⟩
      rw [Std.TreeMap.contains_eq_isSome_getElem?, h] at hfree
      exact hfree rfl
  capture _ h _ _ _ _ := h
  share _ h _ _ _ := h
  code h _ := h
  mark h _ := h
  close h := h

/-- The scope lies directly below another one, or is that one. -/
def Heap.Below (h : Heap) (scope parent : ScopeId) : Prop :=
  scope = parent ∨ ∃ shape, h.outline scope = some (some parent, shape)

theorem Heap.below_openFrame {f : Frame} {b : Boundary} {body : List Stmt} {c d : Core} {move : Move}
    {defining : ScopeId} (hf : c.heap.Below f.scope defining)
    (h : openFrame f b body c = .ok move d) :
    ∃ a control, move = .enter [] a control ∧ d.heap.Below a.frame.scope defining := by
  have hends := openFrame_ends (K := fun _ => True) f b body c trivial
  rw [h] at hends
  cases hends with
  | ok hmove =>
    obtain ⟨g, ⟨-, -, hscope⟩, rfl⟩ := hmove
    refine ⟨_, _, rfl, ?_⟩
    rcases hf with hf | ⟨names, ho⟩
    · exact .inl (hscope.trans hf)
    · have hkeeps := Law.openFrame f b body c c
        (show (Invariant.outlined f.scope _).toLaw.rel [f] c c from ⟨rfl, ho⟩)
      rw [h] at hkeeps
      cases hkeeps with
      | ok hrel => exact .inr ⟨names, hscope.symm ▸ hrel.2⟩

/-- What follows a check of the depth begins where the check did. -/
theorem Act.ok_of_checkDepth {α : Type} {q : Unit → Act α} {c d : Core} {depth : Nat} {r : α}
    (h : (checkDepth depth >>= q) c = .ok r d) : q () c = .ok r d := by
  simp only [Bind.bind, EStateM.bind, Law.checkDepth_eq] at h
  by_cases hdepth : depth + c.engine.below.length ≥ c.engine.settings.maxCallDepth
  · rw [if_pos hdepth] at h
    cases h
  · rw [if_neg hdepth] at h
    exact h

/-- The scope of an activation lies below the defining one. -/
theorem Heap.below_activationScope {α : Type} {q : ScopeId → Act α} {r : ScopeRecord} {id : ClosureId}
    {defining : ScopeId} {this : Value} {args : List Value} {c d : Core} {v : α}
    (h : (activationScope r id defining this args >>= q) c = .ok v d) :
    ∃ scope e, e.heap.Below scope defining ∧ q scope e = .ok v d := by
  unfold activationScope at h
  cases hneed : r.requiresCapture with
  | false =>
    rw [hneed] at h
    exact ⟨defining, c, .inl rfl, h⟩
  | true =>
    obtain ⟨bindings, S, -, hvalues⟩ := Law.mapM_firstValue r id args r.bindings c
    have hown := hvalues c.heap.pendings c.engine.watch c.engine.suspensionCount
      c.engine.lastSuspension
    rw [hneed, if_pos rfl] at h
    simp only [Bind.bind, EStateM.bind] at h
    rw [show (r.bindings.mapM (firstValue r id args)) c = _ from hown] at h
    refine ⟨_, _, .inr ⟨.inr (bindings.map Binding.name), ?_⟩, h⟩
    exact (Heap.outline_push rfl _).trans (if_pos rfl)

/-- **A closure runs below the scope that it is associated with.** -/
theorem Act.callClosure_below {c d : Core} {depth : Nat} {id : ClosureId} {this : Value}
    {args : List Value} {move : Move} (h : callClosure depth id this args c = .ok move d) :
    ∃ defining r a control,
      c.engine.links.scope? (c.heap.closures.get id).serial = some defining ∧
        (c.heap.closures.get id).unit.record? (c.heap.closures.get id).node.id = some r ∧
        move = .enter [] a control ∧ d.heap.Below a.frame.scope defining := by
  unfold callClosure at h
  have h := ok_of_checkDepth h
  rw [get_bind] at h
  cases hscope : c.engine.links.scope? (c.heap.closures.get id).serial with
  | none =>
    rw [hscope] at h
    cases h
  | some defining =>
    rw [hscope] at h
    dsimp only at h
    cases hr : (c.heap.closures.get id).unit.record? (c.heap.closures.get id).node.id with
    | none =>
      rw [hr] at h
      cases h
    | some r =>
      rw [hr] at h
      obtain ⟨scope, e, hbelow, hopen⟩ := Heap.below_activationScope h
      obtain ⟨a, control, rfl, hframe⟩ := Heap.below_openFrame hbelow hopen
      exact ⟨defining, r, a, control, rfl, rfl, rfl, hframe⟩

/-- Making the closure of a literal that the record of the frame lists. -/
theorem Act.instantiate_linking {f : Frame} {node next : Nat} {fn : FunctionNode} {r : ScopeRecord}
    {c : Core} (hfn : f.unit.function? node = some fn) (hr : f.unit.record? f.record = some r)
    (hnext : nextChildAfter? r.children f.nextChild fn.id = some next) :
    instantiate f node c = .ok (c.heap.closures.next c.engine.region, { f with nextChild := next })
      (c.linking fn f.unit f.scope) := by
  rw [Law.instantiate_eq, hfn]
  dsimp only
  rw [hr]
  dsimp only
  rw [hnext]

/-- The closure that is made. -/
theorem Core.get_linking (c : Core) (fn : FunctionNode) (unit : CodeUnit)
    (scope : ScopeId) : (c.linking fn unit scope).heap.closures.get
      (c.heap.closures.next c.engine.region) = c.nextClosure fn unit := by
  rw [Store.get, show (c.linking fn unit scope).heap.closures =
    c.heap.closures.push c.engine.region (c.nextClosure fn unit) from rfl, Store.get?_push, if_pos rfl]
  rfl

/-- What it is associated with. -/
theorem Core.getElem?_linking {c : Core} (fn : FunctionNode) (unit : CodeUnit)
    (scope : ScopeId) (hfree : c.engine.links[c.engine.nextSerial]? = none) :
    (c.linking fn unit scope).engine.links[c.engine.nextSerial]? =
      some ⟨c.heap.closures.next c.engine.region, scope, fn.id⟩ := by
  refine (Links.getElem?_associate ..).trans (if_pos ⟨rfl, ?_⟩)
  rw [Std.TreeMap.contains_eq_isSome_getElem?, hfree]
  exact Bool.false_ne_true

/-- **A literal that a frame carries becomes a new closure**, made in the scope of the frame. -/
theorem Machine.step_literal {c : Core} {a : Activation} {callers : List Activation} {span : Span}
    {fn : FunctionNode} (hcarries : a.frame.Carries fn.id) (hcounted : c.Counted) :
    ∃ id m' c', step ⟨.eval (.function span fn), a :: callers⟩ c = (.running m', c') ∧
      m'.control = .checkpoint (.function id) ∧ c.heap.closures.get? id = none ∧
      c'.engine.links.definingScope? c'.heap id = some a.frame.scope := by
  obtain ⟨fn', r, next, hfn, hr, hnext⟩ := hcarries.linked
  have hmade := instantiate_linking (f := (a.mark span).frame) (c := c) hfn hr hnext
  refine ⟨c.heap.closures.next c.engine.region,
    ⟨.checkpoint (.function (c.heap.closures.next c.engine.region)),
      { a with frame := { (a.mark span).frame with nextChild := next } } :: callers⟩,
    c.linking fn' a.frame.unit a.frame.scope, ?_, rfl, Store.get?_next .., ?_⟩
  · unfold step perform startExpr
    simp only [Expr.span, Bind.bind, EStateM.bind, hmade]
    rfl
  · have hlinks := Core.getElem?_linking fn' a.frame.unit a.frame.scope
      (hcounted.free _ (Nat.le_refl _))
    rw [Links.definingScope?, Core.get_linking, show (c.nextClosure fn' a.frame.unit).serial =
      c.engine.nextSerial from rfl, hlinks]
    exact if_pos rfl

/-! ## Every state of every evaluation -/

/-- Any fault may occur. -/
def Tolerance.free (I : Invariant) : Tolerance I where
  fault _ := True
  literal _ _ _ := True
  linked _ _ := .inl fun _ _ _ => trivial
  hoisted _ _ _ _ := trivial
  neverLinked _ := trivial
  recorded _ _ := .inl fun _ _ _ => trivial
  unsupported _ := trivial
  escaped _ := trivial
  transferred := trivial
  stranded := trivial

theorem Tolerance.charted_free {H : Host} (R : Regime H) :
    (Tolerance.free R.invariant).custody.Charted R.atlas where
  covers h := R.covers _ _ h
  unit _ := trivial
  function _ := trivial

/-- Names and closures in one state of a machine. -/
structure Machine.Resolves (m : Machine) (c : Core) : Prop where
  /-- The names of every frame lead to where the source says. -/
  names : ∀ f ∈ m.frames, ∃ p outer path base, c.Resolves f p outer path base
  /-- All code that runs, and so every name that it reads or writes, is mentioned at the place of its
  frame, or was put in by the compiler. -/
  code : m.Placed .mentioned
  read {span x a callers} : m = ⟨.eval (.ident span x), a :: callers⟩ →
    ∀ p outer path, a.frame.At p outer path → .name x ∈ p.mentionsIn path ∨ Inserted x
  /-- A literal becomes a new closure, made in the scope of the innermost frame. -/
  made {span fn a callers} : m = ⟨.eval (.function span fn), a :: callers⟩ →
    ∃ id m' c', m.step c = (.running m', c') ∧ m'.control = .checkpoint (.function id) ∧
      c.heap.closures.get? id = none ∧
      c'.engine.links.definingScope? c'.heap id = some a.frame.scope
  /-- A closure runs below the scope in which it was made. -/
  called {depth id this args move d} : callClosure depth id this args c = .ok move d →
    ∃ defining a control, c.engine.links.definingScope? c.heap id = some defining ∧
      move = .enter [] a control ∧ d.heap.Below a.frame.scope defining
  /-- Where a closure was made does not change. -/
  kept : ∀ (n : Nat) a, c.engine.links[n]? = some a → (m.step c).2.engine.links[n]? = some a

/-- The table is asked for the closure itself. -/
theorem Core.Lexical.definingScope?_eq {c : Core} {fs : List Frame} (h : c.Lexical fs)
    {id : ClosureId} {r : ScopeRecord}
    (hr : (c.heap.closures.get id).unit.record? (c.heap.closures.get id).node.id = some r) :
    c.engine.links.definingScope? c.heap id =
      c.engine.links.scope? (c.heap.closures.get id).serial := by
  unfold Links.definingScope? Links.scope?
  cases ha : c.engine.links[(c.heap.closures.get id).serial]? with
  | none => rfl
  | some a =>
    obtain ⟨hid, -⟩ := h.closures id _ a (Heap.get?_of_record hr) ha
    exact if_pos hid

theorem Custody.Guards.resolves {m : Machine} {c : Core}
    (h : (Tolerance.free .lexical).custody.Guards .mentioned m c) : m.Resolves c := by
  have hlexical : c.Lexical m.frames := h.safe.good
  -- what the control of an activation mentions stands at the place of its frame
  have hstems : ∀ {e a callers}, m = ⟨.eval e, a :: callers⟩ → ∀ p outer path,
      a.frame.At p outer path → ∀ mention ∈ Mention.ofExpr e, Stems [mention] (p.mentionsIn path) := by
    rintro e a callers rfl p outer path hat mention hmention
    have hexpr : (Atlas.mentioned.parts a).expr e := h.placed.2
    rw [Atlas.parts_mentioned (h.safe.stack a List.mem_cons_self).2] at hexpr
    exact hexpr mention hmention p outer path hat.unit hat.nested hat.record.symm
  refine ⟨fun f hf => (hlexical.frames f hf).resolves, h.placed, ?_, ?_, ?_, fun n a ha => ?_⟩
  · intro span x a callers hm p outer path hat
    exact (hstems hm p outer path hat (.name x) List.mem_cons_self).name x List.mem_cons_self
  · rintro span fn a callers rfl
    obtain ⟨p, outer, path, base, hresolves⟩ := (hlexical.frames a.frame List.mem_cons_self).resolves
    obtain ⟨g, hg, hid⟩ := (hstems rfl p outer path hresolves.place (.literal fn)
      List.mem_cons_self).literal fn List.mem_cons_self
    exact Machine.step_literal (hid ▸ hresolves.place.carries hg) hlexical.counted
  · intro depth id this args move d hcall
    obtain ⟨defining, r, a, control, hscope, hr, hmove, hbelow⟩ := callClosure_below hcall
    exact ⟨defining, a, control, (hlexical.definingScope?_eq hr).trans hscope, hmove, hbelow⟩
  · have hstep := (Invariant.associated n a).step (m := m) (c := c) ha
    exact hstep

namespace Session

variable {s : Session}

/-- **Bound names resolve lexically.** On a single engine, in every state of every evaluation, a name
that a function around it declares is read from and written to the binding of the innermost such
function, in the activation in which the code was made; a name that no function of its unit declares,
but that was visible where the unit was compiled to run, is the visible one. -/
theorem names_lexical (hs : Live .faithful s) (hsize : s.stations.size = 1) :
    ∀ m c, Running .faithful s 0 m c → m.Resolves c := by
  have hkeeps : Tolerance.Keeps Regime.lexical s :=
    Tolerance.live (Tolerance.charted_free _) hs fun _ => Nat.le_of_eq hsize
  intro m c hm
  exact (Tolerance.running (Tolerance.charted_free _) hkeeps (hsize ▸ Nat.one_pos) hm).resolves

end Session

/-- A function that reads the parameter of the function in which it was made, when that one is over. -/
def CodeUnit.readingOuter : CodeUnit :=
  .ofSource "function mk(x) { return function () { return x; }; } mk(true)()"

/-- The machine is about to read a name that leads to a binding of this scope. -/
def Machine.readsFrom (name : String) (b : ScopeId) (m : Machine) (c : Core) : Bool :=
  match m with
  | ⟨.eval (.ident _ x), a :: _⟩ =>
    x = name && (a.frame.record ≠ 0 && c.heap.place a.frame.scope x = .binding b)
  | _ => false

theorem Machine.eq_of_readsFrom {m : Machine} {c : Core} {name : String} {b : ScopeId}
    (h : m.readsFrom name b c = true) : ∃ span a callers, m = ⟨.eval (.ident span name), a :: callers⟩ ∧
      a.frame.record ≠ 0 ∧ c.heap.place a.frame.scope name = .binding b := by
  unfold readsFrom at h
  split at h
  · simp only [Bool.and_eq_true, decide_eq_true_eq] at h
    obtain ⟨rfl, h⟩ := h
    exact ⟨_, _, _, rfl, h⟩
  · cases h

namespace Session

/-- The inner function reads the parameter of the outer one, in the scope that was opened for its call. -/
theorem names_lexical_outer :
    CodeUnit.compile "function mk(x) { return function () { return x; }; } mk(true)()" [] =
        .ok .readingOuter ∧
      (∃ m c span a callers, Running .faithful bare 0 m c ∧ m.Resolves c ∧
        m = ⟨.eval (.ident span "x"), a :: callers⟩ ∧
        (∃ p outer path base, c.Resolves a.frame p outer path base ∧ path ≠ [] ∧
          .name "x" ∈ p.mentionsIn path) ∧
        c.heap.place a.frame.scope "x" = .binding ⟨1, 1⟩ ∧
        c.heap.outline ⟨1, 1⟩ = some (some (bare.engine 0).root, .inr ["x"])) ∧
      (bare.runUnit 0 .readingOuter).1 = .finished (.ok (.bool true)) := by
  have hcompiled : CodeUnit.compile "function mk(x) { return function () { return x; }; } mk(true)()"
      [] = .ok .readingOuter := CodeUnit.compile_ofSource (by decide +kernel)
  have hunit : Request .faithful bare 0 (Act.openUnit .readingOuter (bare.engine 0).root) {} :=
    .unit ⟨_, _, hcompiled⟩
  have hreach : (bare.asked? 0 (Act.openUnit .readingOuter (bare.engine 0).root) 23).any fun r =>
      r.1.readsFrom "x" ⟨1, 1⟩ r.2 &&
        r.2.heap.outline ⟨1, 1⟩ = some (some (bare.engine 0).root, .inr ["x"]) := by decide +kernel
  obtain ⟨⟨m, c⟩, hreach, hreads⟩ := (Option.any_eq_true ..).mp hreach
  obtain ⟨hreads, houtline⟩ := Bool.and_eq_true_iff.mp hreads
  have hrun := Running.of_asked (by decide) hunit hreach
  have hresolves := names_lexical live_bare (by decide) m c hrun
  obtain ⟨span, a, callers, rfl, hrecord, hplace⟩ := Machine.eq_of_readsFrom hreads
  obtain ⟨p, outer, path, base, hframe⟩ := hresolves.names a.frame List.mem_cons_self
  refine ⟨hcompiled, ⟨_, c, span, a, callers, hrun, hresolves, rfl, ⟨p, outer, path, base, hframe, ?_, ?_⟩,
    hplace, of_decide_eq_true houtline⟩, Answer.eq_of_tells (by decide +kernel)⟩
  · rintro rfl
    exact hrecord hframe.place.record
  · exact (hresolves.read rfl p outer path hframe.place).resolve_right (not_or.mpr ⟨by decide, by decide⟩)

end Session

end Fermata
