import Fermata.Proofs.Custody.Tolerance
import Fermata.Proofs.Name.Place
import Fermata.Proofs.Session.Provenance

/-!
# Literals are linked

A frame runs the code of a place of the source, and its record lists the literals of that place. So a
literal that an activation comes to, or a function that it declares, is found among the children of its
record and in the tables of its unit, and linking it succeeds.

* `Frame.At`: the frame runs the code of a place.
* `Frame.Carries`: a literal stands in the code of the frame, and the tables have it.
* `Session.literals_linked`: so it is with every literal of every evaluation, and no answer tells of a
  failed link.
-/

namespace Fermata

open Act

/-! ## Places of frames -/

/-- The frame runs the code of this place of a program. -/
structure Frame.At (f : Frame) (p : Program) (outer : List String) (path : List FunctionNode) :
    Prop where
  unit : f.unit.MadeFrom p outer
  nested : p.Nested path
  record : f.record = recordIn path

/-- The literal with this number stands in the code that the frame runs: the record of the frame lists
it, and the tables of the unit have it. -/
structure Frame.Carries (f : Frame) (node : Nat) : Prop where
  place : ∃ p outer path g, f.At p outer path ∧ .literal g ∈ p.mentionsIn path ∧ g.id = node
  child : ∃ r, f.unit.record? f.record = some r ∧ node ∈ r.children
  function : ∃ fn, f.unit.function? node = some fn ∧ fn.id = node
  record : ∃ r, f.unit.record? node = some r

namespace Frame.At

variable {f : Frame} {p : Program} {outer : List String} {path : List FunctionNode}

/-- **A literal of the place is carried** by the frame. -/
theorem carries (h : f.At p outer path) {g : FunctionNode} (hg : .literal g ∈ p.mentionsIn path) :
    f.Carries g.id := by
  obtain ⟨r, hr, hchildren, -⟩ := h.unit.place h.nested
  obtain ⟨r', fn, hr', hfn, -, hres⟩ := h.unit.function (h.nested.within g (.here hg))
  refine ⟨⟨p, outer, path, g, h, hg, rfl⟩, ⟨r, ?_, (hchildren g.id).mpr ⟨g, hg, rfl⟩⟩,
    ⟨fn, hfn, hres.id⟩, ⟨r', hr'⟩⟩
  rw [h.record]
  exact hr

/-- A function that the place declares is a literal of it. -/
theorem hoisted (h : f.At p outer path) {r : ScopeRecord} (hr : f.unit.record? f.record = some r)
    {node : Nat} (hnode : node ∈ r.hoisted) :
    ∃ g, .literal g ∈ p.mentionsIn path ∧ g.id = node := by
  obtain ⟨r', hr', hchildren, hhoisted⟩ := h.unit.place h.nested
  rw [h.record, hr'] at hr
  cases hr
  exact (hchildren node).mp (hhoisted node hnode)

end Frame.At

/-- A child that was not passed comes later. -/
theorem Act.exists_nextChildAfter? {children : List Nat} {node : Nat} (hnode : node ∈ children)
    (index : Nat) : ∃ next, nextChildAfter? children index node = some next := by
  unfold nextChildAfter?
  cases hlater : (children.drop index).findIdx? (· == node) with
  | some offset => exact ⟨_, rfl⟩
  | none =>
    have hearlier : node ∈ children.take index := by
      rw [← List.take_append_drop index children] at hnode
      rcases List.mem_append.mp hnode with h | h
      · exact h
      · have hne := List.findIdx?_eq_none_iff.mp hlater node h
        rw [beq_self_eq_true] at hne
        cases hne
    exact ⟨index, if_pos (List.contains_iff_mem.mpr hearlier)⟩

theorem Act.mem_of_nextChildAfter? {children : List Nat} {index node next : Nat}
    (h : nextChildAfter? children index node = some next) : node ∈ children := by
  unfold nextChildAfter? at h
  cases hlater : (children.drop index).findIdx? (· == node) with
  | some offset =>
    have hany := List.findIdx?_isSome.symm.trans (Option.isSome_of_eq_some hlater)
    obtain ⟨child, hchild, heq⟩ := List.any_eq_true.mp hany
    exact eq_of_beq heq ▸ List.mem_of_mem_drop hchild
  | none =>
    rw [hlater] at h
    dsimp only at h
    split at h
    · rename_i hearlier
      exact List.mem_of_mem_take (List.contains_iff_mem.mp hearlier)
    · cases h

/-- What a frame carries can be linked. -/
theorem Frame.Carries.linked {f : Frame} {node : Nat} (h : f.Carries node) :
    ∃ fn r next, f.unit.function? node = some fn ∧ f.unit.record? f.record = some r ∧
      nextChildAfter? r.children f.nextChild fn.id = some next := by
  obtain ⟨-, ⟨r, hr, hnode⟩, ⟨fn, hfn, hid⟩, -⟩ := h
  obtain ⟨next, hnext⟩ := exists_nextChildAfter? hnode f.nextChild
  exact ⟨fn, r, next, hfn, hr, hid ▸ hnext⟩

/-! ## Frames and closures of compiled units -/

/-- Units that the compiler gives. -/
def Provenance.compiler : Provenance where
  units := CodeUnit.Compiled
  compiled h := ⟨_, _, h⟩
  numbered hu hfn := by
    obtain ⟨p, outer, hp⟩ := hu.madeFrom
    obtain ⟨g, -, hid, hres⟩ := hp.literal_of_function? hfn
    exact hres.id.trans hid

/-- The frame runs the top level of its unit, or a function of it. -/
def Frame.Sited (f : Frame) : Prop := f.record = 0 ∨ ∃ fn, f.unit.function? f.record = some fn

/-- A frame of a compiled unit runs the code of a place. -/
theorem Frame.Sited.exists_at {f : Frame} (h : f.Sited) (hu : f.unit.Compiled) :
    ∃ p outer path, f.At p outer path := by
  obtain ⟨p, outer, hp⟩ := hu.madeFrom
  rcases h with hrecord | ⟨fn, hfn⟩
  · exact ⟨p, outer, [], hp, .top, hrecord⟩
  · obtain ⟨g, hg, hid, -⟩ := hp.literal_of_function? hfn
    obtain ⟨path, hpath⟩ := Program.Nested.of_within hg .top rfl
    exact ⟨p, outer, g :: path, hp, hpath, hid.symm⟩

namespace Core

/-- All code comes from the compiler, every frame runs a place of it, and the number 0 stands for no
closure. -/
structure Sited (fs : List Frame) (c : Core) : Prop where
  code : Provenance.compiler.Holds fs c.heap
  frames : ∀ f ∈ fs, f.Sited
  serial : ∀ id k, c.heap.closures.get? id = some k → 0 < k.serial
  next : 0 < c.engine.nextSerial
  links : c.engine.links[0]? = none

namespace Sited

variable {f : Frame} {fs : List Frame} {c : Core}

theorem frame (h : c.Sited (f :: fs)) : ∃ p outer path, f.At p outer path :=
  (h.frames f List.mem_cons_self).exists_at (h.code.1 f List.mem_cons_self)

theorem cons (h : c.Sited fs) (hu : f.unit.Compiled) (hf : f.Sited) : c.Sited (f :: fs) := by
  refine ⟨h.code.cons hu, fun g hg => ?_, h.serial, h.next, h.links⟩
  rcases List.mem_cons.mp hg with rfl | hg
  · exact hf
  · exact h.frames g hg

theorem tail (h : c.Sited (f :: fs)) : c.Sited fs :=
  ⟨h.code.tail, fun g hg => h.frames g (List.mem_cons_of_mem f hg), h.serial, h.next, h.links⟩

/-- Only the unit and the record of a frame matter. -/
theorem same {g : Frame} (h : c.Sited (f :: fs)) (hunit : g.unit = f.unit)
    (hrecord : g.record = f.record) : c.Sited (g :: fs) := by
  refine h.tail.cons (hunit ▸ h.code.1 f List.mem_cons_self) ?_
  unfold Frame.Sited
  rw [hunit, hrecord]
  exact h.frames f List.mem_cons_self

theorem bearing {node : Nat} {fn : FunctionNode} (h : c.Sited (f :: fs))
    (hfn : f.unit.function? node = some fn) : (c.bearing fn f.unit).Sited (f :: fs) := by
  refine ⟨h.code.bearing hfn, h.frames, fun id k hk => ?_, Nat.succ_pos _, h.links⟩
  change (c.heap.closures.push _ _).get? id = some k at hk
  rw [Store.get?_push] at hk
  split at hk
  · cases hk
    exact h.next
  · exact h.serial id k hk

theorem associate {serial : Nat} (h : c.Sited fs) (hserial : 0 < serial) (a : Association) :
    Sited fs { c with engine := { c.engine with links := (c.engine.links.associate serial a).2 } } := by
  refine ⟨h.code, h.frames, h.serial, h.next, ?_⟩
  dsimp only
  rw [Links.getElem?_associate, if_neg fun hn => Nat.ne_of_lt hserial hn.1]
  exact h.links

/-- A call enters a function of a compiled unit. -/
theorem entering {id : ClosureId} {r : ScopeRecord} (h : c.Sited fs)
    (hr : (c.heap.closures.get id).unit.record? (c.heap.closures.get id).node.id = some r)
    (scope : ScopeId) : c.Sited ((c.heap.closures.get id).frame r scope :: fs) := by
  obtain ⟨hunit, hfn⟩ := h.code.2 id _ (Heap.get?_of_record hr)
  exact h.cons hunit (.inr ⟨_, hfn⟩)

/-- An associated closure is on the heap. -/
theorem get?_of_scope? {id : ClosureId} {scope : ScopeId} (h : c.Sited fs)
    (hscope : c.engine.links.scope? (c.heap.closures.get id).serial = some scope) :
    c.heap.closures.get? id = some (c.heap.closures.get id) := by
  unfold Store.get at hscope ⊢
  cases hk : c.heap.closures.get? id with
  | some k => rfl
  | none =>
    rw [hk] at hscope
    change (c.engine.links[0]?).map _ = _ at hscope
    rw [h.links] at hscope
    cases hscope

/-- An associated closure has a record. -/
theorem recorded {id : ClosureId} {scope : ScopeId} (h : c.Sited fs)
    (hscope : c.engine.links.scope? (c.heap.closures.get id).serial = some scope) :
    ∃ r, (c.heap.closures.get id).unit.record? (c.heap.closures.get id).node.id = some r := by
  obtain ⟨hunit, hfn⟩ := h.code.2 id _ (h.get?_of_scope? hscope)
  obtain ⟨p, outer, hp⟩ := CodeUnit.Compiled.madeFrom hunit
  obtain ⟨g, hg, hid, -⟩ := hp.literal_of_function? hfn
  obtain ⟨r, -, hr, -⟩ := hp.function hg
  exact ⟨r, hid ▸ hr⟩

end Sited

end Core

/-- **All code comes from the compiler**, and all frames run a place of it. -/
def Invariant.sited : Invariant where
  holds fs c := c.Sited fs
  quiet h _ := ⟨h.code, h.frames, h.serial, h.next, h.links⟩
  binding h _ _ _ := ⟨h.code, h.frames, h.serial, h.next, h.links⟩
  birth h hfn := h.bearing hfn
  link {f} _ _ _ _ _ _ h hfn _ _ :=
    ((h.bearing hfn).associate h.next _).same (f := f) rfl rfl
  capture _ h _ hr _ _ :=
    have hnew := h.entering hr _
    ⟨hnew.code, hnew.frames, hnew.serial, hnew.next, hnew.links⟩
  share _ h _ hr _ := h.entering hr _
  code h hunit := h.cons ⟨_, _, hunit⟩ (.inl rfl)
  mark {f} _ _ h _ := h.same (f := f) rfl rfl
  close h := h.tail

/-- A host that runs units as they come from the compiler, and links only functions that exist. -/
def Host.compiling : Host where
  units := CodeUnit.Compiled
  links s _ id := (s.heap.closures.get? id).isSome

/-- Compiled units everywhere, from the first engine on. -/
def Regime.sited : Regime .compiling where
  invariant := .sited
  atlas := .mentioned
  lone := false
  covers _ _ h := Provenance.covers (fun _ _ _ _ hfn => Atlas.mentioned_function hfn) h.code
  place _ _ ht m hm := CodeUnit.mentions_body (Mention.mem_ofStmts ht m hm)
  unit h hu := h.cons hu (.inl rfl)
  code h hu := h.cons ⟨_, _, hu⟩ (.inl rfl)
  ended {c} h held := by
    refine ⟨h.code.ended held, h.frames, fun id k hk => ?_, h.next, ?_⟩
    · change (c.heap.prune c.engine.links held).2.closures.get? id = some k at hk
      rw [Heap.closures_prune] at hk
      exact h.serial id k hk
    · change (c.heap.prune c.engine.links held).1[0]? = none
      refine Option.eq_none_iff_forall_ne_some.mpr fun a ha => ?_
      have hold := ((Heap.getElem?_prune ..).mp ha).1
      rw [h.links] at hold
      cases hold
  child h _ _ _ _ := ⟨h.code, h.frames, h.serial, h.next, h.links⟩
  link {s scope id i _} hlink h := by
    rcases s.core_link scope id i with heq | ⟨-, heq⟩
    · rw [heq]
      exact h
    · rw [heq]
      obtain ⟨k, hk⟩ := Option.isSome_iff_exists.mp hlink
      have hserial : 0 < (s.heap.closures.get id).serial := by
        rw [Store.get, hk]
        exact h.serial id k hk
      exact h.associate hserial _
  first {h} hfresh name settings host defines := by
    have hcode : Provenance.compiler.Holds [] h := .unused hfresh.closures
    refine ⟨hcode.create _ name settings host defines, fun _ hf => absurd hf List.not_mem_nil,
      fun id k hk => ?_, Nat.one_pos, Std.TreeMap.getElem?_emptyc⟩
    rw [(Engine.create_heap ..).closures] at hk
    rw [show h.closures.get? id = none from hfresh.closures id] at hk
    cases hk
  further {fs c} _ h region name settings host defines := by
    have hserial : ∀ id k, (Engine.create c.heap region name settings host
        defines).2.closures.get? id = some k → 0 < k.serial := by
      intro id k hk
      rw [(Engine.create_heap ..).closures] at hk
      exact h.serial id k hk
    exact ⟨⟨h.code.create region name settings host defines, h.frames, hserial, h.next, h.links⟩,
      ⟨h.code.idle.create region name settings host defines,
        fun _ hf => absurd hf List.not_mem_nil, hserial, Nat.one_pos, Std.TreeMap.getElem?_emptyc⟩⟩
  others _ h hd := ⟨⟨h.code.1, hd.code.2⟩, h.frames, hd.serial, h.next, h.links⟩

/-! ## Faults of links -/

/-- The fault of a literal or a closure that its unit does not know, or that is in the wrong place. -/
def Fault.IsLink : Fault → Prop
  | .link .. => True
  | _ => False

/-- The host is told of such a fault. -/
def Answer.IsLink : Answer → Prop
  | .finished (.error (.fault f)) => f.IsLink
  | _ => False

/-- Literals are linked where they stand in the source. -/
def Tolerance.sited : Tolerance Invariant.sited where
  fault f := ¬f.IsLink
  literal u record node := ∀ p outer path, u.MadeFrom p outer → p.Nested path →
    recordIn path = record → ∃ g, .literal g ∈ p.mentionsIn path ∧ g.id = node
  linked h hnode := by
    obtain ⟨p, outer, path, hat⟩ := h.frame
    obtain ⟨g, hg, rfl⟩ := hnode p outer path hat.unit hat.nested hat.record.symm
    exact .inr (hat.carries hg).linked
  hoisted {f _ _ r} h hr node hnode p outer path hu hpath hrecord := by
    have hat : f.At p outer path := ⟨hu, hpath, hrecord.symm⟩
    exact hat.hoisted hr hnode
  neverLinked _ := id
  recorded h hscope := .inr (h.recorded hscope)
  unsupported _ := id
  escaped _ := id
  transferred := id
  stranded := id

/-- The atlas of mentions has the literals in their places. -/
theorem Tolerance.charted_sited : Tolerance.sited.custody.Charted Regime.sited.atlas where
  covers h := Regime.sited.covers _ _ h
  unit h p outer path hu hpath hrecord :=
    (h _ List.mem_cons_self p outer path hu hpath hrecord).literal _ List.mem_cons_self
  function h p outer path hu hpath hrecord :=
    (h _ List.mem_cons_self p outer path hu hpath hrecord).literal _ List.mem_cons_self

/-- Literals and links in one state of a machine. -/
structure Machine.Linked (m : Machine) : Prop where
  /-- A literal that is evaluated stands in the code of the innermost frame. -/
  evaluated {span fn a callers} : m = ⟨.eval (.function span fn), a :: callers⟩ →
    a.frame.Carries fn.id
  /-- So does every function that a frame made on entry. -/
  hoisted : ∀ f ∈ m.frames, ∀ r, f.unit.record? f.record = some r → ∀ node ∈ r.hoisted, f.Carries node
  /-- No link failed. -/
  kept {f stack} : m = ⟨.abrupt (.fault f), stack⟩ → ¬f.IsLink

theorem Custody.Guards.linked {m : Machine} {c : Core}
    (h : Tolerance.sited.custody.Guards .mentioned m c) : m.Linked := by
  have hsited : c.Sited m.frames := h.safe.good
  have hat : ∀ f ∈ m.frames, ∃ p outer path, f.At p outer path := fun f hf =>
    (hsited.frames f hf).exists_at (hsited.code.1 f hf)
  refine ⟨?_, fun f hf r hr node hnode => ?_, ?_⟩
  · rintro span fn a callers rfl
    obtain ⟨p, outer, path, hplace⟩ := hat a.frame List.mem_cons_self
    obtain ⟨g, hg, hid⟩ := literal_of_placed Tolerance.charted_sited h rfl p outer path hplace.unit
      hplace.nested hplace.record.symm
    exact hid ▸ hplace.carries hg
  · obtain ⟨p, outer, path, hplace⟩ := hat f hf
    obtain ⟨g, hg, rfl⟩ := hplace.hoisted hr hnode
    exact hplace.carries hg
  · rintro f stack rfl
    exact h.safe.control

namespace Session

theorem not_isLink {answer : Answer} (h : answer.Tolerates fun f => ¬f.IsLink) : ¬answer.IsLink := by
  unfold Answer.IsLink
  split
  · exact h
  · exact id

variable {s : Session} {i : Nat}

/-- **Links of compiled code never fail.** Whatever a host has done, every literal that is evaluated or
hoisted stands in the code of its frame, in every state of every evaluation, and no answer tells of a
failed link. -/
theorem literals_linked (hs : Live .compiling s) (hi : i < s.stations.size) :
    (∀ m c, Running .compiling s i m c → m.Linked) ∧
      (∀ act loan, Request .compiling s i act loan → ¬(s.evaluate i act loan).1.IsLink) ∧
      ∀ answer, (s.poll i).1 = some answer → ¬answer.IsLink := by
  have hkeeps : Tolerance.Keeps Regime.sited s := Tolerance.live Tolerance.charted_sited hs nofun
  refine ⟨fun m c hm => ?_, fun act loan hact => ?_, fun answer hanswer => ?_⟩
  · exact (Tolerance.running Tolerance.charted_sited hkeeps hi hm).linked
  · exact not_isLink (Tolerance.evaluate Tolerance.charted_sited hkeeps hi hact)
  · exact not_isLink (Tolerance.poll Tolerance.charted_sited hkeeps hi hanswer)

end Session

/-- A function that is declared, and one that it makes. -/
def CodeUnit.makingInner : CodeUnit :=
  .ofSource "function f() { return function () { return true; }; } f()()"

/-- The machine is about to make a function within a function that a unit declares. -/
def Machine.makesInner : Machine → Bool
  | ⟨.eval (.function _ _), [_, b]⟩ =>
    (b.frame.unit.record? b.frame.record).any (·.hoisted.length = 1)
  | _ => false

theorem Machine.eq_of_makesInner {m : Machine} (h : m.makesInner = true) :
    ∃ span fn a b r node, m = ⟨.eval (.function span fn), [a, b]⟩ ∧
      b.frame.unit.record? b.frame.record = some r ∧ r.hoisted = [node] := by
  unfold makesInner at h
  split at h
  · obtain ⟨r, hr, hlength⟩ := (Option.any_eq_true ..).mp h
    obtain ⟨node, hnode⟩ := List.length_eq_one_iff.mp (of_decide_eq_true hlength)
    exact ⟨_, _, _, _, r, node, rfl, hr, hnode⟩
  · cases h

namespace Session

/-- A function expression that is evaluated in a function which its unit declares. -/
theorem literals_linked_inner :
    CodeUnit.compile "function f() { return function () { return true; }; } f()()" [] =
        .ok .makingInner ∧
      (∃ m c span fn a b r node, Running .compiling bare 0 m c ∧ m.Linked ∧
        m = ⟨.eval (.function span fn), [a, b]⟩ ∧ a.frame.Carries fn.id ∧
        b.frame.unit.record? b.frame.record = some r ∧ r.hoisted = [node] ∧
        b.frame.Carries node) ∧
      (bare.runUnit 0 .makingInner).1 = .finished (.ok (.bool true)) ∧
      ¬(bare.runUnit 0 .makingInner).1.IsLink := by
  have hcompiled : CodeUnit.compile "function f() { return function () { return true; }; } f()()" [] =
      .ok .makingInner := CodeUnit.compile_ofSource (by decide +kernel)
  have hunit : Request .compiling bare 0 (Act.openUnit .makingInner (bare.engine 0).root) {} :=
    .unit ⟨_, _, hcompiled⟩
  obtain ⟨hrunning, hanswers, -⟩ := literals_linked (i := 0) live_bare (by decide)
  have hreach : (bare.asked? 0 (Act.openUnit .makingInner (bare.engine 0).root) 11).any
    (·.1.makesInner) := by decide +kernel
  obtain ⟨⟨m, c⟩, hreach, hmakes⟩ := (Option.any_eq_true ..).mp hreach
  have hrun := Running.of_asked (by decide) hunit hreach
  have hlinked := hrunning m c hrun
  obtain ⟨span, fn, a, b, r, node, rfl, hr, hnode⟩ := Machine.eq_of_makesInner hmakes
  have hhoisted := hlinked.hoisted b.frame (by simp [Machine.frames]) r hr node
    (by simp [hnode])
  exact ⟨hcompiled, ⟨_, c, span, fn, a, b, r, node, hrun, hlinked, rfl, hlinked.evaluated rfl, hr,
    hnode, hhoisted⟩, Answer.eq_of_tells (by decide +kernel), hanswers _ _ hunit⟩

end Session

end Fermata
