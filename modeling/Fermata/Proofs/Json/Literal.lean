import Fermata.Proofs.Grammar.Json
import Fermata.Proofs.Prune.Effect
import Fermata.Proofs.Suspension.Lockstep

/-!
# JSON as a program

A literal that is made like a tree has no names to resolve, and evaluating it only makes objects. So the
text of data, in parentheses, is a program whose value is this data.

* `Core.Leads`: a machine goes on to another one in a number of steps.
* `Expr.Spells.resolve`: the names of such a literal are resolved.
* `Expr.Spells.evaluates`: its value spells the tree.
* **`Session.run_compact`**: the program has a value with the tree as its JSON, on every engine.
-/

namespace Fermata

/-! ## Resolving -/

namespace Resolve

variable {st : State} {es : List Expr} {ps : List PropertyDef}

theorem exprs_unchanged (h : ∀ e ∈ es, expr e st = .ok (e, st)) : exprs es st = .ok (es, st) := by
  induction es with
  | nil => rfl
  | cons e es ih =>
    have hrest := ih fun e' he' => h e' (List.mem_cons_of_mem e he')
    simp only [exprs, Bind.bind, StateT.bind, Except.bind, h e List.mem_cons_self, hrest]
    rfl

theorem properties_unchanged (h : ∀ p ∈ ps, expr p.value st = .ok (p.value, st)) :
    properties ps st = .ok (ps, st) := by
  induction ps with
  | nil => rfl
  | cons p ps ih =>
    obtain ⟨key, value, span⟩ := p
    have hvalue : expr value st = .ok (value, st) := h _ List.mem_cons_self
    have hrest := ih fun p' hp' => h p' (List.mem_cons_of_mem _ hp')
    simp only [properties, Bind.bind, StateT.bind, Except.bind, hvalue, hrest]
    rfl

end Resolve

/-- Each element of a list stands beside one of an equally long list. -/
theorem exists_mem_zip {α β : Type} {as : List α} {bs : List β} (h : as.length = bs.length) {a : α}
    (ha : a ∈ as) : ∃ b, (a, b) ∈ as.zip bs := by
  rw [← List.map_fst_zip (Nat.le_of_eq h)] at ha
  obtain ⟨⟨_, b⟩, hab, rfl⟩ := List.mem_map.mp ha
  exact ⟨b, hab⟩

/-- There is nothing to resolve in a literal of data. -/
theorem Expr.Spells.resolve {e : Expr} {j : Json} (h : e.Spells j) (st : Resolve.State) :
    Resolve.expr e st = .ok (e, st) := by
  induction h with
  | null | bool | string => rfl
  | @array σ es js hlength _ ih =>
    have hes : Resolve.exprs es st = .ok (es, st) := by
      refine Resolve.exprs_unchanged fun e he => ?_
      obtain ⟨j, hej⟩ := exists_mem_zip hlength he
      exact ih e j hej
    simp only [Resolve.expr, Bind.bind, StateT.bind, Except.bind, hes]
    rfl
  | @object σ ps ms hlength _ _ ih =>
    have hps : Resolve.properties ps st = .ok (ps, st) := by
      refine Resolve.properties_unchanged fun p hp => ?_
      obtain ⟨m, hpm⟩ := exists_mem_zip hlength hp
      exact ih p m hpm
    simp only [Resolve.expr, Bind.bind, StateT.bind, Except.bind, hps]
    rfl

/-- The unit of a program that is a literal of data has the literal as its body, and no functions. -/
theorem CodeUnit.ofProgram_spells {e : Expr} {j : Json} (h : e.Spells j) (source : String) (σ τ : Span) :
    ∃ u r, CodeUnit.ofProgram source ⟨[.expression σ e], τ, 1⟩ [] = .ok u ∧
      u.program.body = [.expression σ e] ∧ u.record? 0 = some r ∧ r.hoisted = [] := by
  have hbody : ∀ st, (Resolve.stmts [.expression σ e]).run st = .ok ([.expression σ e], st) := by
    intro st
    simp only [StateT.run, Resolve.stmts, Resolve.stmt, Bind.bind, StateT.bind, Except.bind, h.resolve st]
    rfl
  unfold CodeUnit.ofProgram Resolve.program
  simp only [Bind.bind, Except.bind, hbody]
  exact ⟨_, _, rfl, rfl, rfl, rfl⟩

/-! ## Evaluating -/

namespace Core

variable {c c₁ c₂ : Core} {m m₁ m₂ : Machine} {n k : Nat}

/-- The machine goes on to another one in `n` steps. -/
def Leads (c : Core) (n : Nat) (m m' : Machine) (c' : Core) : Prop :=
  ∀ k, c.drive (n + k) m = c'.drive k m'

theorem Leads.refl (c : Core) (m : Machine) : c.Leads 0 m m c := fun k => by rw [Nat.zero_add]

theorem Leads.trans (h : c.Leads n m m₁ c₁) (hthen : c₁.Leads k m₁ m₂ c₂) :
    c.Leads (n + k) m m₂ c₂ := fun l => by rw [Nat.add_assoc, h, hthen]

theorem Leads.step (hstep : m.step c = (.running m₁, c₁)) (h : c₁.Leads n m₁ m₂ c₂) :
    c.Leads (n + 1) m m₂ c₂ := fun k => by rw [Nat.add_right_comm, drive_running hstep, h]

end Core

open Act Heap

/-- The expression has a value in `n` steps, and from the heap before to the heap after, objects came that
the value spells the tree with. Nothing else is changed. -/
def Expr.Evaluates (e : Expr) (j : Json) (n : Nat) : Prop :=
  ∀ (a : Activation) (callers : List Activation) (c : Core), ∃ σ v h, Brings c.heap h v j ∧
    c.Leads n ⟨.eval e, a :: callers⟩ ⟨.value v, a.mark σ :: callers⟩ { c with heap := h }

section Parts

variable {e : Expr} {es : List Expr} {ps : List PropertyDef} {j : Json} {js : List Json}
  {ms : List (String × Json)} {v : Value}

/-- The elements of an array, and then the array. -/
theorem evaluates_elements (hes : List.Forall₂ (fun e j => ∃ n, e.Evaluates j n) es js) :
    ∃ n, ∀ (before : List Value) (a : Activation) (callers : List Activation) (c₀ c : Core) (m : Machine),
      m.step c₀ = Machine.perform a callers (startList ⟨a.frame, callers⟩ .array before es) c →
      ∃ σ vs h, BringsAll c.heap h vs js ∧
        let made := h.newObject c.engine.region (.ofList (before.reverse ++ vs))
        c₀.Leads n m ⟨.checkpoint (.object made.1), a.mark σ :: callers⟩ { c with heap := made.2 } := by
  induction hes with
  | nil =>
    refine ⟨1, fun before a callers c₀ c m hm => ⟨a.frame.location, [], c.heap, .nil _, ?_⟩⟩
    rw [List.append_nil]
    exact .step hm (.refl _ _)
  | @cons e j es js he _ ih =>
    obtain ⟨n, he⟩ := he
    obtain ⟨k, ih⟩ := ih
    refine ⟨n + k + 1, fun before a callers c₀ c m hm => ?_⟩
    obtain ⟨σ, v, h, hv, hlead⟩ := he (a.pushing [.element .array before es]) callers c
    obtain ⟨τ, vs, h', hvs, hrest⟩ := ih (v :: before) (a.mark σ) callers { c with heap := h }
      { c with heap := h } ⟨.value v, (a.pushing [.element .array before es]).mark σ :: callers⟩ rfl
    refine ⟨τ, v :: vs, h', BringsAll.cons hv hvs, .step hm (hlead.trans ?_)⟩
    rw [List.reverse_cons, List.append_assoc] at hrest
    exact hrest

/-- The members of an object. -/
theorem evaluates_members
    (hps : List.Forall₂ (fun p m => p.key = m.1 ∧ ∃ n, p.value.Evaluates m.2 n) ps ms) :
    ∃ n, ∀ (id : ObjectId) (es : List (String × Value)) (a : Activation) (callers : List Activation)
      (c₀ c : Core) (m : Machine), c.heap.objects.get? id = some (ofEntries es) →
      (es.map (·.1) ++ ms.map (·.1)).Nodup →
      m.step c₀ = Machine.perform a callers (startProperties id ps) c →
      ∃ σ h, Fills c.heap h id es ms ∧
        c₀.Leads n m ⟨.checkpoint (.object id), a.mark σ :: callers⟩ { c with heap := h } := by
  induction hps with
  | nil =>
    exact ⟨1, fun id es a callers c₀ c m hat _ hm =>
      ⟨a.frame.location, c.heap, .nil hat, .step hm (.refl _ _)⟩⟩
  | @cons p member ps ms hp _ ih =>
    obtain ⟨hkey, n, hp⟩ := hp
    obtain ⟨k, ih⟩ := ih
    refine ⟨n + k + 1, fun id es a callers c₀ c m hat hnames hm => ?_⟩
    have hname : member.1 ∉ es.map (·.1) := fun hmem =>
      (List.nodup_append.mp hnames).2.2 _ hmem _ List.mem_cons_self rfl
    obtain ⟨σ, v, h, hv, hlead⟩ := hp (a.pushing [.property id p.key ps]) callers c
    obtain ⟨τ, h', hfills, hrest⟩ := ih id (es ++ [(member.1, v)]) (a.mark σ) callers
      { c with heap := h } { c with heap := h.set id p.key v }
      ⟨.value v, (a.pushing [.property id p.key ps]).mark σ :: callers⟩
      (by rw [hkey, get?_set (hv.kept id _ hat) hname, if_pos rfl])
      (by rwa [List.map_append, List.append_assoc]) rfl
    refine ⟨τ, h', ?_, .step hm (hlead.trans hrest)⟩
    exact .cons hat hv hname (hkey ▸ hfills)

/-- A value that is not pending passes the checkpoint. -/
theorem Core.Leads.pass {c c' : Core} {n : Nat} {m : Machine} {a : Activation} {callers : List Activation}
    (hv : ∀ c, Act.pass v c = .ok (.value v) c) (h : c.Leads n m ⟨.checkpoint v, a :: callers⟩ c') :
    c.Leads (n + 1) m ⟨.value v, a :: callers⟩ c' := by
  refine h.trans (.step (n := 0) ?_ (.refl _ _))
  unfold Machine.step
  dsimp only
  rw [hv]

/-- A literal without parts. -/
theorem Expr.Evaluates.plain (hdata : ∀ k : Heap, k.Spells v j)
    (hv : ∀ c, Act.pass v c = .ok (.value v) c)
    (hstep : ∀ a callers c, Machine.step ⟨.eval e, a :: callers⟩ c =
      (.running ⟨.checkpoint v, a.mark e.span :: callers⟩, c)) : e.Evaluates j 2 := fun a callers c =>
  ⟨e.span, v, c.heap, .plain hdata c.heap, (Core.Leads.step (hstep a callers c) (.refl c _)).pass hv⟩

end Parts

/-- **The value of a literal of data spells the tree**, and evaluating it does nothing but make it. -/
theorem Expr.Spells.evaluates {e : Expr} {j : Json} (h : e.Spells j) (hj : j.Data) :
    ∃ n, e.Evaluates j n := by
  induction h with
  | null => exact ⟨2, .plain (fun _ => ⟨.null _, rfl⟩) (fun _ => rfl) fun _ _ _ => rfl⟩
  | bool _ b => exact ⟨2, .plain (fun _ => ⟨.bool _ b, rfl⟩) (fun _ => rfl) fun _ _ _ => rfl⟩
  | string _ s => exact ⟨2, .plain (fun _ => ⟨.string _ s, rfl⟩) (fun _ => rfl) fun _ _ _ => rfl⟩
  | @array σ es js hlength _ ih =>
    cases hj with
    | array hitems =>
      have hes : List.Forall₂ (fun e j => ∃ n, e.Evaluates j n) es js := List.forall₂_iff_zip.mpr
        ⟨hlength, fun hmem => ih _ _ hmem (hitems _ (List.of_mem_zip hmem).2)⟩
      obtain ⟨n, helements⟩ := evaluates_elements hes
      refine ⟨n + 1, fun a callers c => ?_⟩
      obtain ⟨τ, vs, h, hvs, hlead⟩ :=
        helements [] (a.mark σ) callers c c ⟨.eval (.array σ es), a :: callers⟩ rfl
      exact ⟨τ, _, _, hvs.array c.engine.region, hlead.pass fun _ => rfl⟩
  | @object σ ps ms hlength hkeys _ ih =>
    cases hj with
    | object hnames hmembers =>
      have hps : List.Forall₂ (fun p m => p.key = m.1 ∧ ∃ n, p.value.Evaluates m.2 n) ps ms :=
        List.forall₂_iff_zip.mpr ⟨hlength, fun hmem =>
          ⟨hkeys _ _ hmem, ih _ _ hmem (hmembers _ (List.of_mem_zip hmem).2)⟩⟩
      obtain ⟨n, hproperties⟩ := evaluates_members hps
      refine ⟨n + 1, fun a callers c => ?_⟩
      obtain ⟨τ, h, hfills, hlead⟩ := hproperties _ [] (a.mark σ) callers c
        { c with heap := (c.heap.newObject c.engine.region (.empty none)).2 }
        ⟨.eval (.object σ ps), a :: callers⟩ (get?_newObject ..) hnames rfl
      exact ⟨τ, _, h, hfills.object, hlead.pass fun _ => rfl⟩

/-! ## Running -/

/-- Data whose JSON is a text is the text. -/
theorem Heap.Spells.string {h : Heap} {v : Value} {t : String} (hv : h.Spells v (.string t)) :
    v = .string t := by
  obtain ⟨hdata, hjson⟩ := hv
  cases hdata with
  | string =>
    cases hjson
    rfl
  | null | bool => cases hjson

namespace Session

variable {e : Expr} {j : Json} {u : CodeUnit} {n : Nat}

/-- A unit that is a literal of data, on an engine that is free. -/
theorem runUnit_evaluates {σ : Span} {r : ScopeRecord} (hbody : u.program.body = [.expression σ e])
    (hr : u.record? 0 = some r) (hhoisted : r.hoisted = []) (he : e.Evaluates j n) (s : Session) (i : Nat)
    (hidle : (s.station i).isBusy = false) (hfuel : n + 4 ≤ s.fuel) :
    ∃ v, (s.runUnit i u).1 = .finished (.ok v) ∧ (s.runUnit i u).2.heap.Spells v j := by
  let c := s.armed i
  let f := unitFrame u (s.engine i).root
  obtain ⟨τ, v, h, hv, hlead⟩ := he ⟨{ f with location := σ }, .unit, [.body []]⟩ [] c
  have hrun : c.Leads (n + 3) ⟨.exec (.expression σ e) [], [⟨f, .unit, [.body []]⟩]⟩
      ⟨.value v, []⟩ { c with heap := h } := by
    refine .step rfl (hlead.trans (k := 2) ?_)
    exact .step rfl (.step rfl (.refl _ _))
  obtain ⟨k, hk⟩ := Nat.exists_eq_add_of_le hfuel
  have hdrive : c.drive s.fuel ⟨.exec (.expression σ e) [], [⟨f, .unit, [.body []]⟩]⟩ =
      (.done (.ok v), { c with heap := h }) := by
    rw [hk, show n + 4 + k = n + 3 + (k + 1) by omega, hrun]
    rfl
  have hanswer : s.runUnit i u = s.settleStop i {} (.done (.ok v)) { c with heap := h } := by
    rw [runUnit, evaluate, if_neg (by rw [hidle]; decide), start_openUnit hr hhoisted, hbody]
    exact congrArg (fun stop : Core.Stop × Core => s.settleStop i {} stop.1 stop.2) hdrive
  rw [hanswer]
  refine ⟨v, rfl, hv.spells _ fun a o _ hat => ?_⟩
  unfold settleStop Core.finish
  exact (congrArg (·.get? a) (objects_prune ..)).trans hat

/-- **JSON is a program.** The text of a tree without numbers, in parentheses, compiles to a unit. On every
engine that is free, running the text ends with a value whose JSON is the tree with the members of its objects
in order: the tree itself if its names ascend already. A text in quotes denotes the text. -/
theorem run_compact {j : Json} (hj : j.Data) :
    ∃ u n, CodeUnit.compile ("(" ++ j.compact ++ ")") [] = .ok u ∧
      ∀ (s : Session) (i : Nat), (s.station i).isBusy = false → n ≤ s.fuel →
        (∀ k, (s.station i).units.lookup (Digest.ofText ("(" ++ j.compact ++ ")")) = some k →
          s.unit k = u) →
        ∃ v, (s.run i ("(" ++ j.compact ++ ")")).1 = .finished (.ok v) ∧
          (s.run i ("(" ++ j.compact ++ ")")).2.heap.toJson v = j.sorted ∧
          (j.Canonical → (s.run i ("(" ++ j.compact ++ ")")).2.heap.toJson v = j) ∧
          ∀ t, j = .string t → v = .string t := by
  obtain ⟨σ, τ, e, he, hparse⟩ := Grammar.parse_json hj
  obtain ⟨u, r, hunit, hbody, hr, hhoisted⟩ :=
    CodeUnit.ofProgram_spells he ("(" ++ j.compact ++ ")") σ τ
  obtain ⟨n, heval⟩ := he.evaluates hj
  have hcompile : CodeUnit.compile ("(" ++ j.compact ++ ")") [] = .ok u := by
    rw [CodeUnit.compile, hparse]
    exact hunit
  refine ⟨u, n + 4, hcompile, fun s i hidle hfuel hcached => ?_⟩
  generalize "(" ++ j.compact ++ ")" = source at hcompile hcached ⊢
  obtain ⟨k, s', hcompiled, hunit', hidle', hfuel'⟩ : ∃ k s', s.compile i source = .ok (k, s') ∧
      s'.unit k = u ∧ (s'.station i).isBusy = false ∧ s'.fuel = s.fuel := by
    unfold compile
    dsimp only
    cases hlookup : (s.station i).units.lookup (Digest.ofText source) with
    | some k => exact ⟨k, s, rfl, hcached k hlookup, hidle, rfl⟩
    | none =>
      rw [hcompile]
      refine ⟨_, _, rfl, ?_, ?_, rfl⟩
      · simp only [unit, addUnit, modifyStation, Array.getElem?_push, if_true, Option.getD_some]
      · rcases (s.addUnit u).2.station_modifyStation_cases i i
          (fun t => { t with units := (Digest.ofText source, s.units.size) :: t.units }) with
          hstation | hstation
        all_goals exact (congrArg Station.isBusy hstation).trans hidle
  have hrun : s.run i source = s'.runUnit i u := by
    rw [run, hcompiled, ← hunit']
  obtain ⟨v, hanswer, hspells⟩ := runUnit_evaluates hbody hr hhoisted heval s' i hidle' (hfuel' ▸ hfuel)
  rw [hrun]
  refine ⟨v, hanswer, hspells.2, fun hcanonical => hspells.2.trans hcanonical.sorted, ?_⟩
  rintro t rfl
  exact hspells.string

/-- A new engine runs the text of an object that has an index as its key, with a text that needs escapes. -/
theorem run_compact_escapes :
    let j : Json := .object [("0", .array [.null, .string "\"\n"]), ("a", .bool true)]
    ∃ fuel v, let s := addEngine { fuel } none {} none []
      (s.run 0 ("(" ++ j.compact ++ ")")).1 = .finished (.ok v) ∧
        (s.run 0 ("(" ++ j.compact ++ ")")).2.heap.toJson v = j := by
  intro j
  have hitems : ∀ k ∈ [Json.null, .string "\"\n"], k.Canonical := by
    simp only [List.forall_mem_cons, List.not_mem_nil, false_imp_iff, implies_true, and_true]
    exact ⟨.null, .string _⟩
  have hj : j.Canonical := by
    refine .object (by decide) ?_
    simp only [List.forall_mem_cons, List.not_mem_nil, false_imp_iff, implies_true, and_true]
    exact ⟨.array hitems, .bool true⟩
  obtain ⟨u, n, -, hrun⟩ := run_compact hj.data
  have hstation : ((addEngine { fuel := n } none {} none []).station 0).units = [] ∧
      ((addEngine { fuel := n } none {} none []).station 0).isBusy = false := ⟨rfl, rfl⟩
  obtain ⟨v, hanswer, -, hjson, -⟩ := hrun (addEngine { fuel := n } none {} none []) 0 hstation.2
    (Nat.le_refl n) (fun k hk => by rw [hstation.1] at hk; cases hk)
  exact ⟨n, v, hanswer, hjson hj⟩

end Session

end Fermata
