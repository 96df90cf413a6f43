import Fermata.Proofs.Machine.Running
import Fermata.Proofs.Name.Unit

/-!
# What running code mentions

A machine takes bodies apart, and the pieces mention what the whole mentions. So a name or a literal
that an activation comes to stands in the source at the place that the activation runs.

* `Parts.ofMentions`: the pieces of a body that mention only certain things.
* `Atlas.mentioned`: each activation mentions what its place mentions.
-/

namespace Fermata

namespace Mention

theorem mem_ofExprs {es : List Expr} {e : Expr} (he : e ∈ es) : ∀ m ∈ ofExpr e, m ∈ ofExprs es := by
  intro m hm
  induction es with
  | nil => cases he
  | cons e' es ih =>
    rw [ofExprs]
    rcases List.mem_cons.mp he with rfl | he
    · exact List.mem_append_left _ hm
    · exact List.mem_append_right _ (ih he)

theorem mem_ofProperties {ps : List PropertyDef} {p : PropertyDef} (hp : p ∈ ps) :
    ∀ m ∈ ofExpr p.value, m ∈ ofProperties ps := by
  intro m hm
  induction ps with
  | nil => cases hp
  | cons q ps ih =>
    obtain ⟨key, value, span⟩ := q
    rw [ofProperties]
    rcases List.mem_cons.mp hp with rfl | hp
    · exact List.mem_append_left _ hm
    · exact List.mem_append_right _ (ih hp)

theorem mem_ofKey {k : MemberKey} {e : Expr} (he : e ∈ k.exprs) : ∀ m ∈ ofExpr e, m ∈ ofKey k := by
  cases k with
  | named name => cases he
  | computed e' =>
    cases List.mem_singleton.mp he
    exact fun _ hm => hm

/-- An expression mentions what its parts mention. -/
theorem mem_ofExpr_parts {e e' : Expr} (he' : e' ∈ e.parts) : ∀ m ∈ ofExpr e', m ∈ ofExpr e := by
  intro m hm
  cases e with
  | array span es | sequence span es => exact mem_ofExprs he' m hm
  | object span ps =>
    obtain ⟨p, hp, rfl⟩ := List.mem_map.mp he'
    exact mem_ofProperties hp m hm
  | member span o k i =>
    rw [ofExpr]
    rcases List.mem_cons.mp he' with rfl | he'
    · exact List.mem_append_left _ hm
    · exact List.mem_append_right _ (mem_ofKey he' m hm)
  | call span f args | construct span f args =>
    rw [ofExpr]
    rcases List.mem_cons.mp he' with rfl | he'
    · exact List.mem_append_left _ hm
    · exact List.mem_append_right _ (mem_ofExprs he' m hm)
  | unary | update =>
    cases List.mem_singleton.mp he'
    exact hm
  | binary | logical | assign | conditional =>
    simp only [Expr.parts, List.mem_cons, List.not_mem_nil, or_false] at he'
    simp only [ofExpr, List.mem_append]
    grind
  | number | string | bool | null | ident | this | function => cases he'

theorem mem_ofDecls {ds : List VarDecl} {d : VarDecl} (hd : d ∈ ds) :
    .name d.name ∈ ofDecls true ds ∧ ∀ e, d.init = some e → ∀ m ∈ ofExpr e, m ∈ ofDecls true ds := by
  induction ds with
  | nil => cases hd
  | cons d' ds ih =>
    obtain ⟨x, init, span⟩ := d'
    rcases List.mem_cons.mp hd with rfl | hrest
    · cases init with
      | none => exact ⟨List.mem_append_left _ List.mem_cons_self, nofun⟩
      | some e =>
        refine ⟨List.mem_append_left _ (List.mem_append_right _ List.mem_cons_self), fun e' he' => ?_⟩
        cases he'
        exact fun m hm => List.mem_append_left _ (List.mem_append_left _ hm)
    · obtain ⟨hname, hinit⟩ := ih hrest
      cases init with
      | none | some =>
        exact ⟨List.mem_append_right _ hname,
          fun e he m hm => List.mem_append_right _ (hinit e he m hm)⟩

theorem mem_ofDecls_inits {ds : List VarDecl} {e : Expr} (he : e ∈ VarDecl.inits ds) :
    ∀ m ∈ ofExpr e, m ∈ ofDecls true ds := by
  obtain ⟨d, hd, hinit⟩ := List.mem_filterMap.mp he
  exact (mem_ofDecls hd).2 e hinit

theorem mem_ofDecls_names {ds : List VarDecl} {x : String} (hx : x ∈ ds.map VarDecl.name) :
    .name x ∈ ofDecls true ds := by
  obtain ⟨d, hd, rfl⟩ := List.mem_map.mp hx
  exact (mem_ofDecls hd).1

theorem mem_ofOptionalExpr {o : Option Expr} {e : Expr} (he : e ∈ o.toList) :
    ∀ m ∈ ofExpr e, m ∈ ofOptionalExpr o := by
  rw [Option.mem_toList.mp he]
  exact fun _ hm => hm

theorem mem_ofInit {init : Option ForInit} {e : Expr} (he : e ∈ (init.map ForInit.exprs).getD []) :
    ∀ m ∈ ofExpr e, m ∈ ofInit true init := by
  cases init with
  | none => cases he
  | some init =>
    cases init with
    | declare ds => exact mem_ofDecls_inits he
    | expression e' =>
      cases List.mem_singleton.mp he
      exact fun _ hm => hm

/-- A statement mentions what its expressions mention. -/
theorem mem_ofStmt_exprs {t : Stmt} {e : Expr} (he : e ∈ t.exprs) :
    ∀ m ∈ ofExpr e, m ∈ ofStmt true t := by
  intro m hm
  cases t with
  | expression | raise =>
    cases List.mem_singleton.mp he
    exact hm
  | declare span ds => exact mem_ofDecls_inits he m hm
  | ret span o => exact mem_ofOptionalExpr he m hm
  | cond | whileLoop =>
    cases List.mem_singleton.mp he
    exact List.mem_append_left _ hm
  | doLoop =>
    cases List.mem_singleton.mp he
    exact List.mem_append_right _ hm
  | forLoop span init test update body =>
    rw [ofStmt]
    rcases List.mem_append.mp he with he | he
    · rcases List.mem_append.mp he with he | he
      · exact List.mem_append_left _ (mem_ofInit he m hm)
      · exact List.mem_append_right _ (List.mem_append_left _ (mem_ofOptionalExpr he m hm))
    · exact List.mem_append_right _
        (List.mem_append_right _ (List.mem_append_left _ (mem_ofOptionalExpr he m hm)))
  | forEach span kind target source body =>
    rw [ofStmt]
    rcases List.mem_append.mp he with he | he
    · cases target with
      | declare => cases he
      | expression =>
        cases List.mem_singleton.mp he
        exact List.mem_append_left _ hm
    · cases List.mem_singleton.mp he
      exact List.mem_append_right _ (List.mem_append_left _ hm)
  | function | leave | next | guarded | labeled | block | empty => cases he

/-- A statement mentions the names that it writes. -/
theorem mem_ofStmt_names {t : Stmt} {x : String} (hx : x ∈ t.names) : .name x ∈ ofStmt true t := by
  cases t with
  | declare span ds => exact mem_ofDecls_names hx
  | forLoop span init test update body =>
    refine List.mem_append_left _ ?_
    cases init with
    | none => cases hx
    | some init =>
      cases init with
      | declare ds => exact mem_ofDecls_names hx
      | expression => cases hx
  | forEach span kind target source body =>
    refine List.mem_append_left _ ?_
    cases target with
    | declare span name =>
      cases List.mem_singleton.mp hx
      exact List.mem_cons_self
    | expression => cases hx
  | _ => cases hx

theorem mem_ofStmts {ts : List Stmt} {t : Stmt} (ht : t ∈ ts) :
    ∀ m ∈ ofStmt true t, m ∈ ofStmts true ts := by
  intro m hm
  induction ts with
  | nil => cases ht
  | cons t' ts ih =>
    rw [ofStmts]
    rcases List.mem_cons.mp ht with rfl | ht
    · exact List.mem_append_left _ hm
    · exact List.mem_append_right _ (ih ht)

/-- A statement mentions what the statements inside it mention. -/
theorem mem_ofStmt_inside {t t' : Spot} (ht' : t' ∈ t.inside) :
    ∀ m ∈ ofStmt true t'.stmt, m ∈ ofStmt true t.stmt := by
  intro m hm
  obtain ⟨os, labels, t⟩ := t
  cases t with
  | cond span test yes no =>
    rw [ofStmt]
    rcases List.mem_cons.mp ht' with rfl | ht'
    · exact List.mem_append_right _ (List.mem_append_left _ hm)
    · obtain ⟨t, ht, rfl⟩ := List.mem_map.mp ht'
      rw [Option.mem_toList.mp ht]
      exact List.mem_append_right _ (List.mem_append_right _ hm)
  | whileLoop =>
    cases List.mem_singleton.mp ht'
    exact List.mem_append_right _ hm
  | doLoop =>
    cases List.mem_singleton.mp ht'
    exact List.mem_append_left _ hm
  | forLoop =>
    cases List.mem_singleton.mp ht'
    exact List.mem_append_right _ (List.mem_append_right _ (List.mem_append_right _ hm))
  | forEach =>
    cases List.mem_singleton.mp ht'
    exact List.mem_append_right _ (List.mem_append_right _ hm)
  | labeled =>
    cases List.mem_singleton.mp ht'
    exact hm
  | block span body =>
    obtain ⟨t, ht, rfl⟩ := List.mem_map.mp ht'
    exact mem_ofStmts ht m hm
  | _ => cases ht'

end Mention

/-- The pieces of a body that mention only what `M` allows. -/
def Parts.ofMentions (M : Mention → Prop) : Parts where
  name x := M (.name x)
  expr e := ∀ m ∈ Mention.ofExpr e, M m
  stmt t := ∀ m ∈ Mention.ofStmt true t.stmt, M m
  jump _ _ := True
  expr_parts h _ he' m hm := h m (Mention.mem_ofExpr_parts he' m hm)
  expr_ident h := h _ List.mem_cons_self
  stmt_exprs h _ he m hm := h m (Mention.mem_ofStmt_exprs he m hm)
  stmt_names h _ hx := h _ (Mention.mem_ofStmt_names hx)
  stmt_inside h _ ht' m hm := h m (Mention.mem_ofStmt_inside ht' m hm)
  stmt_jumps _ _ _ := trivial
  failure _ := trivial
  pass _ _ := trivial

/-- Each body mentions what its place mentions. -/
def Atlas.mentioned : Atlas where
  ofUnit u := .ofMentions (u.Mentions 0)
  ofFunction u record := .ofMentions (u.Mentions record)
  code _ _ ht m hm := CodeUnit.mentions_body (Mention.mem_ofStmts ht m hm)
  closing := by
    intro a x y _ _ b os
    unfold Bodies.parts
    split <;> trivial

namespace Atlas

/-- The pieces of an activation that follows the record of its unit. -/
theorem parts_mentioned {a : Activation} (ha : a.boundary = .unit → a.frame.record = 0) :
    mentioned.parts a = .ofMentions (a.frame.unit.Mentions a.frame.record) := by
  obtain ⟨frame, boundary, conts⟩ := a
  cases boundary with
  | unit =>
    rw [show frame.record = 0 from ha rfl]
    rfl
  | function name => rfl

theorem mentioned_function {u : CodeUnit} {id : Nat} {fn : FunctionNode}
    (hfn : u.function? id = some fn) :
    ∀ t ∈ fn.body, (mentioned.ofFunction u id).stmt ⟨[], [], t⟩ :=
  fun _ ht m hm => CodeUnit.mentions_function hfn (Mention.mem_ofStmts ht m hm)

end Atlas

end Fermata
