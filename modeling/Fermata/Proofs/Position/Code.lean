import Fermata.Proofs.Machine.Running
import Fermata.Proofs.Tree.Outline
import Mathlib.Logic.Relation

/-!
# Code and its pieces

An expression, a statement or a body is taken apart into pieces, and these into further ones, down to the
nodes of the tree. What belongs to a piece of code in this sense (`Code.Within`) is what a machine can come
to while it executes that piece and enters no function (`Code.parts`). Where pieces lie inside of what they
are pieces of, so does whatever is within (`Code.Lies.within`).

* `Code.Within`: nodes of a piece of code.
* `Atlas.bodies`: what belongs to the bodies of units and functions.
* `Code.Lies`: code inside of a span.
-/

namespace Fermata

/-- A piece of code: an expression, a statement, or the statements of a body. -/
inductive Code where
  | expr (e : Expr)
  | stmt (t : Stmt)
  | body (ts : List Stmt)

namespace Code

/-- Where the code stands, if it is a node of the tree. -/
def span? : Code → Option Span
  | expr e => some e.span
  | stmt t => some t.span
  | body _ => none

/-- What is directly inside, the bodies of functions apart. -/
def pieces : Code → List Code
  | expr e => e.parts.map expr
  | stmt t => t.exprs.map expr ++ (Spot.inside ⟨[], [], t⟩).map fun p => stmt p.stmt
  | body ts => ts.map stmt

/-- The first is the second one, or inside of it and of no function in it. -/
def Within : Code → Code → Prop := Relation.ReflTransGen fun n c => n ∈ c.pieces

variable {b c n : Code}

theorem Within.refl (c : Code) : c.Within c := Relation.ReflTransGen.refl

theorem Within.trans (hn : n.Within c) (hc : c.Within b) : n.Within b := Relation.ReflTransGen.trans hn hc

theorem Within.of_mem (hn : n ∈ c.pieces) : n.Within c := .single hn

/-- A piece of what is within is within. -/
theorem Within.piece (hn : n ∈ c.pieces) (hc : c.Within b) : n.Within b := .head hn hc

/-- Which statements are inside of a statement does not depend on what is around it. -/
theorem mem_pieces_of_inside {p q : Spot} (hq : q ∈ p.inside) : stmt q.stmt ∈ (stmt p.stmt).pieces := by
  obtain ⟨os, ls, t⟩ := p
  refine List.mem_append_right _ ?_
  cases t with
  | cond span test yes no =>
    rcases List.mem_cons.mp hq with rfl | hq
    · simp [Spot.inside]
    · obtain ⟨t, ht, rfl⟩ := List.mem_map.mp hq
      simpa [Spot.inside] using Or.inr (Option.mem_toList.mp ht)
  | block span ts =>
    obtain ⟨t, ht, rfl⟩ := List.mem_map.mp hq
    simpa [Spot.inside] using ht
  | _ => simp_all [Spot.inside]

/-- What belongs to a piece of code. Names and jumps do not matter. -/
def parts (c : Code) : Parts where
  name _ := True
  expr e := (Code.expr e).Within c
  stmt p := (Code.stmt p.stmt).Within c
  jump _ _ := True
  expr_parts h _ he := h.piece (List.mem_map_of_mem he)
  expr_ident _ := trivial
  stmt_exprs h _ he := h.piece (List.mem_append_left _ (List.mem_map_of_mem he))
  stmt_names _ _ _ := trivial
  stmt_inside h _ hq := h.piece (mem_pieces_of_inside hq)
  stmt_jumps _ _ _ := trivial
  failure _ := trivial
  pass _ _ := trivial

end Code

/-! ## Bodies -/

namespace Atlas

/-- To the bodies belongs what is within. -/
def bodies : Atlas where
  ofUnit u := (Code.body u.program.body).parts
  ofFunction u node := (Code.body (((u.function? node).map FunctionNode.body).getD [])).parts
  code _ _ ht := .of_mem (List.mem_map_of_mem ht)
  closing {a _ _} _ _ b _ := by
    obtain ⟨frame, boundary, conts⟩ := b
    cases boundary <;> trivial

theorem parts_bodies (a : Activation) : bodies.parts a = (Code.body a.body).parts := by
  obtain ⟨frame, boundary, conts⟩ := a
  cases boundary <;> rfl

end Atlas

/-! ## Where code lies -/

open Outline

theorem MemberKey.outlines_eq_map (k : MemberKey) : k.outlines = k.exprs.map Expr.outline := by
  cases k <;> rfl

namespace Code

/-- The code lies inside of the span, and so do pieces inside of what they are pieces of. -/
def Lies (s : Span) : Code → Prop
  | expr e => e.outline.Below s
  | stmt t => t.outline.Below s
  | body ts => NestedIn s (Stmt.outlines ts)

variable {b c n : Code} {s : Span}

/-- The expressions of declarations lie inside of them. -/
theorem below_inits {ds : List VarDecl} (h : NestedIn s (VarDecl.outlines ds)) :
    ∀ e ∈ VarDecl.inits ds, e.outline.Below s := by
  intro e he
  obtain ⟨d, hd, hinit⟩ := List.mem_filterMap.mp he
  rw [VarDecl.outlines_eq_map] at h
  have hbelow := nestedIn_iff.mp h _ (List.mem_map_of_mem hd)
  refine (hbelow.part ?_).mono hbelow.1
  rw [hinit]
  exact List.mem_cons_self

/-- The expressions directly inside of an expression lie inside of it. -/
theorem below_parts {e : Expr} (h : e.outline.Below s) : ∀ e' ∈ e.parts, e'.outline.Below s := by
  intro e' he'
  cases e with
  | array span es | sequence span es =>
    refine (Below.part h ?_).mono h.1
    rw [Expr.outlines_eq_map]
    exact List.mem_map_of_mem he'
  | object span ps =>
    obtain ⟨p, hp, rfl⟩ := List.mem_map.mp he'
    have hnode : Outline.node p.span .plain [p.value.outline] ∈ PropertyDef.outlines ps := by
      rw [PropertyDef.outlines_eq_map]
      exact List.mem_map_of_mem hp
    have hproperty := Below.part h hnode
    exact ((hproperty.part List.mem_cons_self).mono hproperty.1).mono h.1
  | member span o k i =>
    refine (Below.part h ?_).mono h.1
    rw [MemberKey.outlines_eq_map]
    exact List.mem_map_of_mem (f := Expr.outline) he'
  | call span f args | construct span f args =>
    refine (Below.part h ?_).mono h.1
    rw [Expr.outlines_eq_map]
    exact List.mem_map_of_mem (f := Expr.outline) he'
  | unary span op a => exact (Below.part h (List.mem_map_of_mem (f := Expr.outline) he')).mono h.1
  | update span op before target =>
    exact (Below.part h (List.mem_map_of_mem (f := Expr.outline) he')).mono h.1
  | binary span op l r | logical span op l r | assign span op l r =>
    exact (Below.part h (List.mem_map_of_mem (f := Expr.outline) he')).mono h.1
  | conditional span test yes no =>
    exact (Below.part h (List.mem_map_of_mem (f := Expr.outline) he')).mono h.1
  | _ => cases he'

/-- So do the expressions directly inside of a statement. -/
theorem below_exprs {x : Stmt} (h : x.outline.Below s) : ∀ e ∈ x.exprs, e.outline.Below s := by
  intro e he
  cases x with
  | expression span e' | raise span e' =>
    exact (Below.part h (List.mem_map_of_mem (f := Expr.outline) he)).mono h.1
  | declare span ds => exact (below_inits (nested_node.mp h.2) e he).mono h.1
  | ret span arg =>
    cases arg with
    | none => cases he
    | some e' => exact (Below.part h (List.mem_map_of_mem (f := Expr.outline) he)).mono h.1
  | cond span test yes no | whileLoop span test body =>
    obtain rfl := List.mem_singleton.mp he
    exact (Below.part h List.mem_cons_self).mono h.1
  | doLoop span body test =>
    obtain rfl := List.mem_singleton.mp he
    exact (Below.part h (List.mem_cons_of_mem _ List.mem_cons_self)).mono h.1
  | forLoop span init test update body =>
    have hinside := nested_node.mp h.2
    rw [nestedIn_append, nestedIn_append, nestedIn_append] at hinside
    obtain ⟨⟨⟨hinit, htest⟩, hupdate⟩, -⟩ := hinside
    rcases List.mem_append.mp he with he | he
    · rcases List.mem_append.mp he with he | he
      · cases init with
        | none => cases he
        | some first =>
          cases first with
          | declare ds => exact (below_inits hinit e he).mono h.1
          | expression e' =>
            obtain rfl := List.mem_singleton.mp he
            exact (nestedIn_iff.mp hinit _ List.mem_cons_self).mono h.1
      · obtain rfl := Option.mem_toList.mp he
        exact (nestedIn_iff.mp htest _ List.mem_cons_self).mono h.1
    · obtain rfl := Option.mem_toList.mp he
      exact (nestedIn_iff.mp hupdate _ List.mem_cons_self).mono h.1
  | forEach span kind target source body =>
    rcases List.mem_append.mp he with he | he
    · cases target with
      | declare span' name => cases he
      | expression e' =>
        obtain rfl := List.mem_singleton.mp he
        exact (Below.part h List.mem_cons_self).mono h.1
    · obtain rfl := List.mem_singleton.mp he
      exact (Below.part h (List.mem_cons_of_mem _ List.mem_cons_self)).mono h.1
  | _ => cases he

/-- And the statements directly inside of a statement. -/
theorem below_inside {p q : Spot} (h : p.stmt.outline.Below s) (hq : q ∈ p.inside) :
    q.stmt.outline.Below s := by
  obtain ⟨os, ls, x⟩ := p
  cases x with
  | cond span test yes no =>
    rcases List.mem_cons.mp hq with rfl | hq
    · exact (Below.part h (List.mem_cons_of_mem _ List.mem_cons_self)).mono h.1
    · cases no with
      | none => cases hq
      | some t =>
        obtain rfl := List.mem_singleton.mp hq
        exact (Below.part h (List.mem_cons_of_mem _ (List.mem_cons_of_mem _ List.mem_cons_self))).mono h.1
  | whileLoop span test body =>
    obtain rfl := List.mem_singleton.mp hq
    exact (Below.part h (List.mem_cons_of_mem _ List.mem_cons_self)).mono h.1
  | doLoop span body test =>
    obtain rfl := List.mem_singleton.mp hq
    exact (Below.part h List.mem_cons_self).mono h.1
  | forLoop span init test update body =>
    obtain rfl := List.mem_singleton.mp hq
    exact (Below.part h (List.mem_append_right _ List.mem_cons_self)).mono h.1
  | forEach span kind target source body =>
    obtain rfl := List.mem_singleton.mp hq
    exact (Below.part h (List.mem_cons_of_mem _ (List.mem_cons_of_mem _ List.mem_cons_self))).mono h.1
  | labeled span label body =>
    obtain rfl := List.mem_singleton.mp hq
    exact (Below.part h List.mem_cons_self).mono h.1
  | block span ts =>
    obtain ⟨t, ht, rfl⟩ := List.mem_map.mp hq
    refine (Below.part h ?_).mono h.1
    rw [Stmt.outlines_eq_map]
    exact List.mem_map_of_mem ht
  | _ => cases hq

theorem Lies.piece (h : c.Lies s) (hn : n ∈ c.pieces) : n.Lies s := by
  cases c with
  | expr e =>
    obtain ⟨e', he', rfl⟩ := List.mem_map.mp hn
    exact below_parts h e' he'
  | stmt x =>
    rcases List.mem_append.mp hn with hn | hn
    · obtain ⟨e, he, rfl⟩ := List.mem_map.mp hn
      exact below_exprs h e he
    · obtain ⟨q, hq, rfl⟩ := List.mem_map.mp hn
      exact below_inside (p := ⟨[], [], x⟩) h hq
  | body ts =>
    obtain ⟨x, hx, rfl⟩ := List.mem_map.mp hn
    refine nestedIn_iff.mp h _ ?_
    rw [Stmt.outlines_eq_map]
    exact List.mem_map_of_mem hx

/-- **What is within lies inside.** -/
theorem Lies.within (h : c.Lies s) (hn : n.Within c) : n.Lies s := by
  induction hn using Relation.ReflTransGen.head_induction_on with
  | refl => exact h
  | head hn _ ih => exact ih.piece hn

/-- A node lies inside of its own span. -/
theorem Lies.self (h : c.Lies s) (hspan : c.span? = some t) : c.Lies t := by
  have hrefl : ∀ t : Span, t.Inside t := fun t => ⟨Nat.le_refl _, Nat.le_refl _⟩
  cases c with
  | expr e =>
    cases hspan
    exact ⟨e.outline_span ▸ hrefl _, h.2⟩
  | stmt x =>
    cases hspan
    exact ⟨x.outline_span ▸ hrefl _, h.2⟩
  | body => cases hspan

/-- What is within a node lies inside of its span. -/
theorem Lies.inside (h : c.Lies s) (hn : n.Within c) {t' : Span} (hc : c.span? = some t)
    (hspan : n.span? = some t') : t'.Inside t := by
  have hlies := (h.self hc).within hn
  cases n with
  | expr e =>
    cases hspan
    exact e.outline_span ▸ hlies.1
  | stmt x =>
    cases hspan
    exact x.outline_span ▸ hlies.1
  | body => cases hspan

end Code

end Fermata
