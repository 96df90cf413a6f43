import Fermata.Syntax.Grammar
import Mathlib.Data.List.Basic

/-!
# Operands and operators, grouped

The table of the operators that stand between two operands, from the loosest to the tightest, says how a
sequence of operands and operators is grouped: below an operator stand tighter ones only, and those of its
own rank to its left, or for the power operator to its right.

* `Grouping.Ordered`: the tree follows the table.
* `Grouping.Ordered.unique`: there is at most one such tree of a sequence.
-/

namespace Fermata.Grammar

/-- How an operator is written. -/
def Operator.symbol : Operator → String
  | .logical .nullish => "??"
  | .logical .or => "||"
  | .logical .and => "&&"
  | .binary .bitOr => "|"
  | .binary .bitXor => "^"
  | .binary .bitAnd => "&"
  | .binary .strictEq => "==="
  | .binary .strictNe => "!=="
  | .binary .eq => "=="
  | .binary .ne => "!="
  | .binary .lte => "<="
  | .binary .gte => ">="
  | .binary .lt => "<"
  | .binary .gt => ">"
  | .binary .instanceOf => "instanceof"
  | .binary .hasKey => "in"
  | .binary .ushr => ">>>"
  | .binary .shl => "<<"
  | .binary .shr => ">>"
  | .binary .add => "+"
  | .binary .sub => "-"
  | .binary .mul => "*"
  | .binary .div => "/"
  | .binary .mod => "%"
  | .binary .pow => "**"

/-- How tight an operator binds. -/
def Operator.rank : Operator → Nat
  | .logical .nullish => 0
  | .logical .or => 1
  | .logical .and => 2
  | .binary .bitOr => 3
  | .binary .bitXor => 4
  | .binary .bitAnd => 5
  | .binary .strictEq | .binary .strictNe | .binary .eq | .binary .ne => 6
  | .binary .lte | .binary .gte | .binary .lt | .binary .gt
  | .binary .instanceOf | .binary .hasKey => 7
  | .binary .ushr | .binary .shl | .binary .shr => 8
  | .binary .add | .binary .sub => 9
  | .binary .mul | .binary .div | .binary .mod => 10
  | .binary .pow => 11

/-- The power operator groups to the right, all others to the left. -/
def Operator.groupsRight (op : Operator) : Bool := op = .binary .pow

theorem Operator.rank_le (op : Operator) : op.rank ≤ 11 := by
  rcases op with op | op <;> cases op <;> decide

/-- Only the power operator has its rank. -/
theorem Operator.rank_eq_iff {op : Operator} : op.rank = 11 ↔ op = .binary .pow := by
  rcases op with op | op <;> cases op <;> decide

/-- Operators of one rank group to the same side. -/
theorem Operator.groupsRight_iff {op : Operator} : op.groupsRight = true ↔ op.rank = 11 := by
  rw [groupsRight, decide_eq_true_iff, rank_eq_iff]

/-- Operands with operators between them, grouped. -/
inductive Grouping (α : Type) where
  | operand (a : α)
  | join (op : Operator) (left right : Grouping α)

namespace Grouping

variable {α : Type}

/-- The first operand. -/
def first : Grouping α → α
  | operand a => a
  | join _ l _ => l.first

/-- The operators in the order in which they are written, each with the operand behind it. -/
def rest : Grouping α → List (Operator × α)
  | operand _ => []
  | join op l r => l.rest ++ (op, r.first) :: r.rest

/-- How tight the operator at the root binds; an operand binds tighter than all operators. -/
def rank : Grouping α → Nat
  | operand _ => 12
  | join op _ _ => op.rank

/-- The tree follows the table. -/
def Ordered : Grouping α → Prop
  | operand _ => True
  | join op l r => l.Ordered ∧ r.Ordered ∧
      if op.groupsRight then op.rank < l.rank ∧ op.rank ≤ r.rank
      else op.rank ≤ l.rank ∧ op.rank < r.rank

variable {g l r : Grouping α} {op : Operator}

theorem Ordered.left (h : (join op l r).Ordered) : op.rank ≤ l.rank := by
  have hroot := h.2.2
  split at hroot <;> omega

theorem Ordered.right (h : (join op l r).Ordered) : op.rank ≤ r.rank := by
  have hroot := h.2.2
  split at hroot <;> omega

/-- No operator binds looser than the one at the root. -/
theorem Ordered.rank_le (h : g.Ordered) {p : Operator × α} (hp : p ∈ g.rest) :
    g.rank ≤ p.1.rank := by
  induction g with
  | operand a => cases hp
  | join op l r ihl ihr =>
    rw [rest, List.mem_append, List.mem_cons] at hp
    rcases hp with hp | rfl | hp
    · exact Nat.le_trans h.left (ihl h.1 hp)
    · exact Nat.le_refl _
    · exact Nat.le_trans h.right (ihr h.2.1 hp)

/-- Two operators cannot each stand below the other one. -/
theorem Ordered.not_crossing {l' r' : Grouping α} {op' : Operator} (h : (join op l r).Ordered)
    (h' : (join op' l' r').Ordered) {a a' : α} (hp : (op, a) ∈ l'.rest) (hp' : (op', a') ∈ r.rest) :
    False := by
  have hle := h.2.1.rank_le hp'
  have hle' := h'.1.rank_le hp
  have hroot := h.2.2
  have hroot' := h'.2.2
  dsimp only at hle hle'
  by_cases hright : op.groupsRight = true
  · have hop := Operator.groupsRight_iff.mp hright
    have hop' : op'.groupsRight = true := by
      rw [Operator.groupsRight_iff]
      have := op'.rank_le
      have := h.right
      omega
    rw [if_pos hop'] at hroot'
    rw [Operator.groupsRight_iff] at hop'
    omega
  · rw [if_neg hright] at hroot
    have := h'.left
    omega

/-- **The table leaves no choice**: two trees that follow it and are written alike are the same. -/
theorem Ordered.unique {g g' : Grouping α} (h : g.Ordered) (h' : g'.Ordered)
    (hfirst : g.first = g'.first) (hrest : g.rest = g'.rest) : g = g' := by
  induction g generalizing g' with
  | operand a =>
    cases g' with
    | operand a' => exact congrArg operand hfirst
    | join op' l' r' => simp [rest] at hrest
  | join op l r ihl ihr =>
    cases g' with
    | operand a' => simp [rest] at hrest
    | join op' l' r' =>
      rw [rest, rest, List.append_eq_append_iff] at hrest
      have hsame : l.rest = l'.rest → (op, r.first) :: r.rest = (op', r'.first) :: r'.rest →
          join op l r = join op' l' r' := by
        intro hl hr
        obtain ⟨hroot, htail⟩ := List.cons.inj hr
        obtain ⟨rfl, hfirst'⟩ := Prod.mk.inj hroot
        rw [ihl h.1 h'.1 hfirst hl, ihr h.2.1 h'.2.1 hfirst' htail]
      -- Unless both are split at the same operator, each root stands below the other one.
      rcases hrest with ⟨between, hl, hr⟩ | ⟨between, hl, hr⟩
      · cases between with
        | nil => exact hsame (by simpa using hl.symm) hr
        | cons p ps =>
          obtain ⟨rfl, htail⟩ := List.cons.inj hr
          have hin : (op, r.first) ∈ l'.rest := hl ▸ List.mem_append_cons_self
          have hin' : (op', r'.first) ∈ r.rest := htail ▸ List.mem_append_cons_self
          exact (h.not_crossing h' hin hin').elim
      · cases between with
        | nil => exact hsame (by simpa using hl) hr.symm
        | cons p ps =>
          obtain ⟨rfl, htail⟩ := List.cons.inj hr
          have hin : (op', r'.first) ∈ l.rest := hl ▸ List.mem_append_cons_self
          have hin' : (op, r.first) ∈ r'.rest := htail ▸ List.mem_append_cons_self
          exact (h'.not_crossing h hin hin').elim

end Grouping

end Fermata.Grammar
