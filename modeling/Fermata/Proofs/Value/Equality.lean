import Fermata.Heap.Convert
import Fermata.Proofs.Number.Double

/-!
# Equality of values

Equality with conversion converts one side at a time, and which side and into what depends on both of them.
The order of the two does not matter all the same, and what equality without conversion finds equal it finds
equal too. Between values of one kind nothing is converted.

* `Heap.Loosely`: the rules by which values are equal, whatever the order in which they are tried.
* `Heap.looseEquals_comm`: the order of the two values.
* `Heap.loosely_extends`: all of it together.
-/

namespace Fermata

namespace Value

/-- What equality tells values apart by first: `undefined` and `null` are of one kind, and so are
objects and functions. -/
inductive Kind where
  | nullish
  | truth
  | number
  | string
  | objectLike
  | pending

/-- The kind of a value. -/
def kind : Value → Kind
  | .undefined | .null => .nullish
  | .bool _ => .truth
  | .number _ => .number
  | .string _ => .string
  | .object _ | .function _ | .native _ => .objectLike
  | .pending _ => .pending

variable {a b : Value}

theorem kind_eq_nullish : a.kind = .nullish ↔ a.isNullish = true := by
  cases a <;> simp [kind, isNullish]

theorem kind_eq_objectLike : a.kind = .objectLike ↔ a.isObjectLike = true := by
  cases a <;> simp [kind, isObjectLike]

theorem isNullish_of_isObjectLike (ha : a.isObjectLike = true) : a.isNullish = false := by
  cases a <;> first | rfl | cases ha

theorem strictEquals_comm (a b : Value) : a.strictEquals b = b.strictEquals a := by
  cases a with
  | number x => cases b with
    | number y => exact Number.beq_comm x y
    | _ => rfl
  | _ => cases b <;> first | exact BEq.comm | rfl

/-- What is equal without conversion is of one kind. -/
theorem kind_of_strictEquals (h : a.strictEquals b = true) : a.kind = b.kind := by
  cases a <;> cases b <;> first | exact absurd h Bool.false_ne_true | rfl

end Value

namespace Heap

open Value

variable {h : Heap} {a b : Value}

/-! ## What is converted -/

/-- A truth value counts as a number. -/
theorem looseEquals_bool (x : Bool) (b : Value) :
    h.looseEquals (.bool x) b = h.looseEquals (.number (if x then 1 else 0)) b := by
  cases b <;> rfl

theorem looseEquals_bool_right (a : Value) (x : Bool) :
    h.looseEquals a (.bool x) = h.looseEquals a (.number (if x then 1 else 0)) := by
  cases a <;> rfl

/-- An object counts as its text, unless the other is an object too. -/
theorem looseEquals_text (ha : a.isObjectLike = true) (hb : b.isObjectLike = false) :
    h.looseEquals a b = h.looseEquals (.string (h.text a)) b := by
  cases b with
  | object | function | native => cases hb
  | _ => cases a <;> first | exact absurd ha Bool.false_ne_true | rfl

theorem looseEquals_text_right (ha : a.isObjectLike = false) (hb : b.isObjectLike = true) :
    h.looseEquals a b = h.looseEquals a (.string (h.text b)) := by
  cases a with
  | object | function | native => cases ha
  | _ => cases b <;> first | exact absurd hb Bool.false_ne_true | rfl

/-- Truth values are equal when the numbers that they count as are. -/
theorem beq_counted (x y : Bool) :
    ((if x then 1 else 0 : Float) == if y then 1 else 0) = (x == y) := by
  revert x y
  decide

/-- Two values of one kind are compared as they are. -/
theorem looseEquals_of_kind (hk : a.kind = b.kind) :
    h.looseEquals a b = (a.isNullish || a.strictEquals b) := by
  cases a with
  | bool x => cases b with
    | bool y => exact beq_counted x y
    | _ => cases hk
  | _ => cases b <;> first | rfl | cases hk

theorem looseEquals_of_strictEquals (hs : a.strictEquals b = true) :
    h.looseEquals a b = true := by
  rw [looseEquals_of_kind (kind_of_strictEquals hs), hs, Bool.or_true]

/-! ## The order of the two -/

theorem looseEquals_number_comm (x : Float) (b : Value) :
    h.looseEquals (.number x) b = h.looseEquals b (.number x) := by
  cases b with
  | undefined | null | pending => rfl
  | bool | number | string | object | function | native => exact Number.beq_comm x _

theorem looseEquals_string_comm (s : String) (b : Value) :
    h.looseEquals (.string s) b = h.looseEquals b (.string s) := by
  cases b with
  | undefined | null | pending => rfl
  | bool | number => exact Number.beq_comm _ _
  | string | object | function | native => exact BEq.comm (a := s)

theorem looseEquals_objectLike_comm (ha : a.isObjectLike = true) :
    h.looseEquals a b = h.looseEquals b a := by
  cases hb : b.isObjectLike with
  | false =>
    rw [looseEquals_text ha hb, looseEquals_text_right hb ha, looseEquals_string_comm]
  | true =>
    have hk : a.kind = b.kind := (kind_eq_objectLike.mpr ha).trans (kind_eq_objectLike.mpr hb).symm
    rw [looseEquals_of_kind hk, looseEquals_of_kind hk.symm, strictEquals_comm,
      isNullish_of_isObjectLike ha, isNullish_of_isObjectLike hb]

/-- The order of the two values does not matter. -/
theorem looseEquals_comm (a b : Value) : h.looseEquals a b = h.looseEquals b a := by
  cases a with
  | undefined | null => cases b <;> rfl
  | bool x => rw [looseEquals_bool, looseEquals_bool_right, looseEquals_number_comm]
  | number x => exact looseEquals_number_comm x b
  | string s => exact looseEquals_string_comm s b
  | object | function | native => exact looseEquals_objectLike_comm rfl
  | pending p => cases b with
    | pending q => exact BEq.comm (a := p)
    | _ => rfl

/-! ## The rules -/

/-- The values are equal with conversion. -/
inductive Loosely (h : Heap) : Value → Value → Prop
  | nullish {a b : Value} (ha : a.isNullish = true) (hb : b.isNullish = true) : Loosely h a b
  | strict {a b : Value} (heq : a.strictEquals b = true) : Loosely h a b
  | numeral {x : Float} {s : String} (heq : (x == Number.ofText s) = true) :
    Loosely h (.number x) (.string s)
  | counted {x : Bool} {b : Value} (hb : Loosely h (.number (if x then 1 else 0)) b) :
    Loosely h (.bool x) b
  | text {a b : Value} (ha : a.isObjectLike = true) (hb : b.isObjectLike = false)
    (ht : Loosely h (.string (h.text a)) b) : Loosely h a b
  | symm {a b : Value} (hb : Loosely h b a) : Loosely h a b

theorem Loosely.looseEquals (hl : Loosely h a b) : h.looseEquals a b = true := by
  induction hl with
  | nullish ha hb =>
    rw [looseEquals_of_kind ((kind_eq_nullish.mpr ha).trans (kind_eq_nullish.mpr hb).symm), ha,
      Bool.true_or]
  | strict heq => exact looseEquals_of_strictEquals heq
  | numeral heq => exact heq
  | counted _ ih => rw [looseEquals_bool, ih]
  | text ha hb _ ih => rw [looseEquals_text ha hb, ih]
  | symm _ ih => rw [looseEquals_comm, ih]

theorem loosely_of_kind (hk : a.kind = b.kind) (hl : h.looseEquals a b = true) :
    Loosely h a b := by
  rw [looseEquals_of_kind hk, Bool.or_eq_true] at hl
  obtain hn | hs := hl
  · exact .nullish hn (kind_eq_nullish.mp (hk ▸ kind_eq_nullish.mpr hn))
  · exact .strict hs

theorem loosely_number {x : Float} (hl : h.looseEquals (.number x) b = true) :
    Loosely h (.number x) b := by
  cases b with
  | number y => exact .strict hl
  | string s => exact .numeral hl
  | bool y => exact .symm (.counted (.symm (.strict hl)))
  | object | function | native => exact .symm (.text rfl rfl (.symm (.numeral hl)))
  | _ => cases hl

theorem loosely_string {s : String} (hl : h.looseEquals (.string s) b = true) :
    Loosely h (.string s) b := by
  cases b with
  | number x =>
    rw [looseEquals_comm] at hl
    exact .symm (loosely_number hl)
  | bool x =>
    rw [looseEquals_bool_right, looseEquals_comm] at hl
    exact .symm (.counted (loosely_number hl))
  | string t => exact .strict hl
  | object | function | native => exact .symm (.text rfl rfl (.symm (.strict hl)))
  | _ => cases hl

theorem loosely_objectLike (ha : a.isObjectLike = true) (hl : h.looseEquals a b = true) :
    Loosely h a b := by
  cases hb : b.isObjectLike with
  | false =>
    rw [looseEquals_text ha hb] at hl
    exact .text ha hb (loosely_string hl)
  | true =>
    exact loosely_of_kind ((kind_eq_objectLike.mpr ha).trans (kind_eq_objectLike.mpr hb).symm) hl

/-- The rules give every pair of values that is found equal, and no other. -/
theorem looseEquals_iff : h.looseEquals a b = true ↔ Loosely h a b := by
  refine ⟨fun hl => ?_, Loosely.looseEquals⟩
  cases a with
  | bool x =>
    rw [looseEquals_bool] at hl
    exact .counted (loosely_number hl)
  | number x => exact loosely_number hl
  | string s => exact loosely_string hl
  | object | function | native => exact loosely_objectLike rfl hl
  | undefined | null | pending => cases b with
    | object | function | native =>
      rw [looseEquals_comm] at hl
      exact .symm (loosely_objectLike rfl hl)
    | undefined | null | pending => first | exact loosely_of_kind rfl hl | cases hl
    | _ => cases hl

/-- **Equality with conversion is a symmetric extension of equality without.** It does not matter which value
comes first. Whatever is equal without conversion is equal with it, and for two values of one kind, objects
and functions among them, this is all there is, except that `undefined` and `null` are equal to each other.
Values of different kinds are equal by the rules of `Loosely` alone. -/
theorem loosely_extends (h : Heap) (a b : Value) :
    h.looseEquals a b = h.looseEquals b a ∧
      (a.strictEquals b = true → h.looseEquals a b = true) ∧
      (a.kind = b.kind → h.looseEquals a b = (a.isNullish || a.strictEquals b)) ∧
      (h.looseEquals a b = true ↔ Loosely h a b) :=
  ⟨looseEquals_comm a b, looseEquals_of_strictEquals, looseEquals_of_kind, looseEquals_iff⟩

end Heap

end Fermata
