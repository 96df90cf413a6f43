/-!
# Stores

A `Store` holds values under addresses that never change their meaning. It is divided into regions,
one for each engine and one for the host, and each region is filled on its own: what is allocated in
one region does not depend on what happens in another. An address stands for the identity of a reference
(`ObjectRef::ptr_eq`).

* `push` makes something new at `next`, `reserve` only sees to it that a region is there;
* `get?_push`, `get?_modify` say what is found where after a change,
* `next_push`, `next_modify` which address comes next.

Left out: taking something out. What is stored stays.
-/

namespace Fermata

/-- What an address points to. -/
inductive Kind where
  | object | closure | native | scope | pending
deriving DecidableEq, Repr

/-- An address: a region and a place in it. -/
structure Addr (k : Kind) where
  region : Nat
  index : Nat
deriving DecidableEq, Repr, Hashable, Inhabited

/-- Values of one kind, by address. -/
structure Store (k : Kind) (α : Type) where
  regions : Array (Array α) := #[]
deriving Inhabited

namespace Store

variable {k : Kind} {α : Type}

/-- The value at an address. -/
def get? (s : Store k α) (a : Addr k) : Option α :=
  match s.regions[a.region]? with
  | some r => r[a.index]?
  | none => none

/-- The value at an address, or a default where there is none. -/
def get [Inhabited α] (s : Store k α) (a : Addr k) : α := (s.get? a).getD default

/-- Change the value at an address. -/
def modify (s : Store k α) (a : Addr k) (f : α → α) : Store k α :=
  ⟨s.regions.modify a.region fun r => r.modify a.index f⟩

/-- Make sure that a region exists. -/
def reserve (s : Store k α) (region : Nat) : Store k α :=
  if region < s.regions.size then s
  else ⟨s.regions ++ Array.replicate (region + 1 - s.regions.size) #[]⟩

/-- The address that a region gives out next. -/
def next (s : Store k α) (region : Nat) : Addr k :=
  ⟨region, match s.regions[region]? with
    | some r => r.size
    | none => 0⟩

/-- Put a value at the next address of a region. -/
def push (s : Store k α) (region : Nat) (x : α) : Store k α :=
  ⟨(s.reserve region).regions.modify region fun r => r.push x⟩

/-- How many values there are. -/
def size (s : Store k α) : Nat := s.regions.foldl (fun n r => n + r.size) 0

/-- Every address at which there is a value. -/
def addresses (s : Store k α) : List (Addr k) :=
  s.regions.toList.zipIdx.flatMap fun (r, i) => (List.range r.size).map (⟨i, ·⟩)

/-! ## What the operations do to the values -/

/-- An address is looked up in its region. -/
theorem get?_eq (s : Store k α) (a : Addr k) :
    s.get? a = (s.regions[a.region]?).bind (·[a.index]?) := by
  unfold get?
  cases s.regions[a.region]? <;> rfl

/-- Reserving fills up with empty regions. -/
theorem getElem?_reserve (s : Store k α) (region i : Nat) :
    (s.reserve region).regions[i]? =
      if i < s.regions.size then s.regions[i]? else if i ≤ region then some #[] else none := by
  unfold reserve
  split
  next h =>
    split
    next => rfl
    next hi =>
      rw [Array.getElem?_eq_none (by omega)]
      rw [if_neg (by omega)]
  next h =>
    rw [Array.getElem?_append]
    split
    next => rfl
    next hi =>
      have hlt : i - s.regions.size < region + 1 - s.regions.size ↔ i ≤ region := by omega
      simp only [Array.getElem?_replicate, hlt]

/-- Reserving changes no value. -/
@[simp]
theorem get?_reserve (s : Store k α) (region : Nat) (a : Addr k) :
    (s.reserve region).get? a = s.get? a := by
  rw [get?_eq, get?_eq, getElem?_reserve]
  split
  next => rfl
  next h =>
    rw [Array.getElem?_eq_none (by omega)]
    split <;> simp

/-- A region gives out its size as the next index. -/
theorem next_eq (s : Store k α) (region : Nat) :
    s.next region = ⟨region, ((s.regions[region]?).map Array.size).getD 0⟩ := by
  unfold next
  cases s.regions[region]? <;> rfl

/-- The next address is free. -/
@[simp]
theorem get?_next (s : Store k α) (region : Nat) : s.get? (s.next region) = none := by
  rw [get?_eq, next_eq]
  cases s.regions[region]? <;> simp

/-- A change is seen at its address and nowhere else. -/
theorem get?_modify (s : Store k α) (a b : Addr k) (f : α → α) :
    (s.modify a f).get? b = if b = a then (s.get? b).map f else s.get? b := by
  obtain ⟨r, i⟩ := a
  obtain ⟨q, j⟩ := b
  simp only [get?_eq, modify, Addr.mk.injEq, Array.getElem?_modify]
  by_cases hr : r = q
  · subst hr
    cases h : s.regions[r]? with
    | none => simp
    | some x =>
      simp only [if_true, Option.map_some, Option.bind_some, Array.getElem?_modify, true_and]
      by_cases hi : i = j
      · simp [hi]
      · simp [hi, Ne.symm hi]
  · simp [hr, Ne.symm hr]

/-- A change that leaves the value is none. -/
theorem modify_eq_self (s : Store k α) (a : Addr k) {f : α → α}
    (hf : ∀ x, s.get? a = some x → f x = x) : s.modify a f = s := by
  rw [get?_eq] at hf
  refine congrArg Store.mk (Array.ext_getElem? fun i => ?_)
  rw [Array.getElem?_modify]
  split
  next hi =>
    subst hi
    cases hr : s.regions[a.region]? with
    | none => rfl
    | some r =>
      refine congrArg some (Array.ext_getElem? fun j => ?_)
      rw [Array.getElem?_modify]
      split
      next hj =>
        subst hj
        cases hx : r[a.index]? with
        | none => rfl
        | some x => exact congrArg some (hf x (by rw [hr]; exact hx))
      next => rfl
  next => rfl

/-- A new value is found at the address that was next, and every other one where it was. -/
theorem get?_push (s : Store k α) (region : Nat) (x : α) (a : Addr k) :
    (s.push region x).get? a = if a = s.next region then some x else s.get? a := by
  obtain ⟨q, j⟩ := a
  simp only [get?_eq, push, next_eq, Addr.mk.injEq, Array.getElem?_modify, getElem?_reserve]
  by_cases hr : region = q
  · subst hr
    by_cases hs : region < s.regions.size
    · simp only [if_true, hs, true_and]
      rw [Array.getElem?_eq_getElem hs]
      simp only [Option.map_some, Option.bind_some, Option.getD_some, Array.getElem?_push]
    · rw [Array.getElem?_eq_none (by omega : s.regions.size ≤ region)]
      cases j <;> simp [hs]
  · simp only [hr, if_false, Ne.symm hr, false_and]
    by_cases hs : q < s.regions.size
    · simp [hs]
    · have hn : s.regions[q]? = none := Array.getElem?_eq_none (by omega)
      simp only [hs, if_false, hn]
      split <;> simp

/-- A change leaves the next address of every region. -/
@[simp]
theorem next_modify (s : Store k α) (a : Addr k) (f : α → α) (region : Nat) :
    (s.modify a f).next region = s.next region := by
  rw [next_eq, next_eq, modify, Array.getElem?_modify]
  by_cases hr : a.region = region
  · subst hr
    cases s.regions[a.region]? <;> simp
  · simp [hr]

/-- What is put into a region moves the next address of that region alone. -/
theorem next_push (s : Store k α) (region : Nat) (x : α) (q : Nat) :
    (s.push region x).next q =
      if q = region then ⟨region, (s.next region).index + 1⟩ else s.next q := by
  simp only [next_eq, push, Array.getElem?_modify, getElem?_reserve]
  by_cases hr : region = q
  · subst hr
    by_cases hs : region < s.regions.size
    · simp [hs]
    · simp [hs]
  · simp only [hr, if_false, Ne.symm hr]
    by_cases hs : q < s.regions.size
    · simp [hs]
    · have hn : s.regions[q]? = none := Array.getElem?_eq_none (by omega)
      simp only [hs, if_false, hn]
      split <;> simp

end Store

end Fermata
