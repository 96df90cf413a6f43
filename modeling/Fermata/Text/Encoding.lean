/-!
# Encodings of a text

Offsets into a text count the bytes of its UTF-8 form, while the text itself is a list of
characters. `byteLength` counts on the list; it adds over concatenation (`byteLength_append`) and
agrees with the size of the encoded text (`byteLength_toList`).

Guest strings compare by their UTF-16 code units. That differs from the order by code points where a
character beyond the basic plane meets one from its upper end.
-/

namespace Fermata.Text

/-! ## Bytes -/

/-- How many bytes a text takes. -/
def byteLength : List Char → Nat
  | [] => 0
  | c :: cs => c.utf8Size + byteLength cs

theorem byteLength_nil : byteLength [] = 0 := rfl

theorem byteLength_cons (c : Char) (cs : List Char) :
    byteLength (c :: cs) = c.utf8Size + byteLength cs := rfl

/-- One text after another. -/
theorem byteLength_append (a b : List Char) :
    byteLength (a ++ b) = byteLength a + byteLength b := by
  induction a with
  | nil => exact (Nat.zero_add _).symm
  | cons c cs ih => rw [List.cons_append, byteLength_cons, byteLength_cons, ih, Nat.add_assoc]

/-- Counting on the list gives the size of the encoded text. -/
theorem byteLength_ofList (text : List Char) :
    byteLength text = (String.ofList text).utf8ByteSize := by
  induction text with
  | nil => rfl
  | cons c cs ih =>
    rw [byteLength_cons, ih, ← List.singleton_append, String.ofList_append,
      String.utf8ByteSize_append, ← String.singleton_eq_ofList, String.utf8ByteSize_singleton]

/-- The bytes of a text are the bytes of its characters. -/
theorem byteLength_toList (s : String) : byteLength s.toList = s.utf8ByteSize := by
  rw [byteLength_ofList, String.ofList_toList]

/-! ## Order by UTF-16 units -/

/-- The UTF-16 units of a character. -/
def units (c : Char) : List Nat :=
  let n := c.toNat
  if n < 0x10000 then [n]
  else [0xD800 + (n - 0x10000) / 0x400, 0xDC00 + (n - 0x10000) % 0x400]

/-- Lexicographic comparison. -/
def compareUnits : List Nat → List Nat → Ordering
  | [], [] => .eq
  | [], _ :: _ => .lt
  | _ :: _, [] => .gt
  | a :: as, b :: bs => if a < b then .lt else if b < a then .gt else compareUnits as bs

/-- Compare two strings by their UTF-16 units. -/
def compareUtf16 (s t : String) : Ordering :=
  compareUnits (s.toList.flatMap units) (t.toList.flatMap units)

end Fermata.Text
