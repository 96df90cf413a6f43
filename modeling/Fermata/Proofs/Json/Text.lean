import Fermata.Proofs.Json.Number
import Fermata.Syntax.Layout

/-!
# Reading back the text of a tree

`Json.compact` writes a tree without blanks. Reading that text gives the tree back, but for the order of
the members of its objects: the reader keeps them by name (`Json.sorted`).

* `Json.Legible`: every number of the tree survives.
* **`Json.parse_compact`**: the text of a legible tree that nests at most 127 levels deep reads back as
  the sorted tree.
* `Json.member?_sorted`: a sorted object has the members that the object has, the last one of each name.
* `Json.depth_member`: what a tree holds is less deep than the tree.
-/

namespace Fermata.Json

mutual

/-- The tree with the members of each object in the order of their names, the last one of each. -/
def sorted : Json → Json
  | .array items => .array (sortedItems items)
  | .object members => ofMembers (sortedMembers members)
  | j => j

/-- The items, each sorted. -/
def sortedItems : List Json → List Json
  | [] => []
  | j :: js => sorted j :: sortedItems js

/-- The members, each sorted, in the order in which they stand. -/
def sortedMembers : List (String × Json) → List (String × Json)
  | [] => []
  | (name, j) :: ms => (name, sorted j) :: sortedMembers ms

end

mutual

/-- Every number of the tree survives. -/
def Legible : Json → Prop
  | .number n => n.Survives
  | .array items => LegibleItems items
  | .object members => LegibleMembers members
  | _ => True

/-- Every number of the items survives. -/
def LegibleItems : List Json → Prop
  | [] => True
  | j :: js => Legible j ∧ LegibleItems js

/-- Every number of the members survives. -/
def LegibleMembers : List (String × Json) → Prop
  | [] => True
  | (_, j) :: ms => Legible j ∧ LegibleMembers ms

end

mutual

/-- How many arrays and objects are open at a time. -/
def nesting : Json → Nat
  | .array items => nestingItems items + 1
  | .object members => nestingMembers members + 1
  | _ => 0

/-- How many are open at a time among the items. -/
def nestingItems : List Json → Nat
  | [] => 0
  | j :: js => max (nesting j) (nestingItems js)

/-- How many are open at a time among the members. -/
def nestingMembers : List (String × Json) → Nat
  | [] => 0
  | (_, j) :: ms => max (nesting j) (nestingMembers ms)

end

/-! ## Texts in quotes -/

theorem readHex_control {n : Nat} (hn : n < 0x20) (i : Input) (rest : List Char)
    (hi : i.rest = '0' :: '0' :: hexDigit (n / 16) :: hexDigit (n % 16) :: rest) :
    readHex i = .ok (n, ⟨rest, i.line, i.column + 4⟩) := by
  have hdigits : ∀ n < 0x20, (hexDigit (n / 16)).utf8Size = 1 ∧ (hexDigit (n % 16)).utf8Size = 1 ∧
      hexValue? ['0', '0', hexDigit (n / 16), hexDigit (n % 16)] = some n := by decide
  obtain ⟨hhigh, hlow, hvalue⟩ := hdigits n hn
  have hzero : '0'.utf8Size = 1 := rfl
  have htake : takeBytes 4 i.rest =
      (['0', '0', hexDigit (n / 16), hexDigit (n % 16)], 4) := by
    simp [hi, takeBytes, hhigh, hlow, hzero]
  unfold readHex
  rw [htake, hi]
  simp only [Nat.lt_irrefl, if_false, hvalue]

theorem readUnicode_control {n : Nat} (hn : n < 0x20) (i : Input) (rest : List Char)
    (hi : i.rest = '0' :: '0' :: hexDigit (n / 16) :: hexDigit (n % 16) :: rest) :
    ∃ i', i'.rest = rest ∧ readUnicode i = .ok (Char.ofNat n, i') := by
  have hlow : ¬(0xDC00 ≤ n ∧ n ≤ 0xDFFF) := by omega
  have hhigh : n < 0xD800 ∨ n > 0xDBFF := by omega
  refine ⟨⟨rest, i.line, i.column + 4⟩, rfl, ?_⟩
  simp only [readUnicode, readHex_control hn i rest hi, Bind.bind, Except.bind, if_neg hlow,
    if_pos hhigh]
  rfl

/-- The characters that are written as a backslash and one more, with that one first. -/
def paired : List (Char × Char) :=
  [('"', '"'), ('\\', '\\'), ('n', '\n'), ('r', '\r'), ('t', '\t'), ('b', Char.ofNat 8),
    ('f', Char.ofNat 12)]

/-- How a character can be written between quotes. -/
inductive Escapes (c : Char) : List Char → Prop
  | pair {e : Char} : (e, c) ∈ paired → Escapes c ['\\', e]
  | control : c.toNat < 0x20 →
      Escapes c ['\\', 'u', '0', '0', hexDigit (c.toNat / 16), hexDigit (c.toNat % 16)]
  | plain : c ≠ '"' → c ≠ '\\' → 0x20 ≤ c.toNat → Escapes c [c]

theorem escapes_escapeChar (c : Char) : Escapes c (escapeChar c) := by
  have hof : Char.ofNat c.toNat = c := Char.ofNat_toNat c
  by_cases hquote : c = '"'
  · subst hquote
    exact .pair (e := '"') (by decide)
  by_cases hback : c = '\\'
  · subst hback
    exact .pair (e := '\\') (by decide)
  by_cases hline : c = '\n'
  · subst hline
    exact .pair (e := 'n') (by decide)
  by_cases hreturn : c = '\r'
  · subst hreturn
    exact .pair (e := 'r') (by decide)
  by_cases htab : c = '\t'
  · subst htab
    exact .pair (e := 't') (by decide)
  by_cases hbell : c.toNat = 8
  · rw [hbell] at hof
    subst hof
    exact .pair (e := 'b') (by decide)
  by_cases hfeed : c.toNat = 12
  · rw [hfeed] at hof
    subst hof
    exact .pair (e := 'f') (by decide)
  rw [escapeChar, if_neg hquote, if_neg hback, if_neg hline, if_neg hreturn, if_neg htab,
    if_neg hbell, if_neg hfeed]
  by_cases hcontrol : c.toNat < 0x20
  · rw [if_pos hcontrol]
    exact .control hcontrol
  · rw [if_neg hcontrol]
    exact .plain hquote hback (Nat.le_of_not_lt hcontrol)

/-- One character of a text in quotes. -/
theorem readString_escapeChar (c : Char) (fuel : Nat) (text : List Char) (i : Input)
    (rest : List Char) (hi : i.rest = escapeChar c ++ rest) :
    ∃ i', i'.rest = rest ∧ readString (fuel + 1) text i = readString fuel (c :: text) i' := by
  have hpaired : ∀ p ∈ paired, p.1 ≠ 'u' ∧ simpleEscape? p.1 = some p.2 := by decide
  generalize hw : escapeChar c = w at hi
  cases hw ▸ escapes_escapeChar c with
  | @pair e he =>
    obtain ⟨hu, hread⟩ := hpaired _ he
    refine ⟨(i.pass '\\' (e :: rest)).pass e rest, rest_pass .., ?_⟩
    simp [readString, hi, hu, hread]
  | control hcontrol =>
    let digits := '0' :: '0' :: hexDigit (c.toNat / 16) :: hexDigit (c.toNat % 16) :: rest
    obtain ⟨i', hi', hread⟩ := readUnicode_control hcontrol
      ((i.pass '\\' ('u' :: digits)).pass 'u' digits) rest (rest_pass ..)
    refine ⟨i', hi', ?_⟩
    rw [Char.ofNat_toNat] at hread
    simp only [readString, hi, List.cons_append, List.nil_append]
    exact hread ▸ rfl
  | plain hquote hback hlow =>
    refine ⟨i.pass c rest, rest_pass .., ?_⟩
    simp [readString, hi, hquote, hback, Nat.not_lt.mpr hlow]

/-- **A text in quotes is read as the text.** -/
theorem readString_quote (cs : List Char) (fuel : Nat) (text : List Char) (i : Input)
    (rest : List Char) (hi : i.rest = cs.flatMap escapeChar ++ '"' :: rest)
    (hfuel : cs.length < fuel) :
    ∃ i', i'.rest = rest ∧ readString fuel text i = .ok (String.ofList (text.reverse ++ cs), i') := by
  induction cs generalizing fuel text i with
  | nil =>
    obtain ⟨fuel, rfl⟩ : ∃ n, fuel = n + 1 := ⟨fuel - 1, by omega⟩
    refine ⟨i.pass '"' rest, rest_pass .., ?_⟩
    rw [List.flatMap_nil, List.nil_append] at hi
    simp [readString, hi]
  | cons c cs ih =>
    obtain ⟨fuel, rfl⟩ : ∃ n, fuel = n + 1 := ⟨fuel - 1, by omega⟩
    rw [List.flatMap_cons, List.append_assoc] at hi
    obtain ⟨k, hk, hread⟩ := readString_escapeChar c fuel text i _ hi
    obtain ⟨i', hi', hread'⟩ := ih fuel (c :: text) k hk (by simpa using hfuel)
    refine ⟨i', hi', ?_⟩
    rw [hread, hread', List.reverse_cons, List.append_assoc]
    rfl

/-! ## Items and members -/

/-- Read an item, and then the further ones. -/
def itemThen (fuel depth : Nat) (i : Input) : Read (List Json) :=
  match readValue fuel depth i with
  | .error f => .error f
  | .ok (x, i) => (readItems fuel depth false i).map fun (xs, i) => (x :: xs, i)

theorem readItems_first (fuel depth : Nat) {i : Input} {c : Char} {rest : List Char}
    (hi : i.skipBlanks.rest = c :: rest) (hc : c ≠ ']') :
    readItems (fuel + 1) depth true i = itemThen fuel depth i.skipBlanks := by
  simp only [readItems, hi, if_neg hc, if_true]
  rfl

theorem readItems_more (fuel depth : Nat) {i : Input} {d : Char} {rest ds : List Char}
    (hi : i.skipBlanks.rest = ',' :: rest)
    (hd : (i.skipBlanks.pass ',' rest).skipBlanks.rest = d :: ds) (hne : d ≠ ']') :
    readItems (fuel + 1) depth false i =
      itemThen fuel depth (i.skipBlanks.pass ',' rest).skipBlanks := by
  have hcomma : ',' ≠ ']' := by decide
  simp only [readItems, hi, if_neg hcomma, Bool.false_eq_true, if_false, if_true, hd, if_neg hne]
  rfl

theorem readItems_close (fuel depth : Nat) (first : Bool) {i : Input} {rest : List Char}
    (hi : i.skipBlanks.rest = ']' :: rest) :
    ∃ i', i'.rest = rest ∧ readItems (fuel + 1) depth first i = .ok ([], i') := by
  refine ⟨i.skipBlanks.pass ']' rest, rest_pass .., ?_⟩
  simp only [readItems, hi, if_true]

/-- Read the value of a member, and then the further members. -/
def memberThen (fuel depth : Nat) (name : String) (i : Input) : Read (List (String × Json)) :=
  match readValue fuel depth i with
  | .error f => .error f
  | .ok (v, i) => (readMembers fuel depth false i).map fun (ms, i) => ((name, v) :: ms, i)

theorem readMembers_first (fuel depth : Nat) {i k : Input} {name : String} {rest after : List Char}
    (hi : i.skipBlanks.rest = '"' :: rest)
    (hname : readString fuel [] (i.skipBlanks.pass '"' rest) = .ok (name, k))
    (hk : k.skipBlanks.rest = ':' :: after) :
    readMembers (fuel + 1) depth true i = memberThen fuel depth name (k.skipBlanks.pass ':' after) := by
  have hquote : '"' ≠ '\x7d' := by decide
  simp only [readMembers, hi, if_neg hquote, if_true, hname, hk]
  rfl

theorem readMembers_more (fuel depth : Nat) {i k : Input} {name : String}
    {rest rest' after : List Char} (hi : i.skipBlanks.rest = ',' :: rest)
    (hi' : (i.skipBlanks.pass ',' rest).skipBlanks.rest = '"' :: rest')
    (hname : readString fuel [] ((i.skipBlanks.pass ',' rest).skipBlanks.pass '"' rest') =
      .ok (name, k))
    (hk : k.skipBlanks.rest = ':' :: after) :
    readMembers (fuel + 1) depth false i =
      memberThen fuel depth name (k.skipBlanks.pass ':' after) := by
  have hcomma : ',' ≠ '\x7d' := by decide
  simp only [readMembers, hi, if_neg hcomma, Bool.false_eq_true, if_false, if_true, hi', hname, hk]
  rfl

theorem readMembers_close (fuel depth : Nat) (first : Bool) {i : Input} {rest : List Char}
    (hi : i.skipBlanks.rest = '\x7d' :: rest) :
    ∃ i', i'.rest = rest ∧ readMembers (fuel + 1) depth first i = .ok ([], i') := by
  refine ⟨i.skipBlanks.pass '\x7d' rest, rest_pass .., ?_⟩
  simp only [readMembers, hi, if_true]

/-! ## The text of a tree -/

/-- The text of a tree, in characters. -/
def chars (j : Json) : List Char := j.compact.toList

/-- The text of items behind another item. -/
def moreItems (js : List Json) : List Char := js.flatMap fun j => ',' :: chars j

/-- The text of a member. -/
def memberText (name : String) (j : Json) : List Char :=
  '"' :: (name.toList.flatMap escapeChar ++ '"' :: ':' :: chars j)

/-- The text of members behind another member. -/
def moreMembers (ms : List (String × Json)) : List Char :=
  ms.flatMap fun m => ',' :: memberText m.1 m.2

theorem intercalate_cons (x : List Char) (xs : List (List Char)) :
    [','].intercalate (x :: xs) = x ++ xs.flatMap (',' :: ·) := by
  induction xs generalizing x with
  | nil => simp [List.intercalate]
  | cons y ys ih =>
    have hstep : [','].intercalate (x :: y :: ys) = x ++ [','] ++ [','].intercalate (y :: ys) := by
      simp [List.intercalate]
    rw [hstep, ih, List.flatMap_cons]
    simp

theorem toList_quote (s : String) :
    (quote s).toList = '"' :: (s.toList.flatMap escapeChar ++ ['"']) := by
  simp [quote]

theorem chars_array_cons (j : Json) (js : List Json) :
    chars (.array (j :: js)) = '[' :: (chars j ++ (moreItems js ++ [']'])) := by
  have hitems : (compactItems js).map String.toList = js.map chars := by
    induction js with
    | nil => rfl
    | cons k ks ih => simp [compactItems, ih, chars]
  simp [chars, compact, compactItems, intercalate_cons, hitems, moreItems, List.flatMap_map]

theorem chars_object_cons (name : String) (j : Json) (ms : List (String × Json)) :
    chars (.object ((name, j) :: ms)) =
      '\x7b' :: (memberText name j ++ (moreMembers ms ++ ['\x7d'])) := by
  have hmembers : (compactMembers ms).map String.toList =
      ms.map fun m => memberText m.1 m.2 := by
    induction ms with
    | nil => rfl
    | cons m ms ih => simp [compactMembers, ih, memberText, chars, toList_quote]
  simp [chars, compact, compactMembers, intercalate_cons, hmembers, memberText, moreMembers,
    toList_quote, List.flatMap_map]

/-- The text of a tree starts with something else than a closing bracket. -/
theorem chars_head {j : Json} (hj : j.Legible) :
    ∃ c cs, (chars j).dropWhile Input.isBlank = c :: cs ∧ c ≠ ']' := by
  cases j with
  | null => exact ⟨'n', ['u', 'l', 'l'], rfl, by decide⟩
  | bool b =>
    cases b with
    | false => exact ⟨'f', ['a', 'l', 's', 'e'], rfl, by decide⟩
    | true => exact ⟨'t', ['r', 'u', 'e'], rfl, by decide⟩
  | number n => exact survives_head (by simpa only [Legible] using hj)
  | string s =>
    refine ⟨'"', s.toList.flatMap escapeChar ++ ['"'], ?_, by decide⟩
    rw [chars, compact, toList_quote]
    rfl
  | array items =>
    cases items with
    | nil => exact ⟨'[', [']'], rfl, by decide⟩
    | cons j js => exact ⟨'[', _, by rw [chars_array_cons]; rfl, by decide⟩
  | object members =>
    cases members with
    | nil => exact ⟨'\x7b', ['\x7d'], rfl, by decide⟩
    | cons m ms => exact ⟨'\x7b', _, by rw [chars_object_cons]; rfl, by decide⟩

theorem chars_length {j : Json} (hj : j.Legible) : 0 < (chars j).length := by
  obtain ⟨c, cs, hhead, -⟩ := chars_head hj
  cases hnil : chars j with
  | nil =>
    rw [hnil] at hhead
    cases hhead
  | cons d ds => exact Nat.succ_pos _

/-- What stands in front of a text, but for blanks. -/
theorem dropWhile_cons {cs : List Char} {c : Char} (hc : Input.isBlank c = false) :
    (c :: cs).dropWhile Input.isBlank = c :: cs := by
  simp [hc]

theorem dropWhile_idem (cs : List Char) :
    (cs.dropWhile Input.isBlank).dropWhile Input.isBlank = cs.dropWhile Input.isBlank := by
  induction cs with
  | nil => rfl
  | cons c cs ih =>
    cases hc : Input.isBlank c with
    | true => simpa [hc] using ih
    | false => simp [hc]

theorem itemThen_ok (fuel depth : Nat) {i : Input} {x : Json} {xs : List Json}
    {more tail : List Char}
    (hitem : ∃ k, readValue fuel depth i = .ok (x, k) ∧ k.rest.dropWhile Input.isBlank = more)
    (hmore : ∀ k : Input, k.rest.dropWhile Input.isBlank = more →
      ∃ i', readItems fuel depth false k = .ok (xs, i') ∧ i'.rest = tail) :
    ∃ i', itemThen fuel depth i = .ok (x :: xs, i') ∧ i'.rest = tail := by
  obtain ⟨k, hread, hk⟩ := hitem
  obtain ⟨i', hitems, hi'⟩ := hmore k hk
  refine ⟨i', ?_, hi'⟩
  simp only [itemThen, hread, hitems]
  rfl

theorem memberThen_ok (name : String) {fuel depth : Nat} {i : Input} {x : Json}
    {xs : List (String × Json)} {more tail : List Char}
    (hitem : ∃ k, readValue fuel depth i = .ok (x, k) ∧ k.rest.dropWhile Input.isBlank = more)
    (hmore : ∀ k : Input, k.rest.dropWhile Input.isBlank = more →
      ∃ i', readMembers fuel depth false k = .ok (xs, i') ∧ i'.rest = tail) :
    ∃ i', memberThen fuel depth name i = .ok ((name, x) :: xs, i') ∧ i'.rest = tail := by
  obtain ⟨k, hread, hk⟩ := hitem
  obtain ⟨i', hitems, hi'⟩ := hmore k hk
  refine ⟨i', ?_, hi'⟩
  simp only [memberThen, hread, hitems]
  rfl

theorem length_escape (cs : List Char) : cs.length ≤ (cs.flatMap escapeChar).length := by
  induction cs with
  | nil => exact Nat.le_refl 0
  | cons c cs ih =>
    have hone : 1 ≤ (escapeChar c).length := by
      unfold escapeChar
      repeat' split
      all_goals simp
    simp only [List.flatMap_cons, List.length_append, List.length_cons]
    omega

/-- The name of a member, up to the colon. -/
theorem readString_name (name : String) (j : Json) {i : Input} {more : List Char} {fuel : Nat}
    (hi : i.rest = name.toList.flatMap escapeChar ++ '"' :: ':' :: chars j ++ more)
    (hfuel : (memberText name j).length ≤ fuel) :
    ∃ k, readString fuel [] i = .ok (name, k) ∧ k.skipBlanks.rest = ':' :: (chars j ++ more) := by
  have hlength := length_escape name.toList
  have hshort : name.toList.length < fuel := by
    simp only [memberText, List.length_cons, List.length_append] at hfuel
    omega
  obtain ⟨k, hk, hread⟩ := readString_quote name.toList fuel [] i (':' :: (chars j ++ more))
    (by simpa using hi) hshort
  refine ⟨k, by simpa using hread, ?_⟩
  rw [rest_skipBlanks, hk]
  exact dropWhile_cons (by decide)

/-- A member, from its quote on. -/
theorem member_ok (fuel depth : Nat) (name : String) (j : Json) {i : Input} {x : Json}
    {xs : List (String × Json)} {more tail : List Char} (hc : Closes more)
    (hi : i.rest = memberText name j ++ more) (hfuel : (memberText name j).length ≤ fuel)
    (hvalue : ∀ k : Input,
      k.rest.dropWhile Input.isBlank = (chars j).dropWhile Input.isBlank ++ more →
      ∃ k', readValue fuel depth k = .ok (x, k') ∧ k'.rest.dropWhile Input.isBlank = more)
    (hmore : ∀ k : Input, k.rest.dropWhile Input.isBlank = more →
      ∃ i', readMembers fuel depth false k = .ok (xs, i') ∧ i'.rest = tail) :
    ∃ rest k after i', i.rest = '"' :: rest ∧ readString fuel [] (i.pass '"' rest) = .ok (name, k) ∧
      k.skipBlanks.rest = ':' :: after ∧
      memberThen fuel depth name (k.skipBlanks.pass ':' after) = .ok ((name, x) :: xs, i') ∧
      i'.rest = tail := by
  have hrest : i.rest =
      '"' :: (name.toList.flatMap escapeChar ++ '"' :: ':' :: chars j ++ more) := by
    simpa [memberText] using hi
  obtain ⟨k, hname, hk⟩ := readString_name name j (rest_pass i '"' _) hfuel
  obtain ⟨i', hthen, hi'⟩ := memberThen_ok name
    (hvalue (k.skipBlanks.pass ':' (chars j ++ more))
      (by rw [rest_pass, dropWhile_blank_append hc])) hmore
  exact ⟨_, k, _, i', hrest, hname, hk, hthen, hi'⟩

theorem closes_moreItems (js : List Json) (tail : List Char) :
    Closes (moreItems js ++ ']' :: tail) := by
  cases js with
  | nil => exact closes_cons (.inr (.inl rfl)) _
  | cons j js => exact closes_cons (.inl rfl) _

theorem closes_moreMembers (ms : List (String × Json)) (tail : List Char) :
    Closes (moreMembers ms ++ '\x7d' :: tail) := by
  cases ms with
  | nil => exact closes_cons (.inr (.inr rfl)) _
  | cons m ms => exact closes_cons (.inl rfl) _

theorem readWord_append (word rest : List Char) {i : Input} (hi : i.rest = word ++ rest) :
    ∃ i', readWord word i = .ok i' ∧ i'.rest = rest := by
  induction word generalizing i with
  | nil => exact ⟨i, rfl, hi⟩
  | cons c cs ih =>
    rw [List.cons_append] at hi
    obtain ⟨i', hread, hi'⟩ := ih (i := i.pass c (cs ++ rest)) (rest_pass ..)
    refine ⟨i', ?_, hi'⟩
    simp only [readWord, hi, if_true, hread]

/-- A tree that is written as a word. -/
theorem word_ok (c : Char) (word : List Char) {j : Json} {tail : List Char} (ht : Closes tail)
    {i : Input} {read : Read Json}
    (hread : read = (readWord word (i.pass c (word ++ tail))).map (j, ·)) :
    ∃ i', read = .ok (j, i') ∧ i'.rest.dropWhile Input.isBlank = tail := by
  obtain ⟨i', hword, hi'⟩ := readWord_append word tail (rest_pass i c (word ++ tail))
  refine ⟨i', ?_, ?_⟩
  · rw [hread, hword]
    rfl
  · rw [hi', dropWhile_closes ht]

/-! ## The round trip -/

section

variable {fuel depth : Nat} {i : Input} {rest : List Char}

theorem readValue_quote (hi : i.skipBlanks.rest = '"' :: rest) :
    readValue (fuel + 1) depth i =
      (readString fuel [] (i.skipBlanks.pass '"' rest)).map fun (s, i) => (Json.string s, i) := by
  simp only [readValue, hi]
  rfl

theorem readValue_bracket (hi : i.skipBlanks.rest = '[' :: rest) (hdepth : 1 < depth) :
    readValue (fuel + 1) depth i =
      (readItems fuel (depth - 1) true (i.skipBlanks.pass '[' rest)).map
        fun (xs, i) => (Json.array xs, i) := by
  simp only [readValue, hi, if_neg (Nat.not_le.mpr hdepth)]
  rfl

theorem readValue_brace (hi : i.skipBlanks.rest = '\x7b' :: rest) (hdepth : 1 < depth) :
    readValue (fuel + 1) depth i =
      (readMembers fuel (depth - 1) true (i.skipBlanks.pass '\x7b' rest)).map
        fun (ms, i) => (Json.ofMembers ms, i) := by
  simp only [readValue, hi, if_neg (Nat.not_le.mpr hdepth)]
  rfl

end

mutual

/-- The text of a tree is read as the sorted tree. -/
theorem readValue_chars (j : Json) (hj : j.Legible) {tail : List Char} (ht : Closes tail)
    {fuel depth : Nat} {i : Input}
    (hi : i.rest.dropWhile Input.isBlank = (chars j).dropWhile Input.isBlank ++ tail)
    (hfuel : 2 * ((chars j).length + tail.length) + 2 ≤ fuel) (hdepth : j.nesting < depth) :
    ∃ i', readValue fuel depth i = .ok (j.sorted, i') ∧ i'.rest.dropWhile Input.isBlank = tail := by
  obtain ⟨fuel, rfl⟩ : ∃ n, fuel = n + 1 := ⟨fuel - 1, by omega⟩
  cases j with
  | null =>
    have hrest : i.skipBlanks.rest = 'n' :: (['u', 'l', 'l'] ++ tail) := (rest_skipBlanks i).trans hi
    refine word_ok 'n' ['u', 'l', 'l'] ht (i := i.skipBlanks) ?_
    simp only [readValue, hrest]
    rfl
  | bool b =>
    cases b with
    | true =>
      have hrest : i.skipBlanks.rest = 't' :: (['r', 'u', 'e'] ++ tail) := (rest_skipBlanks i).trans hi
      refine word_ok 't' ['r', 'u', 'e'] ht (i := i.skipBlanks) ?_
      simp only [readValue, hrest]
      rfl
    | false =>
      have hrest : i.skipBlanks.rest = 'f' :: (['a', 'l', 's', 'e'] ++ tail) :=
        (rest_skipBlanks i).trans hi
      refine word_ok 'f' ['a', 'l', 's', 'e'] ht (i := i.skipBlanks) ?_
      simp only [readValue, hrest]
      rfl
  | number n => exact readValue_survives (by simpa only [Legible] using hj) ht hi fuel depth
  | string s =>
    have hchars : chars (.string s) = '"' :: (s.toList.flatMap escapeChar ++ ['"']) :=
      toList_quote s
    have hlength := length_escape s.toList
    rw [hchars, dropWhile_cons (by decide), ← rest_skipBlanks, List.cons_append,
      List.append_assoc] at hi
    rw [hchars, List.length_cons, List.length_append] at hfuel
    obtain ⟨i', hi', hread⟩ := readString_quote s.toList fuel [] (i.skipBlanks.pass '"' _) tail
      (rest_pass ..) (by omega)
    refine ⟨i', ?_, by rw [hi', dropWhile_closes ht]⟩
    rw [List.reverse_nil, List.nil_append, String.ofList_toList] at hread
    rw [readValue_quote hi]
    exact congrArg (Except.map _) hread
  | array js =>
    cases js with
    | nil =>
      have hrest : i.skipBlanks.rest = '[' :: ']' :: tail := (rest_skipBlanks i).trans hi
      simp only [nesting, nestingItems] at hdepth
      obtain ⟨fuel, rfl⟩ : ∃ n, fuel = n + 1 := ⟨fuel - 1, by omega⟩
      obtain ⟨i', hi', hread⟩ := readItems_close fuel (depth - 1) true
        (i := i.skipBlanks.pass '[' (']' :: tail))
        (by rw [rest_skipBlanks, rest_pass, dropWhile_cons (by decide)])
      refine ⟨i', ?_, by rw [hi', dropWhile_closes ht]⟩
      rw [readValue_bracket hrest (by omega), hread]
      rfl
    | cons j js =>
      simp only [Legible, LegibleItems] at hj
      simp only [nesting, nestingItems] at hdepth
      rw [chars_array_cons, dropWhile_cons (by decide), ← rest_skipBlanks, List.cons_append,
        List.append_assoc, List.append_assoc] at hi
      rw [chars_array_cons, List.length_cons, List.length_append, List.length_append] at hfuel
      have hpos := chars_length hj.1
      obtain ⟨c, cs, hhead, hne⟩ := chars_head hj.1
      obtain ⟨fuel, rfl⟩ : ∃ n, fuel = n + 1 := ⟨fuel - 1, by omega⟩
      have hfirst : (i.skipBlanks.pass '[' (chars j ++ (moreItems js ++ ']' :: tail))).skipBlanks.rest
          = (chars j).dropWhile Input.isBlank ++ (moreItems js ++ ']' :: tail) := by
        rw [rest_skipBlanks, rest_pass, dropWhile_blank_append (closes_moreItems js tail)]
      obtain ⟨i', hread, hi'⟩ := itemThen_ok fuel (depth - 1)
        (readValue_chars j hj.1 (closes_moreItems js tail)
          (by rw [hfirst, dropWhile_blank_append (closes_moreItems js tail), dropWhile_idem])
          (by simp only [List.length_append, List.length_cons, List.length_nil] at *; omega)
          (by omega))
        fun k hk => readItems_chars js hj.2 hk
          (by simp only [List.length_cons, List.length_nil] at hfuel; omega) (by omega)
      refine ⟨i', ?_, by rw [hi', dropWhile_closes ht]⟩
      rw [readValue_bracket hi (by omega)]
      have hitems := readItems_first fuel (depth - 1)
        (by rw [hfirst, hhead]; rfl) hne
      exact congrArg (Except.map _) (hitems.trans hread)
  | object ms =>
    cases ms with
    | nil =>
      have hrest : i.skipBlanks.rest = '\x7b' :: '\x7d' :: tail := (rest_skipBlanks i).trans hi
      simp only [nesting, nestingMembers] at hdepth
      obtain ⟨fuel, rfl⟩ : ∃ n, fuel = n + 1 := ⟨fuel - 1, by omega⟩
      obtain ⟨i', hi', hread⟩ := readMembers_close fuel (depth - 1) true
        (i := i.skipBlanks.pass '\x7b' ('\x7d' :: tail))
        (by rw [rest_skipBlanks, rest_pass, dropWhile_cons (by decide)])
      refine ⟨i', ?_, by rw [hi', dropWhile_closes ht]⟩
      rw [readValue_brace hrest (by omega), hread]
      rfl
    | cons m ms =>
      obtain ⟨name, j⟩ := m
      simp only [Legible, LegibleMembers] at hj
      simp only [nesting, nestingMembers] at hdepth
      rw [chars_object_cons, dropWhile_cons (by decide), ← rest_skipBlanks, List.cons_append,
        List.append_assoc, List.append_assoc] at hi
      rw [chars_object_cons, List.length_cons, List.length_append, List.length_append] at hfuel
      have hpos := chars_length hj.1
      obtain ⟨fuel, rfl⟩ : ∃ n, fuel = n + 1 := ⟨fuel - 1, by omega⟩
      have hrest : (i.skipBlanks.pass '\x7b'
          (memberText name j ++ (moreMembers ms ++ '\x7d' :: tail))).skipBlanks.rest =
            memberText name j ++ (moreMembers ms ++ '\x7d' :: tail) := by
        rw [rest_skipBlanks, rest_pass]
        exact dropWhile_cons (by decide)
      obtain ⟨rest, k, after, i', hquote, hname, hk, hthen, hi'⟩ :=
        member_ok fuel (depth - 1) name j (closes_moreMembers ms tail) hrest (by omega)
          (fun k hk => readValue_chars j hj.1 (closes_moreMembers ms tail) hk
            (by
              simp only [memberText, List.length_append, List.length_cons, List.length_nil] at *
              omega)
            (by omega))
          fun k hk => readMembers_chars ms hj.2 hk
            (by
              simp only [memberText, List.length_append, List.length_cons, List.length_nil] at *
              omega)
            (by omega)
      refine ⟨i', ?_, by rw [hi', dropWhile_closes ht]⟩
      rw [readValue_brace hi (by omega)]
      exact congrArg (Except.map _) ((readMembers_first fuel (depth - 1) hquote hname hk).trans hthen)

/-- Items behind another item. -/
theorem readItems_chars (js : List Json) (hjs : LegibleItems js) {tail : List Char} {fuel depth : Nat}
    {i : Input} (hi : i.rest.dropWhile Input.isBlank = moreItems js ++ ']' :: tail)
    (hfuel : 2 * ((moreItems js).length + (tail.length + 1)) + 3 ≤ fuel)
    (hdepth : nestingItems js < depth) :
    ∃ i', readItems fuel depth false i = .ok (sortedItems js, i') ∧ i'.rest = tail := by
  obtain ⟨fuel, rfl⟩ : ∃ n, fuel = n + 1 := ⟨fuel - 1, by omega⟩
  match js with
  | [] =>
    rw [← rest_skipBlanks] at hi
    obtain ⟨i', hi', hread⟩ := readItems_close fuel depth false hi
    exact ⟨i', hread, hi'⟩
  | j :: js =>
    simp only [LegibleItems] at hjs
    simp only [nestingItems, Nat.max_lt] at hdepth
    have hmore : moreItems (j :: js) = ',' :: (chars j ++ moreItems js) := by
      simp [moreItems]
    have hpos := chars_length hjs.1
    rw [hmore, List.length_cons, List.length_append] at hfuel
    rw [hmore, ← rest_skipBlanks, List.cons_append, List.append_assoc] at hi
    obtain ⟨c, cs, hhead, hne⟩ := chars_head hjs.1
    have hnext : ((i.skipBlanks.pass ',' (chars j ++ (moreItems js ++ ']' :: tail))).skipBlanks).rest
        = (chars j).dropWhile Input.isBlank ++ (moreItems js ++ ']' :: tail) := by
      rw [rest_skipBlanks, rest_pass, dropWhile_blank_append (closes_moreItems js tail)]
    rw [readItems_more fuel depth hi (by rw [hnext, hhead]; rfl) hne]
    refine itemThen_ok fuel depth (readValue_chars j hjs.1 (closes_moreItems js tail) ?_ ?_ hdepth.1)
      fun k hk => readItems_chars js hjs.2 hk ?_ hdepth.2
    · rw [hnext, dropWhile_blank_append (closes_moreItems js tail), dropWhile_idem]
    · simp only [List.length_append, List.length_cons]
      omega
    · omega

/-- Members behind another member. -/
theorem readMembers_chars (ms : List (String × Json)) (hms : LegibleMembers ms) {tail : List Char}
    {fuel depth : Nat} {i : Input}
    (hi : i.rest.dropWhile Input.isBlank = moreMembers ms ++ '\x7d' :: tail)
    (hfuel : 2 * ((moreMembers ms).length + (tail.length + 1)) + 3 ≤ fuel)
    (hdepth : nestingMembers ms < depth) :
    ∃ i', readMembers fuel depth false i = .ok (sortedMembers ms, i') ∧ i'.rest = tail := by
  obtain ⟨fuel, rfl⟩ : ∃ n, fuel = n + 1 := ⟨fuel - 1, by omega⟩
  match ms with
  | [] =>
    rw [← rest_skipBlanks] at hi
    obtain ⟨i', hi', hread⟩ := readMembers_close fuel depth false hi
    exact ⟨i', hread, hi'⟩
  | (name, j) :: ms =>
    simp only [LegibleMembers] at hms
    simp only [nestingMembers, Nat.max_lt] at hdepth
    have hmore : moreMembers ((name, j) :: ms) = ',' :: (memberText name j ++ moreMembers ms) := by
      simp [moreMembers]
    rw [hmore, List.length_cons, List.length_append] at hfuel
    rw [hmore, ← rest_skipBlanks, List.cons_append, List.append_assoc] at hi
    have hrest : (i.skipBlanks.pass ','
        (memberText name j ++ (moreMembers ms ++ '\x7d' :: tail))).skipBlanks.rest =
          memberText name j ++ (moreMembers ms ++ '\x7d' :: tail) := by
      rw [rest_skipBlanks, rest_pass]
      exact dropWhile_cons (by decide)
    obtain ⟨rest, k, after, i', hquote, hname, hk, hthen, hi'⟩ :=
      member_ok fuel depth name j (closes_moreMembers ms tail) hrest (by omega)
        (fun k hk => readValue_chars j hms.1 (closes_moreMembers ms tail) hk
          (by
            simp only [memberText, List.length_append, List.length_cons] at *
            omega)
          hdepth.1)
        fun k hk => readMembers_chars ms hms.2 hk (by omega) hdepth.2
    exact ⟨i', (readMembers_more fuel depth hi hquote hname hk).trans hthen, hi'⟩

end

/-- **The text of a tree reads back as the tree**, but for the order of members. -/
theorem parse_compact {j : Json} (hj : j.Legible) (hn : j.nesting < depthLimit) :
    parse j.compact = .ok j.sorted := by
  have ht : Closes [] := nofun
  obtain ⟨i', hread, hi'⟩ : ∃ i', readValue (2 * (chars j).length + 2) depthLimit ⟨chars j, 1, 0⟩ =
      .ok (j.sorted, i') ∧ i'.rest.dropWhile Input.isBlank = [] :=
    readValue_chars j hj ht (by rw [List.append_nil]) (by simp) hn
  have hrest : i'.skipBlanks.rest = [] := (rest_skipBlanks i').trans hi'
  unfold parse parseWithin
  change (match readValue (2 * (chars j).length + 2) depthLimit ⟨chars j, 1, 0⟩ with
    | Except.error f => Except.error f
    | Except.ok (j, i) => if i.skipBlanks.rest.isEmpty then Except.ok j else _) = _
  rw [hread]
  simp only [hrest, List.isEmpty_nil, if_true]

/-! ## Members of a sorted tree -/

@[simp]
theorem lookup_cons (name : String) (v : Json) (ms : List (String × Json)) (m : String) :
    ((name, v) :: ms).lookup m = if m = name then some v else ms.lookup m := by
  rw [List.lookup_cons]
  by_cases hm : m = name
  · rw [if_pos hm, beq_iff_eq.mpr hm]
  · rw [if_neg hm, beq_eq_false_iff_ne.mpr hm]

theorem lookup_insert (name : String) (v : Json) (ms : List (String × Json)) (m : String) :
    (insert name v ms).lookup m = if m = name then some v else ms.lookup m := by
  induction ms with
  | nil => exact lookup_cons name v [] m
  | cons n ms ih =>
    obtain ⟨n, w⟩ := n
    unfold insert
    split
    · exact lookup_cons name v _ m
    · split
      · rename_i hn
        subst hn
        simp only [lookup_cons]
        split <;> rfl
      · rename_i hn
        simp only [lookup_cons, ih]
        by_cases hm : m = n
        · subst hm
          rw [if_pos rfl, if_pos rfl, if_neg (Ne.symm hn)]
        · rw [if_neg hm, if_neg hm]

theorem lookup_foldl_insert (ms sofar : List (String × Json)) (name : String) :
    (ms.foldl (fun sofar m => insert m.1 m.2 sofar) sofar).lookup name =
      (ms.reverse.lookup name).or (sofar.lookup name) := by
  induction ms generalizing sofar with
  | nil => rfl
  | cons m ms ih =>
    rw [List.foldl_cons, ih, List.reverse_cons, List.lookup_append, lookup_insert, Option.or_assoc]
    rw [lookup_cons]
    split <;> rfl

theorem sortedMembers_eq (ms : List (String × Json)) :
    sortedMembers ms = ms.map fun m => (m.1, m.2.sorted) := by
  induction ms with
  | nil => rfl
  | cons m ms ih => simp only [sortedMembers, ih, List.map_cons]

theorem sortedItems_eq (js : List Json) : sortedItems js = js.map sorted := by
  induction js with
  | nil => rfl
  | cons j js ih => simp only [sortedItems, ih, List.map_cons]

theorem lookup_map_snd {f : Json → Json} (ms : List (String × Json)) (name : String) :
    (ms.map fun m => (m.1, f m.2)).lookup name = (ms.lookup name).map f := by
  induction ms with
  | nil => rfl
  | cons m ms ih =>
    obtain ⟨n, v⟩ := m
    simp only [List.map_cons, lookup_cons, ih]
    split <;> rfl

/-- A sorted object has the last member of each name. -/
theorem member?_sorted (ms : List (String × Json)) (name : String) :
    (sorted (.object ms)).member? name = (ms.reverse.lookup name).map sorted := by
  simp only [sorted, ofMembers, member?, lookup_foldl_insert, sortedMembers_eq, ← List.map_reverse,
    lookup_map_snd, List.lookup_nil, Option.or_none]

/-! ## Depths -/

theorem depth_mem {js : List Json} {j : Json} (hj : j ∈ js) : j.depth < (Json.array js).depth := by
  have hle : j.depth ≤ depthItems js := by
    induction js with
    | nil => cases hj
    | cons k ks ih =>
      simp only [depthItems]
      rcases List.mem_cons.mp hj with rfl | hj
      · exact Nat.le_max_left ..
      · exact Nat.le_trans (ih hj) (Nat.le_max_right ..)
  simp only [depth]
  omega

theorem depth_member {name : String} {j k : Json} (h : j.member? name = some k) :
    k.depth < j.depth := by
  cases j with
  | object ms =>
    have hle : k.depth ≤ depthMembers ms := by
      simp only [member?] at h
      induction ms with
      | nil => cases h
      | cons m ms ih =>
        obtain ⟨n, v⟩ := m
        simp only [depthMembers]
        rw [lookup_cons] at h
        split at h
        · cases h
          exact Nat.le_max_left ..
        · exact Nat.le_trans (ih h) (Nat.le_max_right ..)
    simp only [depth]
    omega
  | _ => cases h

end Fermata.Json
