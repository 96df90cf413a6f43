import Fermata.Settings.Value
import Fermata.Syntax.Matcher
import Fermata.Text.Alphanumeric
import Fermata.Text.Character

/-!
# JSON5 files

JSON with comments, trailing commas, keys that need no quotes, texts in quotes of either kind, and
more ways to write numbers. `Json5.parse` gives the value of a file. A text that does not match is
reported by the furthest place that was tried.
-/

namespace Fermata.Json5

open Matcher

/-! ## Blanks -/

/-- A line end. -/
def endsLine (c : Char) : Bool := c = '\n' || c = '\r' || c = '\u2028' || c = '\u2029'

/-- A blank: those of Unicode but for one, and the byte order mark. -/
def isBlank (c : Char) : Bool := (Text.isBlank c && c ≠ '\u0085') || c = '\uFEFF'

/-- What follows a comment over lines. -/
def afterComment? : List Char → Option (List Char)
  | '*' :: '/' :: rest => some rest
  | _ :: rest => afterComment? rest
  | [] => none

/-- What follows blanks and comments. -/
def afterBlanks : Nat → List Char → List Char
  | 0, text => text
  | fuel + 1, text =>
    match text with
    | '/' :: '/' :: rest => afterBlanks fuel (rest.dropWhile (!endsLine ·))
    | '/' :: '*' :: rest =>
      match afterComment? rest with
      | some rest => afterBlanks fuel rest
      | none => text
    | c :: rest => if isBlank c then afterBlanks fuel rest else text
    | [] => []

/-- Pass some characters. -/
def passing (n : Nat) (c : Cursor) : Cursor := c.passText (c.rest.take n) (c.rest.drop n)

/-- Pass blanks and comments. -/
def skip (c : Cursor) : Cursor :=
  passing (c.rest.length - (afterBlanks (c.rest.length + 1) c.rest).length) c

/-- `p` behind blanks. -/
def spaced {α : Type} (p : Matcher α) : Matcher α := fun c => p (skip c)

/-- `p`, blanks and `q`. -/
def followed {α β : Type} (p : Matcher α) (q : α → Matcher β) : Matcher β :=
  p.tight fun a => spaced (q a)

/-- `p` behind blanks, as often as it matches. -/
def repeated {α : Type} (p : Matcher α) : Nat → Matcher (List α)
  | 0 => succeed []
  | fuel + 1 => fun c =>
    match spaced p c with
    | ⟨reach, none⟩ => ⟨reach, some ([], c)⟩
    | ⟨reach, some (a, c')⟩ => ((repeated p fuel).map (a :: ·) c').widen reach

/-! ## Texts -/

/-- Part of a text: a character, or a unit of UTF-16. -/
inductive Part where
  | char (c : Char)
  | unit (n : Nat)
deriving DecidableEq, Repr

/-- The character of parts that form a pair of units. -/
def paired (lead trail : Nat) : Char :=
  Char.ofNat ((lead - 0xD800) * 0x400 + (trail - 0xDC00) + 0x10000)

/-- The text of parts; units come in pairs or are characters. -/
def textOf : List Part → Except String (List Char)
  | [] => .ok []
  | .char c :: rest => (c :: ·) <$> textOf rest
  | [.unit n] =>
    if 0xDC00 ≤ n ∧ n ≤ 0xDFFF then .error "unexpected unicode trail surrogate"
    else if 0xD800 ≤ n ∧ n ≤ 0xDBFF then .error "unexpected unicode lead surrogate"
    else .ok [Char.ofNat n]
  | .unit n :: next :: rest =>
    if 0xDC00 ≤ n ∧ n ≤ 0xDFFF then .error "unexpected unicode trail surrogate"
    else if 0xD800 ≤ n ∧ n ≤ 0xDBFF then
      match next with
      | .unit m =>
        if 0xDC00 ≤ m ∧ m ≤ 0xDFFF then (paired n m :: ·) <$> textOf rest
        else .error "unexpected unicode lead surrogate"
      | .char _ => .error "unexpected unicode lead surrogate"
    else (Char.ofNat n :: ·) <$> textOf (next :: rest)

/-- Letters of escapes, and what they stand for. -/
def escapes : List (Char × Char) :=
  [('b', '\x08'), ('f', '\x0c'), ('n', '\n'), ('r', '\r'), ('t', '\t'), ('v', '\x0b')]

/-- The number of so many hexadecimal digits at the front. -/
def hex? (digits : Nat) (text : List Char) : Option Nat :=
  if (text.take digits).length = digits then Text.valueIn? 16 (text.take digits) else none

/-- Hexadecimal digits of an escape; if they are missing, the place is remembered. -/
def hexEscape (digits : Nat) (f : Nat → Part) : Matcher (List Part) := fun c =>
  match hex? digits c.rest with
  | some n => ⟨{}, some ([f n], passing digits c)⟩
  | none => ⟨c.pos, none⟩

/-- An escape, behind its backslash. -/
def escape : Matcher (List Part) := fun c =>
  match c.rest with
  | '\r' :: '\n' :: _ => ⟨c.pos, some ([], passing 2 c)⟩
  | 'x' :: _ => (hexEscape 2 (.char <| Char.ofNat ·) (passing 1 c)).widen c.pos
  | 'u' :: _ => (hexEscape 4 .unit (passing 1 c)).widen c.pos
  | e :: _ =>
    if endsLine e then ⟨c.pos, some ([], passing 1 c)⟩
    else if e = '0' then ⟨c.pos, some ([.char '\x00'], passing 1 c)⟩
    else if Text.isDigit e then ⟨c.pos, none⟩
    else ⟨{}, some ([.char ((escapes.lookup e).getD e)], passing 1 c)⟩
  | [] => ⟨c.pos, none⟩

/-- One part of a text in quotes. -/
def part (quote : Char) : Matcher (List Part) := fun c =>
  match c.rest with
  | '\\' :: _ => escape (passing 1 c)
  | e :: _ =>
    if e = quote then ⟨{}, none⟩
    else if endsLine e then ⟨c.pos, none⟩
    else ⟨{}, some ([.char e], passing 1 c)⟩
  | [] => ⟨c.pos, none⟩

/-- Parts of a text, as many as there are. -/
def parts (quote : Char) : Nat → Matcher (List Part)
  | 0 => succeed []
  | fuel + 1 => fun c =>
    match part quote c with
    | ⟨reach, none⟩ => ⟨reach, some ([], c)⟩
    | ⟨reach, some (ps, c')⟩ => ((parts quote fuel).map (ps ++ ·) c').widen reach

/-- A text in quotes of one kind. -/
def quotedBy (quote : Char) : Matcher (List Part) := fun c =>
  ((text [quote]).tight fun _ => (parts quote (c.rest.length + 1)).tight fun ps =>
    (text [quote]).map fun _ => ps) c

/-- A text in quotes. -/
def string : Matcher (Except String String) :=
  rule ((quotedBy '\'').or (quotedBy '"')) fun _ ps => String.ofList <$> textOf ps

/-! ## Keys -/

/-- A character that a name starts with. -/
def isNameStart (c : Char) : Bool :=
  Text.isNameStart c || (c.toNat ≥ 0x80 && Text.isAlphanumeric c)

/-- A character that a name goes on with. -/
def isNamePart (c : Char) : Bool :=
  isNameStart c || Text.isDigit c || Text.isAlphanumeric c || c = '\u200C' || c = '\u200D'

/-- One character of a name. -/
def nameChar (p : Char → Bool) : Matcher (List Part) := fun c =>
  match c.rest with
  | '\\' :: 'u' :: _ => hexEscape 4 .unit (passing 2 c)
  | e :: _ => if p e then ⟨{}, some ([.char e], passing 1 c)⟩ else ⟨{}, none⟩
  | [] => ⟨{}, none⟩

/-- The rest of a name. -/
def nameRest : Nat → Matcher (List Part)
  | 0 => succeed []
  | fuel + 1 => fun c =>
    match nameChar isNamePart c with
    | ⟨reach, none⟩ => ⟨reach, some ([], c)⟩
    | ⟨reach, some (ps, c')⟩ => ((nameRest fuel).map (ps ++ ·) c').widen reach

/-- A name. -/
def name : Matcher (Except String String) := rule
  (fun c => ((nameChar isNameStart).tight fun p =>
    (nameRest (c.rest.length + 1)).map fun ps => p ++ ps) c)
  fun _ ps => String.ofList <$> textOf ps

/-! ## Numbers -/

/-- The length of digits at the front. -/
def digitCount (text : List Char) : Nat := (text.takeWhile Text.isDigit).length

/-- The length of an exponent at the front. -/
def exponentLength : List Char → Nat
  | e :: rest =>
    if e = 'e' ∨ e = 'E' then
      let sign := match rest with
        | '+' :: _ => 1
        | '-' :: _ => 1
        | _ => 0
      match digitCount (rest.drop sign) with
      | 0 => 0
      | n => 1 + sign + n
    else 0
  | [] => 0

/-- The length of a number without sign at the front. -/
def numeralLength? (t : List Char) : Option Nat :=
  let hex := match t with
    | '0' :: x :: rest =>
      if x = 'x' ∨ x = 'X' then (rest.takeWhile fun c => (Text.digitIn? 16 c).isSome).length else 0
    | _ => 0
  let whole := if t.head? = some '0' then 1 else digitCount t
  if 0 < hex then some (hex + 2)
  else if 0 < whole then
    match t.drop whole with
    | '.' :: rest =>
      let n := digitCount rest
      some (whole + 1 + n + exponentLength (rest.drop n))
    | rest => some (whole + exponentLength rest)
  else
    match t with
    | '.' :: rest =>
      let n := digitCount rest
      if 0 < n then some (1 + n + exponentLength (rest.drop n)) else none
    | _ =>
      if "Infinity".toList.isPrefixOf t then some 8
      else if "NaN".toList.isPrefixOf t then some 3
      else none

/-- A number, not yet converted. -/
def numeral : Matcher (List Char) := fun c =>
  let sign := match c.rest with
    | '+' :: _ => 1
    | '-' :: _ => 1
    | _ => 0
  match numeralLength? (c.rest.drop sign) with
  | some n => ⟨{}, some (c.rest.take (sign + n), passing (sign + n) c)⟩
  | none => ⟨{}, none⟩

/-- A number in base 16 behind its mark. -/
def hexDigits? : List Char → Option (List Char)
  | '0' :: 'x' :: ds => some ds
  | '0' :: 'X' :: ds => some ds
  | _ => none

/-- The value of a number. A name with a plus sign, and base 16 with any sign, have none. -/
def numberValue (text : List Char) : Except String Setting :=
  let word := String.ofList text
  if word = "Infinity" then .ok (.float (Number.infinity false))
  else if word = "-Infinity" then .ok (.float (Number.infinity true))
  else if word = "NaN" ∨ word = "-NaN" then .ok (.float Number.nan)
  else
    match hexDigits? text with
    | some ds =>
      match (Text.valueIn? 16 ds).filter (· ≤ 0xFFFFFFFF) with
      | some n => .ok (.integer n)
      | none => .error "error parsing hex"
    | none =>
      if text.any fun c => c = '.' || c = 'e' || c = 'E' then
        match Number.decimal? text with
        | some x => .ok (.float x)
        | none => .error "error parsing number"
      else
        match Setting.word64? word with
        | some n => .ok (.integer n)
        | none => .error "error parsing integer"

/-! ## Values -/

/-- One word. -/
def word (w : String) (s : Setting) : Matcher (Except String Setting) :=
  rule (text w.toList) fun _ _ => .ok s

/-- A truth value. -/
def truth : Matcher (Except String Setting) :=
  rule (firstOf [(text "true".toList).map fun _ => true, (text "false".toList).map fun _ => false])
    fun _ b => .ok (.bool b)

/-- A member of an object. -/
def member (value : Matcher (Except String Setting)) :
    Matcher (Except String (String × Setting)) :=
  followed (name.or string) fun k =>
    followed (text [':']) fun _ => value.map fun v => return (← k, ← v)

/-- Items between brackets; a comma can follow the last one. -/
def items {α : Type} (opening closing : Char) (item : Matcher (Except String α)) (fuel : Nat) :
    Matcher (Except String (List α)) :=
  let empty : Matcher (Except String (List α)) :=
    followed (text [opening]) fun _ => (text [closing]).map fun _ => .ok []
  let filled : Matcher (Except String (List α)) :=
    followed (text [opening]) fun _ => item.tight fun first =>
      (repeated (followed (text [',']) fun _ => item) fuel).tight fun more =>
        (optional (spaced (text [',']))).tight fun _ => spaced <| (text [closing]).map fun _ =>
          (first :: more).mapM id
  empty.or filled

/-- The members of an object, the last one of a name counting. -/
def tableOf (members : List (String × Setting)) : Setting :=
  .table (members.foldl (fun ms (k, v) => ms.filter (·.1 != k) ++ [(k, v)]) [])

/-- A value. -/
def value : Nat → Matcher (Except String Setting)
  | 0, c => fail c
  | fuel + 1, c => firstOf
    [word "null" .nil,
     truth,
     string.map (Setting.text <$> ·),
     rule numeral fun _ => numberValue,
     rule (items '\x7b' '\x7d' (member (value fuel)) fuel) fun _ r => tableOf <$> r,
     rule (items '[' ']' (value fuel) fuel) fun _ r => Setting.list <$> r] c

/-- The end of the text. -/
def ending : Matcher Unit := rule (fun c => ⟨{}, if c.rest.isEmpty then some ((), c) else none⟩)
  fun _ _ => ()

/-- The value of a file. -/
def parse (text : String) : Except String Setting :=
  let cs := text.toList
  let all := spaced (followed (value (cs.length + 1)) fun v => ending.map fun _ => v)
  match all { rest := cs } with
  | ⟨_, some (v, _)⟩ => v
  | ⟨reach, none⟩ =>
    .error (" --> " ++ toString (reach.line + 1) ++ ":" ++ toString (reach.column + 1))

end Fermata.Json5
