import Fermata.Json.Basic
import Fermata.Number.Binary
import Fermata.Text.Encoding
import Fermata.Text.Character

/-!
# Reading JSON text

`Json.parse` reads one tree from a text, with at most 127 arrays and objects open at a time. A text
that is no JSON is refused with a `Failure`: a cause and the line and column, in bytes, that it
points at. Some causes point just behind the last byte read, others (found by looking ahead) at the
offending byte itself.

A number is an integer if it has neither point nor exponent and fits 64 bits. Otherwise its first
digits, as many as fit 64 bits, are scaled by one multiplication or division with a power of ten;
the result can be a last place off the nearest double.
-/

namespace Fermata.Json

/-- Why a text was refused. -/
inductive Cause where
  | eofInValue | eofInList | eofInObject | eofInString
  | expectedValue | expectedIdent | keyNotString
  | expectedColon | expectedListComma | expectedObjectComma
  | trailingComma | trailingCharacters
  | invalidNumber | numberOutOfRange
  | invalidEscape | endOfHexEscape | loneSurrogate | controlCharacter
  | recursionLimit
deriving DecidableEq, Repr, Inhabited

/-- The wording of a cause. -/
def Cause.message : Cause → String
  | .eofInValue => "EOF while parsing a value"
  | .eofInList => "EOF while parsing a list"
  | .eofInObject => "EOF while parsing an object"
  | .eofInString => "EOF while parsing a string"
  | .expectedValue => "expected value"
  | .expectedIdent => "expected ident"
  | .keyNotString => "key must be a string"
  | .expectedColon => "expected `:`"
  | .expectedListComma => "expected `,` or `]`"
  | .expectedObjectComma => "expected `,` or `\x7d`"
  | .trailingComma => "trailing comma"
  | .trailingCharacters => "trailing characters"
  | .invalidNumber => "invalid number"
  | .numberOutOfRange => "number out of range"
  | .invalidEscape => "invalid escape"
  | .endOfHexEscape => "unexpected end of hex escape"
  | .loneSurrogate => "lone leading surrogate in hex escape"
  | .controlCharacter => "control character (\\u0000-\\u001F) found while parsing a string"
  | .recursionLimit => "recursion limit exceeded"

/-- A refusal. -/
structure Failure where
  cause : Cause
  line : Nat
  column : Nat
deriving DecidableEq, Repr, Inhabited

/-- The wording of a refusal. -/
def Failure.message (f : Failure) : String :=
  f.cause.message ++ " at line " ++ toString f.line ++ " column " ++ toString f.column

/-- What is still to be read, and how far reading came: the line from 1 and the bytes on it. -/
structure Input where
  rest : List Char
  line : Nat := 1
  column : Nat := 0

/-- Result of reading a piece. -/
abbrev Read (α : Type) := Except Failure (α × Input)

namespace Input

/-- Pass one character. -/
def pass (i : Input) (c : Char) (rest : List Char) : Input :=
  if c = '\n' then ⟨rest, i.line + 1, 0⟩ else ⟨rest, i.line, i.column + c.utf8Size⟩

/-- A failure just behind what was read. -/
def behind (i : Input) (cause : Cause) : Failure := ⟨cause, i.line, i.column⟩

/-- A failure at the next byte, or at the end of the text. -/
def ahead (i : Input) (cause : Cause) : Failure :=
  match i.rest with
  | [] => ⟨cause, i.line, i.column⟩
  | c :: _ => if c = '\n' then ⟨cause, i.line + 1, 0⟩ else ⟨cause, i.line, i.column + 1⟩

/-- The blanks of JSON. -/
def isBlank (c : Char) : Bool := c = ' ' || c = '\n' || c = '\t' || c = '\r'

/-- Pass blanks. -/
def skipBlanks (i : Input) : Input :=
  go i.rest i
where
  /-- Pass blanks of the given rest. -/
  go : List Char → Input → Input
    | c :: cs, i => if isBlank c then go cs (i.pass c cs) else i
    | [], i => i

/-- Pass digits. -/
def takeDigits (i : Input) : List Char × Input :=
  let (ds, rest) := i.rest.span Text.isDigit
  (ds, ⟨rest, i.line, i.column + ds.length⟩)

end Input

/-! ## Strings -/

/-- The value of four hexadecimal digits. -/
def hexValue? (digits : List Char) : Option Nat :=
  digits.foldlM (fun n c => (Text.digitIn? 16 c).map (16 * n + ·)) 0

/-- The first characters of a text that fill `count` bytes, the last one perhaps only in part, with
the bytes that they fill. -/
def takeBytes : Nat → List Char → List Char × Nat
  | 0, _ => ([], 0)
  | _, [] => ([], 0)
  | n + 1, c :: cs =>
    let size := min c.utf8Size (n + 1)
    let (taken, bytes) := takeBytes (n + 1 - c.utf8Size) cs
    (c :: taken, size + bytes)
termination_by _ text => text.length

/-- The place after some bytes that hold no whole character beyond them. -/
def Input.behindBytes (i : Input) (taken : List Char) (bytes : Nat) (cause : Cause) : Failure :=
  let whole := taken.dropLast
  let after := whole.foldl (fun (i : Input) c => i.pass c []) i
  match taken.getLast? with
  | some '\n' => ⟨cause, after.line + 1, 0⟩
  | some _ => ⟨cause, after.line, after.column + (bytes - Text.byteLength whole)⟩
  | none => ⟨cause, i.line, i.column⟩

/-- Four hexadecimal digits. -/
def readHex (i : Input) : Read Nat :=
  let (taken, bytes) := takeBytes 4 i.rest
  if bytes < 4 then .error (i.behindBytes taken bytes .eofInString)
  else
    match i.rest with
    | a :: b :: c :: d :: rest =>
      match hexValue? [a, b, c, d] with
      | some n => .ok (n, ⟨rest, i.line, i.column + 4⟩)
      | none => .error (i.behindBytes taken bytes .invalidEscape)
    | _ => .error (i.behindBytes taken bytes .invalidEscape)

/-- Pass one expected character of a surrogate pair. -/
def expectInPair (expected : Char) (i : Input) : Except Failure Input :=
  match i.rest with
  | [] => .error (i.behind .eofInString)
  | c :: rest =>
    if c = expected then .ok (i.pass c rest)
    else .error (i.ahead .endOfHexEscape)

/-- The character of a `\u` escape; a pair of surrogates is one character. -/
def readUnicode (i : Input) : Except Failure (Char × Input) := do
  let (n, i) ← readHex i
  if 0xDC00 ≤ n ∧ n ≤ 0xDFFF then throw (i.behind .loneSurrogate)
  if n < 0xD800 ∨ n > 0xDBFF then return (Char.ofNat n, i)
  let i ← expectInPair '\\' i
  let i ← expectInPair 'u' i
  let (m, i) ← readHex i
  if m < 0xDC00 ∨ m > 0xDFFF then throw (i.behind .loneSurrogate)
  return (Char.ofNat ((n - 0xD800) * 1024 + (m - 0xDC00) + 0x10000), i)

/-- The character of a single-letter escape. -/
def simpleEscape? (c : Char) : Option Char :=
  if c = '"' ∨ c = '\\' ∨ c = '/' then some c
  else if c = 'b' then some (Char.ofNat 8)
  else if c = 'f' then some (Char.ofNat 12)
  else if c = 'n' then some '\n'
  else if c = 'r' then some '\r'
  else if c = 't' then some '\t'
  else none

/-- What follows the opening quote; `text` is read so far, in reverse. -/
def readString : Nat → List Char → Input → Read String
  | 0, _, i => .error (i.behind .eofInString)
  | fuel + 1, text, i =>
    match i.rest with
    | [] => .error (i.behind .eofInString)
    | c :: rest =>
      let next := i.pass c rest
      if c = '"' then .ok (String.ofList text.reverse, next)
      else if c = '\\' then
        match rest with
        | [] => .error (next.behind .eofInString)
        | e :: rest =>
          if e = 'u' then
            match readUnicode (next.pass e rest) with
            | .ok (u, i) => readString fuel (u :: text) i
            | .error f => .error f
          else
            match simpleEscape? e with
            | some u => readString fuel (u :: text) (next.pass e rest)
            | none => .error (next.ahead .invalidEscape)
      else if c.toNat < 0x20 then .error (next.behind .controlCharacter)
      else readString fuel (c :: text) next

/-! ## Numbers -/

/-- The greatest power of ten that is a double. -/
def greatestPower : Nat := 308

/-- `significand · 10^exponent` by multiplications and divisions of doubles. -/
def scale (i : Input) (significand : Nat) (exponent : Int) : Except Failure Float :=
  go 16 (Number.ofNat significand) exponent
where
  /-- Divide by the greatest power while the exponent lies below it. -/
  go : Nat → Float → Int → Except Failure Float
    | 0, x, _ => .ok x
    | fuel + 1, x, exponent =>
      if exponent.natAbs ≤ greatestPower then
        let power := Number.ofDecimal false 1 exponent.natAbs
        if exponent ≥ 0 then
          let y := x * power
          if y.isInf then .error (i.behind .numberOutOfRange) else .ok y
        else .ok (x / power)
      else if x == 0 then .ok x
      else if exponent ≥ 0 then .error (i.behind .numberOutOfRange)
      else go fuel (x / Number.ofDecimal false 1 greatestPower) (exponent + greatestPower)

/-- The greatest significand, all 64 bits set. -/
def greatestSignificand : Nat := 0xFFFFFFFFFFFFFFFF

/-- Take digits into a significand as long as it fits 64 bits: the significand, how many digits
were taken, and the digits left. -/
def fillSignificand : List Char → Nat → Nat → Nat × Nat × List Char
  | [], n, count => (n, count, [])
  | d :: ds, n, count =>
    let n' := 10 * n + (d.toNat - '0'.toNat)
    if n' > greatestSignificand then (n, count, d :: ds) else fillSignificand ds n' (count + 1)

/-- The magnitude of the least integer of 64 bits. -/
def leastIntegerAbs : Nat := 0x8000000000000000

/-- A double with its sign. -/
def signedDouble (negative : Bool) (x : Float) : JsonNumber :=
  .double (if negative then -x else x)

/-- Finish a number without exponent. -/
def finishDouble (negative : Bool) (significand : Nat) (exponent : Int) (i : Input) :
    Read JsonNumber :=
  (scale i significand exponent).map fun x => (signedDouble negative x, i)

/-- Exponents beyond this are not computed. -/
def greatestExponentDigits : Nat := 0x7FFFFFFF

/-- An exponent that cannot be held: zero, or out of range. -/
def hugeExponent (negative down zero : Bool) (i : Input) (digits : List Char) :
    Read JsonNumber :=
  -- the failure points behind the digit that did not fit
  let fits := (digits.foldl (fun (acc : Nat × Nat) d =>
    let n := 10 * acc.1 + (d.toNat - '0'.toNat)
    if acc.1 > greatestExponentDigits then acc else (n, acc.2 + 1)) (0, 0)).2
  if !zero && !down then
    .error ⟨.numberOutOfRange, i.line, i.column - digits.length + fits⟩
  else .ok (signedDouble negative (Number.ofNat 0), i)

/-- The exponent behind `e`, and with it the number. -/
def readExponent (negative : Bool) (significand : Nat) (exponent : Int) (i : Input) :
    Read JsonNumber :=
  let (down, i) := match i.rest with
    | '+' :: rest => (false, i.pass '+' rest)
    | '-' :: rest => (true, i.pass '-' rest)
    | _ => (false, i)
  match i.rest with
  | [] => .error (i.behind .eofInValue)
  | c :: _ =>
    if Text.isDigit c then
      let (ds, i) := i.takeDigits
      let n := Text.decimalValue ds
      if n > greatestExponentDigits then hugeExponent negative down (significand = 0) i ds
      else finishDouble negative significand (if down then exponent - n else exponent + n) i
    else .error (i.ahead .invalidNumber)

/-- Go on behind the digits of a number that is a double: maybe an exponent follows. -/
def afterDigits (negative : Bool) (significand : Nat) (exponent : Int) (i : Input) :
    Read JsonNumber :=
  match i.rest with
  | c :: rest =>
    if c = 'e' ∨ c = 'E' then readExponent negative significand exponent (i.pass c rest)
    else finishDouble negative significand exponent i
  | [] => finishDouble negative significand exponent i

/-- The digits behind the point. -/
def readFraction (negative : Bool) (significand : Nat) (exponent : Int) (i : Input) :
    Read JsonNumber :=
  let (ds, after) := i.takeDigits
  match ds with
  | [] => .error (i.ahead (if i.rest.isEmpty then .eofInValue else .invalidNumber))
  | _ =>
    let (n, count, _) := fillSignificand ds significand 0
    afterDigits negative n (exponent - count) after

/-- An integer part that ended: what follows it decides what it is. -/
def afterWhole (negative : Bool) (digits : List Char) (i : Input) : Read JsonNumber :=
  let (n, _, left) := fillSignificand digits 0 0
  match i.rest with
  | '.' :: rest => readFraction negative n left.length (i.pass '.' rest)
  | c :: _ =>
    if c = 'e' ∨ c = 'E' then afterDigits negative n left.length i else whole n left
  | [] => whole n left
where
  /-- A number of digits alone. -/
  whole (n : Nat) (left : List Char) : Read JsonNumber :=
    if !left.isEmpty then finishDouble negative n left.length i
    else if !negative then .ok (.integer n, i)
    else if n = 0 ∨ n > leastIntegerAbs then .ok (.double (-(Number.ofNat n)), i)
    else .ok (.integer (-(n : Int)), i)

/-- A number, its sign already passed. -/
def readNumber (negative : Bool) (i : Input) : Read JsonNumber :=
  match i.rest with
  | [] => .error (i.behind .eofInValue)
  | '0' :: rest =>
    let next := i.pass '0' rest
    match rest with
    | c :: _ =>
      if Text.isDigit c then .error (next.ahead .invalidNumber) else afterWhole negative ['0'] next
    | [] => afterWhole negative ['0'] next
  | c :: _ =>
    if Text.isDigit c then
      let (ds, i) := i.takeDigits
      afterWhole negative ds i
    else .error (i.ahead .invalidNumber)

/-! ## Trees -/

/-- The rest of a word such as `true`. -/
def readWord : List Char → Input → Except Failure Input
  | [], i => .ok i
  | w :: ws, i =>
    match i.rest with
    | [] => .error (i.behind .eofInValue)
    | c :: rest => if c = w then readWord ws (i.pass c rest) else .error (i.ahead .expectedIdent)

mutual

/-- One tree, `depth` levels still allowed. -/
def readValue : Nat → Nat → Input → Read Json
  | 0, _, i => .error (i.behind .eofInValue)
  | fuel + 1, depth, i =>
    let i := i.skipBlanks
    match i.rest with
    | [] => .error (i.ahead .eofInValue)
    | c :: rest =>
      let next := i.pass c rest
      if c = 'n' then (readWord "ull".toList next).map (Json.null, ·)
      else if c = 't' then (readWord "rue".toList next).map (Json.bool true, ·)
      else if c = 'f' then (readWord "alse".toList next).map (Json.bool false, ·)
      else if c = '-' then (readNumber true next).map fun (n, i) => (Json.number n, i)
      else if Text.isDigit c then (readNumber false i).map fun (n, i) => (Json.number n, i)
      else if c = '"' then
        (readString fuel [] next).map fun (s, i) => (Json.string s, i)
      else if c = '[' then
        if depth ≤ 1 then .error (i.ahead .recursionLimit)
        else (readItems fuel (depth - 1) true next).map fun (xs, i) => (Json.array xs, i)
      else if c = '\x7b' then
        if depth ≤ 1 then .error (i.ahead .recursionLimit)
        else (readMembers fuel (depth - 1) true next).map fun (ms, i) => (Json.ofMembers ms, i)
      else .error (i.ahead .expectedValue)

/-- The items of an array up to its bracket; a comma stands before each but the first. -/
def readItems : Nat → Nat → Bool → Input → Read (List Json)
  | 0, _, _, i => .error (i.behind .eofInList)
  | fuel + 1, depth, first, i =>
    let i := i.skipBlanks
    match i.rest with
    | [] => .error (i.ahead .eofInList)
    | c :: rest =>
      if c = ']' then .ok ([], i.pass c rest)
      else
        let start : Except Failure Input :=
          if first then .ok i
          else if c = ',' then
            let after := (i.pass c rest).skipBlanks
            match after.rest with
            | [] => .error (after.ahead .eofInValue)
            | d :: _ => if d = ']' then .error (after.ahead .trailingComma) else .ok after
          else .error (i.ahead .expectedListComma)
        match start with
        | .error f => .error f
        | .ok i =>
          match readValue fuel depth i with
          | .error f => .error f
          | .ok (x, i) => (readItems fuel depth false i).map fun (xs, i) => (x :: xs, i)

/-- The members of an object up to its brace. -/
def readMembers : Nat → Nat → Bool → Input → Read (List (String × Json))
  | 0, _, _, i => .error (i.behind .eofInObject)
  | fuel + 1, depth, first, i =>
    let i := i.skipBlanks
    match i.rest with
    | [] => .error (i.ahead .eofInObject)
    | c :: rest =>
      if c = '\x7d' then .ok ([], i.pass c rest)
      else
        let start : Except Failure Input :=
          if first then .ok i
          else if c = ',' then .ok (i.pass c rest).skipBlanks
          else .error (i.ahead .expectedObjectComma)
        match start with
        | .error f => .error f
        | .ok i =>
          match i.rest with
          | [] => .error (i.ahead .eofInValue)
          | q :: rest =>
            if q = '"' then
              match readString fuel [] (i.pass q rest) with
              | .error f => .error f
              | .ok (name, i) =>
                let i := i.skipBlanks
                match i.rest with
                | [] => .error (i.ahead .eofInObject)
                | d :: rest =>
                  if d = ':' then
                    match readValue fuel depth (i.pass d rest) with
                    | .error f => .error f
                    | .ok (v, i) =>
                      (readMembers fuel depth false i).map fun (ms, i) => ((name, v) :: ms, i)
                  else .error (i.ahead .expectedColon)
            else if q = '\x7d' then .error (i.ahead .trailingComma)
            else .error (i.ahead .keyNotString)

end

/-- How many arrays and objects may be open, and one more. -/
def depthLimit : Nat := 128

/-- Read one tree from a text and nothing else, below a limit of open arrays and objects. -/
def parseWithin (limit : Nat) (text : String) : Except Failure Json :=
  let chars := text.toList
  match readValue (2 * chars.length + 2) limit ⟨chars, 1, 0⟩ with
  | .error f => .error f
  | .ok (j, i) =>
    let i := i.skipBlanks
    if i.rest.isEmpty then .ok j else .error (i.ahead .trailingCharacters)

/-- Read one tree from a text and nothing else. -/
def parse (text : String) : Except Failure Json := parseWithin depthLimit text

end Fermata.Json
