import Fermata.Syntax.Matcher
import Fermata.Text.Character

/-!
# Lexemes

A `Lexeme` recognises one token at the front of a text. No trivia stands inside a token, and a token
fails as a whole: the mark it leaves is at its own start.

* A word is the longest run of name characters. A `keyword` is a word from a fixed list; an
  `identifier` is any other word; a property name is any `word`.
* An `operator` is a piece of text that certain characters must not follow, so that no operator is
  read out of a longer one.
* A `number` is `decimal`, or `hexadecimal` behind `0x`; a `string` stands in quotes of either kind.
* `Matcher.token` and `Matcher.silent` make matchers of lexemes; what is silent is never expected.
-/

namespace Fermata

/-- A recogniser of a token: the token and what follows it. -/
abbrev Lexeme := List Char → Option (List Char × List Char)

namespace Lexeme

open Fermata.Text

/-- The words that are no identifiers. -/
def keywords : List String :=
  ["instanceof", "in", "var", "let", "const", "function", "if", "else", "while", "do", "for",
   "return", "break", "continue", "throw", "try", "catch", "finally", "new", "this", "typeof",
   "void", "delete", "true", "false", "null"]

/-- A word is a keyword. -/
def isKeyword (word : List Char) : Bool := keywords.any fun k => k.toList = word

/-- The longest word. -/
def word : Lexeme
  | c :: cs => if isNameStart c then some ((c :: cs).span isNamePart) else none
  | [] => none

/-- One word and no other. -/
def keyword (k : String) : Lexeme := fun text =>
  match word text with
  | some (w, rest) => if w = k.toList then some (w, rest) else none
  | none => none

/-- A word that is no keyword. -/
def identifier : Lexeme := fun text =>
  match word text with
  | some (w, rest) => if isKeyword w then none else some (w, rest)
  | none => none

/-- A piece of text that none of the characters `stops` follows. -/
def operator (piece : String) (stops : List Char) : Lexeme := fun text =>
  match Matcher.strip? piece.toList text with
  | some rest =>
    match rest with
    | c :: _ => if stops.contains c then none else some (piece.toList, rest)
    | [] => some (piece.toList, rest)
  | none => none

/-- The first of several lexemes. -/
def firstOf : List Lexeme → Lexeme
  | [], _ => none
  | l :: ls, text =>
    match l text with
    | some r => some r
    | none => firstOf ls text

/-- Hexadecimal digits behind `0x`. -/
def hexadecimal : Lexeme
  | '0' :: x :: cs =>
    if x = 'x' ∨ x = 'X' then
      match cs.span fun c => (digitIn? 16 c).isSome with
      | ([], _) => none
      | (ds, rest) => some ('0' :: x :: ds, rest)
    else none
  | _ => none

/-- The fraction and exponent behind the whole part of a decimal. -/
def exponentPart (taken : List Char) : List Char → List Char × List Char
  | e :: cs =>
    if e = 'e' ∨ e = 'E' then
      let (sign, cs) := match cs with
        | '+' :: r => (['+'], r)
        | '-' :: r => (['-'], r)
        | _ => ([], cs)
      match cs.span isDigit with
      | ([], _) => (taken, e :: (sign ++ cs))
      | (ds, rest) => (taken ++ e :: (sign ++ ds), rest)
    else (taken, e :: cs)
  | [] => (taken, [])

/-- Decimal digits with an optional point, and an exponent if it is complete. -/
def decimal : Lexeme := fun text =>
  match text.span isDigit with
  | ([], '.' :: cs) =>
    match cs.span isDigit with
    | ([], _) => none
    | (ds, rest) => some (exponentPart ('.' :: ds) rest)
  | ([], _) => none
  | (whole, '.' :: cs) =>
    let (ds, rest) := cs.span isDigit
    some (exponentPart (whole ++ '.' :: ds) rest)
  | (whole, rest) => some (exponentPart whole rest)

/-- A number. -/
def number : Lexeme := firstOf [hexadecimal, decimal]

/-- The inside of a string and its closing quote; a line feed is allowed only behind a
backslash. -/
def insideString (quote : Char) : List Char → Option (List Char × List Char)
  | [] => none
  | '\\' :: c :: cs => (insideString quote cs).map fun (s, rest) => ('\\' :: c :: s, rest)
  | c :: cs =>
    if c = quote then some ([c], cs)
    else if c = '\n' ∨ c = '\\' then none
    else (insideString quote cs).map fun (s, rest) => (c :: s, rest)

/-- A string in quotes. -/
def string : Lexeme
  | c :: cs =>
    if c = '"' ∨ c = '\'' then (insideString c cs).map fun (s, rest) => (c :: s, rest) else none
  | [] => none

/-- Spaces and tabs, at least one. -/
def inlineBlanks : Lexeme := fun text =>
  match text.span fun c => c = ' ' ∨ c = '\t' with
  | ([], _) => none
  | (bs, rest) => some (bs, rest)

end Lexeme

/-- A token with the place where it stands. -/
structure Token where
  span : Span
  chars : List Char

/-- The text of a token. -/
def Token.text (t : Token) : String := String.ofList t.chars

namespace Matcher

/-- A token, as a named rule. -/
def token (l : Lexeme) : Matcher Token := fun c =>
  match l c.rest with
  | some (text, rest) =>
    let c' := c.passText text rest
    ⟨{}, some (⟨⟨c.pos, c'.pos⟩, text⟩, c')⟩
  | none => ⟨c.pos, none⟩

/-- A token that leaves no mark. -/
def silent (l : Lexeme) : Matcher Unit := fun c =>
  match l c.rest with
  | some (text, rest) => ⟨{}, some ((), c.passText text rest)⟩
  | none => ⟨{}, none⟩

end Matcher

end Fermata
