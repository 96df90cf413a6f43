import Fermata.Settings.Reading
import Fermata.Text.Character

/-!
# Dates and times

A moment is a date, a time of day, or both with perhaps an offset. Its text is always written in one
way: a `T` between date and time, at most nine places of seconds and no zeros at their end.
-/

namespace Fermata

/-- A day. -/
structure Date where
  year : Nat
  month : Nat
  day : Nat
deriving DecidableEq, Repr

/-- A time of day. -/
structure TimeOfDay where
  hour : Nat
  minute : Nat
  second : Nat
  nanosecond : Nat := 0
deriving DecidableEq, Repr

/-- How far a clock is ahead. -/
inductive Offset where
  | zero
  | minutes (ahead : Int)
deriving DecidableEq, Repr

/-- A date, a time of day, or both. -/
structure Moment where
  date : Option Date := none
  time : Option TimeOfDay := none
  offset : Option Offset := none
deriving DecidableEq, Repr

/-- A number in at least so many digits. -/
def padded (width n : Nat) : String :=
  let digits := Nat.toDigits 10 n
  String.ofList (List.replicate (width - digits.length) '0' ++ digits)

/-- The days of a month. -/
def daysOfMonth (year month : Nat) : Nat :=
  if month = 2 then
    if year % 4 = 0 ∧ (year % 100 ≠ 0 ∨ year % 400 = 0) then 29 else 28
  else if [4, 6, 9, 11].contains month then 30
  else 31

/-- The text of a day. -/
def Date.text (d : Date) : String :=
  padded 4 d.year ++ "-" ++ padded 2 d.month ++ "-" ++ padded 2 d.day

/-- The text of a time. -/
def TimeOfDay.text (t : TimeOfDay) : String :=
  padded 2 t.hour ++ ":" ++ padded 2 t.minute ++ ":" ++ padded 2 t.second
    ++ if t.nanosecond = 0 then ""
      else "." ++ String.ofList
        ((padded 9 t.nanosecond).toList.reverse.dropWhile (· = '0')).reverse

/-- The text of an offset. -/
def Offset.text : Offset → String
  | .zero => "Z"
  | .minutes m =>
    (if m < 0 then "-" else "+") ++ padded 2 (m.natAbs / 60) ++ ":" ++ padded 2 (m.natAbs % 60)

/-- The text of a moment. -/
def Moment.text (m : Moment) : String :=
  let time := (m.time.map (·.text)).getD ""
  let offset := (m.offset.map (·.text)).getD ""
  match m.date with
  | some d => d.text ++ (if m.time.isSome then "T" else "") ++ time ++ offset
  | none => time ++ offset

namespace Toml

open Reading Text

/-- Two digits that write a number within bounds. -/
def twoDigits (least greatest : Nat) : Reading Nat :=
  (takeExactly 2 isDigit).checked fun ds =>
    let n := decimalValue ds
    if least ≤ n ∧ n ≤ greatest then .ok n else .error "value is out of range"

/-- A day. -/
def date : Reading Date := do
  let year := decimalValue (← takeExactly 4 isDigit)
  let _ ← char '-'
  let month ← firmly (twoDigits 1 12)
  let _ ← firmly (char '-')
  let day ← firmly (twoDigits 1 (min 31 (daysOfMonth year month)))
  return ⟨year, month, day⟩

/-- Places of seconds, in nanoseconds. -/
def fraction : Reading Nat := do
  let _ ← char '.'
  let places := (← takeSome isDigit).take 9
  return decimalValue (places ++ List.replicate (9 - places.length) '0')

/-- A time of day. -/
def timeOfDay : Reading TimeOfDay := do
  let hour ← twoDigits 0 23
  let _ ← char ':'
  firmly do
    let minute ← twoDigits 0 59
    let _ ← char ':'
    let second ← twoDigits 0 60
    let nanosecond ← attempt? fraction
    return ⟨hour, minute, second, nanosecond.getD 0⟩

/-- An offset. -/
def offset : Reading Offset :=
  (orElse
    (do
      let _ ← charIf fun c => c = 'Z' || c = 'z'
      return .zero)
    (do
      let sign ← charIf fun c => c = '+' || c = '-'
      firmly do
        let hours ← twoDigits 0 23
        let _ ← char ':'
        let minutes ← twoDigits 0 59
        let total : Int := hours * 60 + minutes
        return .minutes (if sign = '-' then -total else total))).about "time offset"

/-- A moment. -/
def moment : Reading Moment :=
  orElse
    ((do
      let d ← date
      let rest ← attempt? do
        let _ ← charIf fun c => c = 'T' || c = 't' || c = ' '
        let t ← timeOfDay
        return (t, ← attempt? offset)
      match rest with
      | some (t, o) => return { date := some d, time := some t, offset := o }
      | none => return { date := some d } : Reading Moment).about "date-time")
    (((fun t => { time := some t }) <$> timeOfDay : Reading Moment).about "time")

end Toml

end Fermata
