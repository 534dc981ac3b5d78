import AmbisonicReverb.Decimal
import AmbisonicReverb.Text.Reader

/-!
# Dates and times

A TOML document gives a date, a time of day, or both, and then possibly the distance from universal
time.
-/

namespace AmbisonicReverb.Toml

open Text

structure Date where
  year : Nat
  month : Nat
  day : Nat
deriving DecidableEq, Repr

structure TimeOfDay where
  hour : Nat
  minute : Nat
  second : Nat
  nanosecond : Nat
deriving DecidableEq, Repr

inductive Moment
  | date (d : Date)
  | time (t : TimeOfDay)
  /-- The offset is in minutes, positive to the east. -/
  | dateTime (d : Date) (t : TimeOfDay) (offset : Option Int)
deriving DecidableEq, Repr

namespace Date

def isLeapYear (year : Nat) : Bool := year % 4 == 0 && (year % 100 != 0 || year % 400 == 0)

def daysInMonth (year month : Nat) : Nat :=
  match month with
  | 2 => if isLeapYear year then 29 else 28
  | 4 | 6 | 9 | 11 => 30
  | _ => 31

def isValid (d : Date) : Bool :=
  1 ≤ d.month && d.month ≤ 12 && 1 ≤ d.day && d.day ≤ daysInMonth d.year d.month

end Date

namespace Moment

def fixedDigits (count : Nat) : Reader Nat :=
  Decimal.ofDigits 10 <$> Reader.exactly count Char.isDigit

/-- Two digits that stand for a number up to `most`. -/
def twoDigits (most : Nat) : Reader Nat := do
  let n ← fixedDigits 2
  if n ≤ most then return n else failure

def fullDate : Reader Date := do
  let year ← fixedDigits 4
  Reader.char '-'
  let month ← fixedDigits 2
  Reader.char '-'
  let day ← fixedDigits 2
  let d : Date := ⟨year, month, day⟩
  if d.isValid then return d else failure

/-- A fraction of a second in whole nanoseconds; further digits are left out. -/
def nanoseconds : Reader Nat := do
  Reader.char '.'
  let digits ← Reader.run1 Char.isDigit
  let shown := digits.take 9
  return Decimal.ofDigits 10 shown * Nat.pow 10 (9 - shown.length)

/-- A time of day. A minute may have a leap second. -/
def timeOfDay : Reader TimeOfDay := do
  let hour ← twoDigits 23
  Reader.char ':'
  let minute ← twoDigits 59
  Reader.char ':'
  let second ← twoDigits 60
  let nanosecond ← nanoseconds <|> pure 0
  return ⟨hour, minute, second, nanosecond⟩

/-- The letter Z, or hours and minutes after a sign. -/
def offset : Reader Int :=
  (do
    let _ ← Reader.one fun c => c == 'Z' || c == 'z'
    return 0) <|>
  (do
    let mark ← Reader.one fun c => c == '+' || c == '-'
    let hours ← twoDigits 23
    Reader.char ':'
    let minutes ← twoDigits 59
    let east : Int := (hours * 60 + minutes : Nat)
    return if mark == '-' then -east else east)

/-- A time of day after a date, and the offset if there is one. -/
def timeAfterDate : Reader (TimeOfDay × Option Int) := do
  let _ ← Reader.one fun c => c == 'T' || c == 't' || c == ' '
  let t ← timeOfDay
  let offset ← some <$> offset <|> pure none
  return (t, offset)

def moment : Reader Moment :=
  (do
    let d ← fullDate
    match ← some <$> timeAfterDate <|> pure none with
    | some (t, offset) => return .dateTime d t offset
    | none => return .date d) <|>
  time <$> timeOfDay

end Moment

end AmbisonicReverb.Toml
