import BraceScript.Toml.Scan
import BraceScript.Value.Shown

/-!
# Dates and times of TOML

A date, a time of day, or both together, then perhaps with the distance from universal time.
They are objects of their own kinds among the values and are shown by the calls that make them.
-/

namespace BraceScript.Toml

/-- A date. -/
structure Date where
  year : Nat
  month : Nat
  day : Nat
deriving DecidableEq, Repr

/-- A time of day. -/
structure Time where
  hour : Nat
  minute : Nat
  second : Nat
  microsecond : Nat
deriving DecidableEq, Repr

/-- A date, a time of day, or both. -/
inductive Moment where
  | date (date : Date)
  /-- A date with a time, and the distance from universal time in minutes if it is given. -/
  | full (date : Date) (time : Time) (offset : Option Int)
  | time (time : Time)
deriving DecidableEq, Repr

/-! ### The calendar -/

/-- The year has 366 days. -/
def isLeapYear (year : Nat) : Bool :=
  year % 4 == 0 && (year % 100 != 0 || year % 400 == 0)

/-- The number of days of a month. -/
def daysOfMonth (year month : Nat) : Nat :=
  if month = 2 then (if isLeapYear year then 29 else 28)
  else if [4, 6, 9, 11].contains month then 30
  else 31

/-- The date is in the calendar, which begins with the year 1. -/
def Date.isValid (date : Date) : Bool :=
  1 ≤ date.year && 1 ≤ date.month && date.month ≤ 12 &&
    1 ≤ date.day && date.day ≤ daysOfMonth date.year date.month

/-! ### Text -/

/-- The numbers of a date, as they are shown. -/
def Date.parts (date : Date) : List String :=
  [date.year, date.month, date.day].map toString

/-- The numbers of a time, as they are shown: seconds and microseconds only as far as they are
not zero. -/
def Time.parts (time : Time) : List String :=
  let shown := if time.microsecond ≠ 0 then
      [time.hour, time.minute, time.second, time.microsecond]
    else if time.second ≠ 0 then [time.hour, time.minute, time.second]
    else [time.hour, time.minute]
  shown.map toString

/-- The distance from universal time, as it is shown. -/
def offsetText (offset : Int) : String :=
  let span (inside : String) : String :=
    "datetime.timezone(datetime.timedelta(" ++ inside ++ "))"
  let seconds := offset * 60
  if offset = 0 then "datetime.timezone.utc"
  else if offset < 0 then span ("days=-1, seconds=" ++ toString (86400 + seconds))
  else span ("seconds=" ++ toString seconds)

namespace Moment

/-- A call, as it is shown. -/
def call (kind : String) (parts : List String) : String :=
  "datetime." ++ kind ++ "(" ++ Value.commaList parts ++ ")"

/-- The name of the kind of a moment. -/
def kind : Moment → String
  | .date _ => "date"
  | .full .. => "datetime"
  | .time _ => "time"

/-- The numbers of a moment, as they are shown. -/
def parts : Moment → List String
  | .date day => day.parts
  | .full day clock offset =>
    day.parts ++ clock.parts ++ (offset.map fun o => "tzinfo=" ++ offsetText o).toList
  | .time clock => clock.parts

/-- A moment among the values. -/
def toValue (moment : Moment) : Value :=
  .foreign moment.kind (call moment.kind moment.parts)

end Moment

/-! ### Reading -/

/-- An attempt to find something at the start of a text. -/
abbrev Attempt := StateT (List Char) Option

namespace Attempt

/-- A number of exactly `count` digits, from `low` to `high`. -/
def number (count low high : Nat) : Attempt Nat := do
  let text ← get
  let digits := text.take count
  guard (digits.length = count ∧ digits.all Char.isDigit)
  let n := Nat.ofDigitChars 10 digits 0
  guard (low ≤ n ∧ n ≤ high)
  set (text.drop count)
  return n

/-- One of the given characters. -/
def oneOf (wanted : List Char) : Attempt Char := do
  match ← get with
  | c :: rest =>
    guard (wanted.contains c)
    set rest
    return c
  | [] => failure

/-- The fraction of a second in microseconds, which further digits do not change. -/
def fraction : Attempt Nat := do
  let _ ← oneOf ['.']
  let (digits, rest) := (← get).span Char.isDigit
  guard (digits ≠ [])
  set rest
  let kept := digits.take 6
  return Nat.ofDigitChars 10 (kept ++ List.replicate (6 - kept.length) '0') 0

/-- A time of day, to the second at least. -/
def time : Attempt Time := do
  let hour ← number 2 0 23
  let _ ← oneOf [':']
  let minute ← number 2 0 59
  let _ ← oneOf [':']
  let second ← number 2 0 59
  let microsecond := (← optional fraction).getD 0
  return { hour, minute, second, microsecond }

/-- A distance from universal time in minutes. -/
def offset : Attempt Int := do
  let sign ← oneOf ['Z', 'z', '+', '-']
  if sign = 'Z' ∨ sign = 'z' then return 0
  let hours ← number 2 0 23
  let _ ← oneOf [':']
  let minutes ← number 2 0 59
  let distance : Int := hours * 60 + minutes
  return if sign = '-' then -distance else distance

/-- A date with a day that some month has. -/
def date : Attempt Date := do
  let year ← number 4 0 9999
  let _ ← oneOf ['-']
  let month ← number 2 1 12
  let _ ← oneOf ['-']
  let day ← number 2 1 31
  return { year, month, day }

/-- A date, perhaps with a time. -/
def dateAndTime : Attempt Moment := do
  let date ← date
  match ← optional (oneOf ['T', 't', ' '] *> time) with
  | none => return .date date
  | some time => return .full date time (← optional offset)

/-- A moment. -/
def moment : Attempt Moment := dateAndTime <|> (Moment.time <$> time)

end Attempt

/-- The moment is in the calendar. -/
def Moment.isValid : Moment → Bool
  | .date day | .full day _ _ => day.isValid
  | .time _ => true

/-- Reads a moment if one comes next. -/
def moment? : Scan (Option Moment) := do
  match ← Scan.attempt Attempt.moment with
  | none => return none
  | some moment => if moment.isValid then return some moment else Scan.fail

end BraceScript.Toml
