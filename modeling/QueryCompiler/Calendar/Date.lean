import QueryCompiler.Text.Digit
/-
# Dates

Days of the Gregorian calendar, extended to all years from 1 to 9999.  A day is also the day of
a week: weeks run from Monday to Sunday, and the first week of a year is the one that holds its
first Thursday (`Date.ofWeek?`).
-/
namespace QueryCompiler

/-- Every fourth year is a leap year, but of the hundredth ones only every fourth. -/
def isLeapYear (year : Nat) : Bool := year % 4 = 0 && (year % 100 ≠ 0 || year % 400 = 0)

/-- The lengths of the months of a year. -/
def monthLengths (year : Nat) : List Nat :=
  [31, if isLeapYear year then 29 else 28, 31, 30, 31, 30, 31, 31, 30, 31, 30, 31]

/-- The days of a month, counted from one; none of a month that no year has. -/
def daysInMonth (year month : Nat) : Nat :=
  if month = 0 then 0 else (monthLengths year)[month - 1]?.getD 0

structure Date where
  year : Nat
  month : Nat
  day : Nat
  year_mem : 1 ≤ year ∧ year ≤ 9999
  day_mem : 1 ≤ day ∧ day ≤ daysInMonth year month
  deriving DecidableEq, Repr

namespace Date

/-- The date of a year, a month and a day, if there is one. -/
def of? (year month day : Nat) : Option Date :=
  if hy : 1 ≤ year ∧ year ≤ 9999 then
    if hd : 1 ≤ day ∧ day ≤ daysInMonth year month then some ⟨year, month, day, hy, hd⟩ else none
  else none

/-! ## Week dates -/

/-- The days before the first of January of a year, from the year 1 on. -/
def daysBeforeYear (year : Nat) : Nat :=
  let y := year - 1
  365 * y + y / 4 - y / 100 + y / 400

/-- The days from the first of January of the year 1 up to a date, both counted. -/
def count (d : Date) : Nat :=
  daysBeforeYear d.year + ((monthLengths d.year).take (d.month - 1)).foldl (· + ·) 0 + d.day

/-- The weekday of a day counted from the first of January of the year 1; Monday is 0. -/
def weekday (count : Nat) : Nat := (count + 6) % 7

/-- The month and the day that are the `n`th day of months of these lengths, when the first of
them is month `month`. -/
def monthAndDay : Nat → List Nat → Nat → Option (Nat × Nat)
  | _, [], _ => none
  | month, length :: lengths, n =>
    if n ≤ length then some (month, n) else monthAndDay (month + 1) lengths (n - length)

/-- The date of a day counted from the first of January of the year 1, which lies in `year` or
in a year next to it. -/
def ofCount? (year count : Nat) : Option Date := do
  let year :=
    if count ≤ daysBeforeYear year then year - 1
    else if daysBeforeYear (year + 1) < count then year + 1
    else year
  let (month, day) ← monthAndDay 1 (monthLengths year) (count - daysBeforeYear year)
  of? year month day

/-- A year has a week 53 when it starts on a Thursday, or on a Wednesday and is a leap year. -/
def hasLongYear (year : Nat) : Bool :=
  let first := weekday (daysBeforeYear year + 1)
  first = 3 || (first = 2 && isLeapYear year)

/-- The date of a weekday, Monday being 1, in a week of a year. -/
def ofWeek? (year week day : Nat) : Option Date :=
  if year < 1 || week < 1 || 53 < week || (week = 53 && !hasLongYear year) || day < 1 || 7 < day
  then none
  else
    let newYear := daysBeforeYear year + 1
    let first := weekday newYear
    let monday := newYear - first + if first > 3 then 7 else 0
    ofCount? year (monday + (week - 1) * 7 + (day - 1))

/-- Year, month and day with hyphens between. -/
def write (d : Date) : List Char :=
  Text.zeroPadded 4 d.year ++ '-' :: Text.zeroPadded 2 d.month ++ '-' :: Text.zeroPadded 2 d.day

end Date

end QueryCompiler
