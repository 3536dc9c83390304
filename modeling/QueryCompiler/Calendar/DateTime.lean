import QueryCompiler.Calendar.Date
/-
# Times of a day and moments

A clock time goes down to microseconds.  A moment is a date and a clock time, with or without
the offset from universal time, which is smaller than a day.
-/
namespace QueryCompiler

structure Clock where
  hour : Nat
  minute : Nat
  second : Nat
  microsecond : Nat
  deriving DecidableEq, Repr

namespace Clock

/-- The clock at midnight. -/
def midnight : Clock := ⟨0, 0, 0, 0⟩

/-- Whether a day has this time. -/
def InDay (c : Clock) : Prop :=
  c.hour < 24 ∧ c.minute < 60 ∧ c.second < 60 ∧ c.microsecond < 1000000

instance (c : Clock) : Decidable c.InDay := by unfold InDay; infer_instance

/-- The whole seconds since midnight. -/
def seconds (c : Clock) : Nat := c.hour * 3600 + c.minute * 60 + c.second

/-- The microseconds since midnight. -/
def microseconds (c : Clock) : Nat := c.seconds * 1000000 + c.microsecond

/-- The fraction of a second, if there is one. -/
def writeFraction (microsecond : Nat) : List Char :=
  if microsecond = 0 then [] else '.' :: Text.zeroPadded 6 microsecond

/-- Hours, minutes and seconds with colons between, and the fraction of a second. -/
def write (c : Clock) : List Char :=
  Text.zeroPadded 2 c.hour ++ ':' :: Text.zeroPadded 2 c.minute ++ ':' ::
    Text.zeroPadded 2 c.second ++ writeFraction c.microsecond

end Clock

/-- An offset from universal time in microseconds, eastward positive. -/
structure Offset where
  microseconds : Int
  lt_day : microseconds.natAbs < 86400 * 1000000
  deriving DecidableEq, Repr

namespace Offset

def of? (microseconds : Int) : Option Offset :=
  if h : microseconds.natAbs < 86400 * 1000000 then some ⟨microseconds, h⟩ else none

/-- The sign, hours and minutes; seconds and their fraction where they are not zero. -/
def write (o : Offset) : List Char :=
  let size := o.microseconds.natAbs
  let whole := size / 1000000
  let second := whole % 60
  let microsecond := size % 1000000
  (if o.microseconds < 0 then '-' else '+') :: Text.zeroPadded 2 (whole / 3600) ++ ':' ::
    Text.zeroPadded 2 (whole / 60 % 60) ++
      if second = 0 && microsecond = 0 then []
      else ':' :: Text.zeroPadded 2 second ++ Clock.writeFraction microsecond

end Offset

structure DateTime where
  date : Date
  clock : Clock
  offset : Option Offset
  inDay : clock.InDay
  deriving DecidableEq, Repr

namespace DateTime

/-- The moment of a date, a clock time and an offset, if the day has this time. -/
def of? (date : Date) (clock : Clock) (offset : Option Offset) : Option DateTime :=
  if h : clock.InDay then some ⟨date, clock, offset, h⟩ else none

/-- The microseconds from the start of the calendar, as a clock at the place would count them. -/
def onClock (t : DateTime) : Int := t.date.count * 86400 * 1000000 + t.clock.microseconds

/-- Whether two moments are one: with offsets, in universal time; without, on the clock. -/
def sameMoment (s t : DateTime) : Bool :=
  match s.offset, t.offset with
  | none, none => s.onClock == t.onClock
  | some a, some b => s.onClock - a.microseconds == t.onClock - b.microseconds
  | _, _ => false

/-- The date, a separator, the clock time and the offset. -/
def write (separator : Char) (t : DateTime) : List Char :=
  t.date.write ++ separator :: t.clock.write ++ (t.offset.map Offset.write).getD []

end DateTime

end QueryCompiler
