import QueryCompiler.Calendar.DateTime
import QueryCompiler.Number.Power
/-
# Reading dates and moments

The written forms of dates and moments: with hyphens and colons or without them, by month and
day or by week and weekday.  A moment is a date, any one character, and a clock time, which may
carry an offset.

* `Date.read?` reads a date; what follows its day is not looked at, but the text as a whole has
  to be as long as one of the written forms.
* `DateTime.read?` reads a moment.  `Z` stands for the offset zero wherever it occurs.
-/
namespace QueryCompiler

/-! ## 1. Digits -/

/-- The number that exactly `n` digits at the front write, and what follows. -/
def takeDigits? (n : Nat) (cs : List Char) : Option (Nat × List Char) :=
  let front := cs.take n
  if front.length = n && front.all Char.isDigit then
    some (front.foldl (fun k c => 10 * k + (c.toNat - '0'.toNat)) 0, cs.drop n)
  else none

/-! ## 2. Dates -/

/-- What follows a hyphen. -/
def afterHyphen? : List Char → Option (List Char)
  | '-' :: cs => some cs
  | _ => none

/-- The date that some characters begin with.  Once a hyphen follows the year, hyphens separate
all parts; a week without a weekday is its Monday. -/
def Date.readFront? (cs : List Char) : Option Date := do
  let (year, cs) ← takeDigits? 4 cs
  let (hyphens, cs) := match cs with
    | '-' :: rest => (true, rest)
    | cs => (false, cs)
  let next (cs : List Char) : Option (List Char) := if hyphens then afterHyphen? cs else some cs
  match cs with
  | 'W' :: cs =>
    let (week, cs) ← takeDigits? 2 cs
    if cs.isEmpty then Date.ofWeek? year week 1
    else
      let (day, _) ← takeDigits? 1 (← next cs)
      Date.ofWeek? year week day
  | cs =>
    let (month, cs) ← takeDigits? 2 cs
    let (day, _) ← takeDigits? 2 (← next cs)
    Date.of? year month day

/-- Reads a date, whose text has seven, eight or ten octets. -/
def Date.read? (text : String) : Option Date :=
  if text.utf8ByteSize ∈ [7, 8, 10] then Date.readFront? text.toList else none

/-! ## 3. Clock times -/

/-- Whether a clock time is complete in front of some characters: nothing follows, or a null
character does, which ends a time like the end of the text. -/
def endsTime : List Char → Bool
  | [] => true
  | c :: _ => c = '\x00'

/-- The digits of a fraction of a second, of which six count, and whether they end the time. -/
def readFraction? (cs : List Char) : Option (Nat × Bool) := do
  let width := min cs.length 6
  let (n, rest) ← takeDigits? width cs
  return (n * tenTo (6 - width), endsTime (rest.dropWhile Char.isDigit))

/-- What comes after two digits of a clock time. -/
inductive AfterField where
  /-- The time ends here; the flag says whether it is complete. -/
  | done (complete : Bool)
  /-- A fraction of a second. -/
  | fraction (cs : List Char)
  /-- The next two digits. -/
  | more (cs : List Char)

/-- A single octet at the end is left over, whatever it is. -/
def afterField? (colons : Bool) : List Char → Option AfterField
  | [] => some (.done true)
  | [c] => if c.utf8Size = 1 then some (.done (endsTime [c])) else none
  | c :: rest =>
    if colons && c = ':' then some (.more rest)
    else if c = '.' || c = ',' then some (.fraction rest)
    else if colons then none
    else some (.more (c :: rest))

/-- Reads hours, minutes, seconds and a fraction, as many of them as there are, and says whether
the time is complete.  A colon after the hours means that colons separate all parts; a fraction may
follow any part, and after the seconds its point may be missing or a colon. -/
def Clock.read? (cs : List Char) : Option (Clock × Bool) := do
  let (hour, cs) ← takeDigits? 2 cs
  let colons := cs.head? == some ':'
  match ← afterField? colons cs with
  | .done complete => return (⟨hour, 0, 0, 0⟩, complete)
  | .fraction cs =>
    let (microsecond, complete) ← readFraction? cs
    return (⟨hour, 0, 0, microsecond⟩, complete)
  | .more cs =>
    let (minute, cs) ← takeDigits? 2 cs
    match ← afterField? colons cs with
    | .done complete => return (⟨hour, minute, 0, 0⟩, complete)
    | .fraction cs =>
      let (microsecond, complete) ← readFraction? cs
      return (⟨hour, minute, 0, microsecond⟩, complete)
    | .more cs =>
      let (second, cs) ← takeDigits? 2 cs
      match ← afterField? colons cs with
      | .done complete => return (⟨hour, minute, second, 0⟩, complete)
      | .fraction cs =>
        let (microsecond, complete) ← readFraction? cs
        return (⟨hour, minute, second, microsecond⟩, complete)
      | .more cs =>
        let (microsecond, complete) ← readFraction? cs
        return (⟨hour, minute, second, microsecond⟩, complete)

/-! ## 4. Moments -/

def isSign (c : Char) : Bool := c = '+' || c = '-'

/-- Reads an offset after its sign.  One of less than a second is no offset at all. -/
def Offset.read? (negative : Bool) (cs : List Char) : Option Offset := do
  let (size, complete) ← Clock.read? cs
  if !complete then none
  let microseconds : Int := if size.seconds = 0 then 0 else size.microseconds
  Offset.of? (if negative then -microseconds else microseconds)

/-- Reads a clock time and an offset.  Without an offset the time has to be complete. -/
def readTime? (cs : List Char) : Option (Clock × Option Offset) := do
  let (clock, complete) ← Clock.read? (cs.takeWhile fun c => !isSign c)
  match cs.dropWhile fun c => !isSign c with
  | [] => if complete then return (clock, none) else none
  | sign :: rest => return (clock, some (← Offset.read? (sign = '-') rest))

/-- The count of characters of the date that a moment begins with.

Behind a year with a hyphen, a week may be followed by a weekday or by a time, both after a
hyphen; a digit at the place of the character between date and time decides for the time.
Behind a year without one, the count of digits after the week decides: times have an even
count of digits. -/
def dateLength? (cs : List Char) : Option Nat :=
  let digitAt (i : Nat) : Bool := cs[i]?.any Char.isDigit
  if cs.length = 7 then some 7
  else if cs[4]? = some '-' then
    if cs[5]? = some 'W' then
      if cs[8]? = some '-' then
        if cs.length = 9 then none else if digitAt 10 then some 8 else some 10
      else some 8
    else some 10
  else if cs[4]? = some 'W' then
    let digits := ((cs.drop 7).takeWhile Char.isDigit).length
    if digits < 2 then some (7 + digits) else if digits % 2 = 1 then some 7 else some 8
  else some 8

/-- `Z` written out. -/
def spelledOut (cs : List Char) : List Char :=
  cs.flatMap fun c => if c = 'Z' then ['+', '0', '0', ':', '0', '0'] else [c]

/-- Reads a moment.  A date alone is its midnight. -/
def DateTime.read? (text : String) : Option DateTime := do
  let cs := spelledOut text.toList
  let n ← dateLength? cs
  let date ← Date.readFront? (cs.take n)
  match cs.drop n with
  | [] => DateTime.of? date Clock.midnight none
  | _ :: rest =>
    let (clock, offset) ← readTime? rest
    DateTime.of? date clock offset

end QueryCompiler
