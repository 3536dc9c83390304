import QueryCompiler.Datum.Basic
import QueryCompiler.Number.Shortest
import QueryCompiler.Text.Printable
/-
# Data as text

`Datum.display` is the text of a datum on its own: a text is itself.  Inside a list or an object
a datum is shown so that its kind can be told from its text (`Datum.shown`): texts in quotes,
dates and moments by their parts.
-/
namespace QueryCompiler

/-- Doubles are positional from four zeros behind the point up to sixteen digits before it. -/
def Binary64.display : Binary64.Layout :=
  { lowPoint := -4, highPoint := 16, exponentDigits := 2 }

namespace Datum

/-! ## 1. Quoted texts -/

/-- A character inside quotes. -/
def shownChar (quote c : Char) : List Char :=
  if c = quote || c = '\\' then ['\\', c]
  else if c = '\t' then ['\\', 't']
  else if c = '\n' then ['\\', 'n']
  else if c = '\r' then ['\\', 'r']
  else if c = ' ' || Text.isPrintable c then [c]
  else if c.toNat < 0x100 then '\\' :: 'x' :: hexDigits 2 c.toNat
  else if c.toNat < 0x10000 then '\\' :: 'u' :: hexDigits 4 c.toNat
  else '\\' :: 'U' :: hexDigits 8 c.toNat

/-- A text in single quotes, or in double quotes when it holds single ones only. -/
def shownText (text : String) : String :=
  let cs := text.toList
  let quote := if cs.contains '\x27' && !cs.contains '"' then '"' else '\x27'
  String.ofList (quote :: cs.flatMap (shownChar quote) ++ [quote])

/-! ## 2. Dates and moments by their parts -/

def shownDate (d : Date) : String :=
  "datetime.date(" ++ String.intercalate ", " ([d.year, d.month, d.day].map toString) ++ ")"

/-- An offset as days, seconds and microseconds, of which only the days may be negative. -/
def shownOffset (o : Offset) : String :=
  if o.microseconds = 0 then "datetime.timezone.utc"
  else
    let days := o.microseconds.fdiv (86400 * 1000000)
    let rest := (o.microseconds.fmod (86400 * 1000000)).toNat
    let parts := [("days", days), ("seconds", ((rest / 1000000 : Nat) : Int)),
      ("microseconds", ((rest % 1000000 : Nat) : Int))]
    "datetime.timezone(datetime.timedelta(" ++ String.intercalate ", "
      ((parts.filter fun part => part.2 != 0).map fun part => part.1 ++ "=" ++ toString part.2)
      ++ "))"

def shownMoment (t : DateTime) : String :=
  let c := t.clock
  let exact := if c.microsecond != 0 then [c.second, c.microsecond]
    else if c.second != 0 then [c.second] else []
  let parts := [t.date.year, t.date.month, t.date.day, c.hour, c.minute] ++ exact
  "datetime.datetime(" ++ String.intercalate ", " (parts.map toString)
    ++ (match t.offset with
      | some o => ", tzinfo=" ++ shownOffset o
      | none => "") ++ ")"

/-! ## 3. Data -/

mutual

/-- A datum inside another one. -/
def shown : Datum → String
  | .null => "None"
  | .undefined => "Undefined"
  | .bool value => if value then "True" else "False"
  | .int value => toString value
  | .float value => value.write Binary64.display
  | .text value => shownText value
  | .moment value => shownMoment value
  | .date value => shownDate value
  | .uuid value => "UUID('" ++ String.ofList value.write ++ "')"
  | .list items => "[" ++ String.intercalate ", " (shownItems items) ++ "]"
  | .object rows => "\x7b" ++ String.intercalate ", " (shownRows rows) ++ "\x7d"

def shownItems : List Datum → List String
  | [] => []
  | item :: items => item.shown :: shownItems items

def shownRows : List (Datum × Datum) → List String
  | [] => []
  | (key, value) :: rows => (key.shown ++ ": " ++ value.shown) :: shownRows rows

end

/-- A datum on its own. -/
def display : Datum → String
  | .text value => value
  | .moment value => String.ofList (value.write ' ')
  | .date value => String.ofList value.write
  | .uuid value => String.ofList value.write
  | d => d.shown

end Datum

end QueryCompiler
