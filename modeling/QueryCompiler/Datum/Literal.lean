import QueryCompiler.Datum.Display
import QueryCompiler.Error
/-
# Data and values

A datum is written into a document as a value (`Datum.literal`), and a value of a document
without variables is a datum (`Value.datum`).
-/
namespace QueryCompiler

namespace Datum

/-- The value that writes a single datum.  What is no truth value and no number is written as
the string of its text. -/
def literal : Datum → Value
  | .bool value => .boolean value
  | .int value => .int (toString value)
  | .float value => .float (value.write Binary64.display)
  | d => .string d.display false

/-- The value of a default, which is left off when it counts as false. -/
def defaultLiteral (d : Datum) : Option Value := if d.isTrue then some d.literal else none

end Datum

/-- The whole number that a text writes. -/
def intDatum (text : String) : Except Error Datum :=
  match Numeral.int? text with
  | some n => .ok (.int n)
  | none => .error (.badNumber text)

/-- The double that a text writes. -/
def floatDatum (text : String) : Except Error Datum :=
  match Numeral.float? text with
  | some x => .ok (.float x)
  | none => .error (.badNumber text)

/-- A number as the datum of a value: one with too many digits to be read is no number. -/
def numberOr (read : Except Error Datum) : Datum :=
  match read with
  | .ok d => d
  | .error _ => .float Binary64.nan

mutual

/-- The datum of a value.  A variable in it is undefined: nothing gives it a value yet. -/
def Value.datum : Value → Datum
  | .variable _ => .undefined
  | .int text => numberOr (intDatum text)
  | .float text => numberOr (floatDatum text)
  | .string text _ => .text text
  | .boolean value => .bool value
  | .null => .null
  | .enumeration name => .text name
  | .list items => .list (Value.items items)
  | .object fields => .object (Table.ofRows (Value.rows fields))

def Value.items : List Value → List Datum
  | [] => []
  | v :: vs => v.datum :: Value.items vs

def Value.rows : List (String × Value) → List (Datum × Datum)
  | [] => []
  | (name, v) :: fields => (.text name, v.datum) :: Value.rows fields

end

/-- What a value says by itself: its text, or a truth value. -/
def Value.single? : Value → Option Datum
  | .int text => some (.text text)
  | .float text => some (.text text)
  | .string text _ => some (.text text)
  | .boolean value => some (.bool value)
  | .enumeration name => some (.text name)
  | _ => none

end QueryCompiler
