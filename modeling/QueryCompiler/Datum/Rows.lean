import QueryCompiler.Datum.Basic
import QueryCompiler.Error
/-
# Data as tables

Besides an object, a list of pairs stands for a table: the first part of a pair is a key, the
second its value.  A pair is anything with two parts: a list of two items, a text of two
characters, or an object of two keys, of which these are the parts.
-/
namespace QueryCompiler.Datum

/-- The parts of a datum that has some. -/
def parts? : Datum → Option (List Datum)
  | .list items => some items
  | .object rows => some (rows.map (·.1))
  | .text value => some (value.toList.map fun c => .text (String.singleton c))
  | _ => none

/-- The row that a pair stands for. -/
def toRow (d : Datum) : Except Error (Datum × Datum) :=
  match d.parts? with
  | some [key, value] => if key.isKey then .ok (key, value) else .error .notAKey
  | some _ => .error .notAPair
  | none => .error .notATable

/-- The table that a datum stands for. -/
def toTable : Datum → Except Error (Table Datum Datum)
  | .object rows => .ok rows
  | d =>
    match d.parts? with
    | some pairs => do return Table.ofRows (← pairs.mapM toRow)
    | none => .error .notATable

end QueryCompiler.Datum
