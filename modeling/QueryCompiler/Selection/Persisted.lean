import QueryCompiler.Datum.Rows
import QueryCompiler.Selection.Entry
/-
# Persisted selections

A compiled selection is stored as a record and read back from it.  Reading takes a record as it
stands: any datum may be in any place (`StoredHead`), and it is the use of a stored selection that
fails when the datum is of no use there.  The list operations are stored and not read again;
`SelectionTree.stored` is a compiled selection without them, as reading its record gives it.
-/
namespace QueryCompiler

/-! ## 1. Stored selections -/

/-- What a stored entry says about its own field.  Null stands for what is missing. -/
structure StoredHead where
  type : Datum
  cacheKey : Datum
  masked : Datum
  abstract : Datum
  list : Datum
  connection : Datum
  filters : Datum
  deriving Repr

/-- A selection read back from a record. -/
abbrev StoredTree := EntryTree Datum StoredHead

/-- Two occurrences of one key. -/
def StoredHead.merge (a b : StoredHead) : StoredHead where
  type := a.type.either b.type
  cacheKey := a.cacheKey
  masked := a.masked.both b.masked
  abstract := a.abstract.either b.abstract
  list := a.list.either b.list
  connection := a.connection.either b.connection
  filters := a.filters.given.getD b.filters

instance : MergeHead StoredHead := ⟨StoredHead.merge⟩

/-- The record of the arguments of a list field. -/
def filtersDatum (filters : Table String ValueDescriptor) : Datum :=
  .record (filters.map fun (name, value) => (name, value.toDatum))

/-- The head as it is stored. -/
def EntryHead.stored (h : EntryHead) : StoredHead where
  type := (h.type.map .text).getD .null
  cacheKey := .text h.cacheKey
  masked := .bool h.masked
  abstract := .bool h.abstract
  list := (h.list.map .text).getD .null
  connection := .bool h.connection
  filters := (h.filters.map filtersDatum).getD .null

/-- The selection as it is stored. -/
def SelectionTree.stored (t : SelectionTree) : StoredTree := Entry.mapTree .text EntryHead.stored t

/-! ## 2. Writing -/

namespace StoredHead

/-- The row for something that is either so or not. -/
def markRow (name : String) (d : Datum) : List (String × Datum) :=
  if d.isTrue then [(name, .bool true)] else []

/-- The record of an entry with the rows for what is below it, the list operations and the
filters.  Only the record of a list field has filters. -/
def record (h : StoredHead) (fields : List (String × Datum)) (operations : List ListOperation)
    (filters : Datum) : Datum :=
  .record (Datum.optionalRow "type" id h.type.given
    ++ [("keyRaw", h.cacheKey), ("masked", h.masked)]
    ++ fields
    ++ markRow "abstract" h.abstract
    ++ (if operations.isEmpty then []
        else [("operations", .list (operations.map ListOperation.toDatum))])
    ++ match h.list.given with
      | none => []
      | some list => ("list", list) :: markRow "connection" h.connection ++ [("filters", filters)])

/-- The filters as they are written, each of them as a table. -/
def filterDatum (h : StoredHead) : Except Error Datum :=
  match h.filters with
  | .object rows => do
    return .object (← rows.mapM fun (name, d) => do return (name, .object (← d.toTable)))
  | d => if d.isTrue then .error .notAnObject else .ok (.object [])

end StoredHead

namespace Entry

mutual

/-- The record of an entry of a compiled selection. -/
def toDatum : Entry String EntryHead → Datum
  | .node head fields =>
    head.stored.record (fieldsRow fields) head.operations (filtersDatum (head.filters.getD []))

/-- The row for what is below an entry. -/
def fieldsRow : Option (List (String × Entry String EntryHead)) → List (String × Datum)
  | none => []
  | some fields => [("fields", .object (treeRows fields))]

/-- The rows of a selection. -/
def treeRows : List (String × Entry String EntryHead) → List (Datum × Datum)
  | [] => []
  | (key, entry) :: rest => (.text key, entry.toDatum) :: treeRows rest

end

mutual

/-- The record of a stored entry.  Filters of what is no list are not looked at. -/
def storedDatum : Entry Datum StoredHead → Except Error Datum
  | .node head fields => do
    let below ← storedFieldsRow fields
    let filters ← if head.list.given.isSome then head.filterDatum else .ok .null
    return head.record below [] filters

def storedFieldsRow :
    Option (List (Datum × Entry Datum StoredHead)) → Except Error (List (String × Datum))
  | none => .ok []
  | some fields => do return [("fields", .object (← storedRows fields))]

def storedRows :
    List (Datum × Entry Datum StoredHead) → Except Error (List (Datum × Datum))
  | [] => .ok []
  | (key, entry) :: rest => do return (key, ← entry.storedDatum) :: (← storedRows rest)

end

end Entry

/-- The record of a compiled selection. -/
def SelectionTree.toDatum (t : SelectionTree) : Datum := .object (Entry.treeRows t)

/-- The record of a stored selection. -/
def StoredTree.toDatum (t : StoredTree) : Except Error Datum := do
  return .object (← Entry.storedRows t)

/-! ## 3. Reading -/

namespace Persisted

/-- The head of the entry that a record stands for. -/
def head (rows : List (Datum × Datum)) : StoredHead where
  type := (Datum.field? rows "type").getD .null
  cacheKey := (Datum.field? rows "keyRaw").getD (.text "")
  masked := (Datum.field? rows "masked").getD (.bool false)
  abstract := (Datum.field? rows "abstract").getD (.bool false)
  list := (Datum.field? rows "list").getD .null
  connection := (Datum.field? rows "connection").getD (.bool false)
  filters := (Datum.field? rows "filters").getD .null

mutual

/-- The entry that a datum stands for. -/
def entry : Datum → Except Error (Entry Datum StoredHead)
  | .object rows => do return .node (head rows) (← fieldsRow rows)
  | _ => .error .notAnObject

/-- The selection below an entry, from the rows of its record. -/
def fieldsRow : List (Datum × Datum) → Except Error (Option StoredTree)
  | [] => .ok none
  | (key, value) :: rows =>
    if key == .text "fields" then below value else fieldsRow rows

/-- The selection that a datum stands for; null is none. -/
def below : Datum → Except Error (Option StoredTree)
  | .null => .ok none
  | .object rows => do return some (← entries rows)
  | _ => .error .notAnObject

/-- The selection that some rows stand for. -/
def entries : List (Datum × Datum) → Except Error StoredTree
  | [] => .ok []
  | (key, value) :: rows => do return (key, ← entry value) :: (← entries rows)

end

end Persisted

/-- The selection that a datum stands for. -/
def StoredTree.ofDatum? : Datum → Except Error StoredTree
  | .object rows => Persisted.entries rows
  | _ => .error .notAnObject

end QueryCompiler
