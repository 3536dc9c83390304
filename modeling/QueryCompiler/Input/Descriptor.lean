import QueryCompiler.Schema.Basic
import QueryCompiler.Datum.Rows
/-
# Input descriptors

An input descriptor says which types the variables of an operation have, and which types the
fields of the input objects in them have, however deep.  An input object is recorded after those
that its fields refer to, unless they refer back to it.

Fields and types are named by texts when variables are described, and by any data when a
descriptor is read back from a record; `InputDescriptor.stored` takes the first to the second.
-/
namespace QueryCompiler

structure InputDescriptor (α : Type) where
  /-- The named types of the variables. -/
  fields : Table α α
  /-- The named types of the fields of each input object. -/
  types : Table α (Table α α)
  deriving DecidableEq, Repr

/-! ## 1. Describing variables -/

/-- A walk through the input objects of a schema: what it has entered and what it has left. -/
structure InputWalk where
  entered : List String
  types : Table String (Table String String)

/-- The named types of some fields. -/
def fieldShape (fields : List SchemaField) : Table String String :=
  fields.map fun f => (f.name, f.type.base)

/-- Walks a type by its name, and the types of its fields before it is recorded.  No more than
`depth` types are entered inside each other. -/
def InputWalk.visit (s : Schema) (depth : Nat) (w : InputWalk) (name : String) : InputWalk :=
  match depth with
  | 0 => w
  | depth + 1 =>
    if name ∈ w.entered then w
    else
      match s.type? name with
      | some (.inputObject _ fields) =>
        let entered := { w with entered := name :: w.entered }
        let left := fields.foldl (fun w f => visit s depth w f.type.base) entered
        { left with types := Table.insert left.types name (fieldShape fields) }
      | _ => w

/-- The descriptor of some variables, if there are any.  The types of a schema are enough to walk
as deep as it goes, because no type is entered twice. -/
def inputDescriptor? (s : Schema) (declarations : List VariableDefinition) :
    Option (InputDescriptor String) :=
  if declarations.isEmpty then none
  else
    let names := declarations.map fun v => (v.name, v.type.base)
    let walk := names.foldl (fun w row => InputWalk.visit s (s.types.length + 1) w row.2)
      { entered := [], types := [] }
    some { fields := Table.ofRows names, types := walk.types }

/-! ## 2. Writing and reading -/

namespace InputDescriptor

/-- The shape as it is stored. -/
def storedShape (shape : Table String String) : Table Datum Datum :=
  shape.map fun (name, type) => (.text name, .text type)

/-- The descriptor as it is stored. -/
def stored (d : InputDescriptor String) : InputDescriptor Datum where
  fields := storedShape d.fields
  types := d.types.map fun (name, shape) => (.text name, storedShape shape)

/-- The record of a descriptor. -/
def toDatum (d : InputDescriptor Datum) : Datum :=
  .record [("fields", .object d.fields),
    ("types", .object (d.types.map fun (name, shape) => (name, .object shape)))]

/-- The shapes of the input objects. -/
def shapes : Datum → Except Error (Table Datum (Table Datum Datum))
  | .object rows => rows.mapM fun (name, d) => do return (name, ← d.toTable)
  | _ => .error .notAnObject

/-- The descriptor that a datum stands for.  What is missing is empty. -/
def ofDatum? : Datum → Except Error (InputDescriptor Datum)
  | .object rows => do
    let fields ← ((Datum.field? rows "fields").getD (.object [])).toTable
    let types ← shapes ((Datum.field? rows "types").getD (.object []))
    return { fields, types }
  | _ => .error .notAnObject

end InputDescriptor

end QueryCompiler
