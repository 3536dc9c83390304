import QueryCompiler.Scalar.Registry
import QueryCompiler.Selection.Persisted
import QueryCompiler.Input.Descriptor
/-
# Converting responses and variables

A walk through data, along the selection they answer or along the descriptor of the variables
they are.  Only scalars with a handler are converted; null stays null, lists keep their length,
objects keep their keys, and what neither the selection nor the descriptor knows stays as it is.
-/
namespace QueryCompiler

/-! ## 1. Responses -/

namespace ScalarRegistry

mutual

/-- The data with the scalars of a selection converted. -/
def walk (r : ScalarRegistry) (direction : Direction) (t : StoredTree) :
    Datum → Except Error Datum
  | .null => .ok .null
  | .list items => do return .list (← walkItems r direction t items)
  | .object rows => do return .object (← walkRows r direction t rows)
  | _ => .error .notAnObject

def walkItems (r : ScalarRegistry) (direction : Direction) (t : StoredTree) :
    List Datum → Except Error (List Datum)
  | [] => .ok []
  | d :: items => do return (← walk r direction t d) :: (← walkItems r direction t items)

/-- The rows with the value under each key converted as its entry says: along the fields of the
entry, or as a scalar where it has none. -/
def walkRows (r : ScalarRegistry) (direction : Direction) (t : StoredTree) :
    List (Datum × Datum) → Except Error (List (Datum × Datum))
  | [] => .ok []
  | (key, value) :: rows => do
    let value ←
      match Table.get? t key with
      | none => .ok value
      | some (.node head fields) =>
        match head.type.given, fields with
        | none, _ => .ok value
        | some _, some below => walk r direction below value
        | some type, none => r.convert type direction value
    return (key, value) :: (← walkRows r direction t rows)

end

/-- A response or a request as it is sent. -/
def marshal (r : ScalarRegistry) (t : StoredTree) (d : Datum) : Except Error Datum :=
  r.walk .marshal t d

/-- A response as a program works with it. -/
def unmarshal (r : ScalarRegistry) (t : StoredTree) (d : Datum) : Except Error Datum :=
  r.walk .unmarshal t d

end ScalarRegistry

/-! ## 2. Variables -/

namespace InputDescriptor

/-- The name that stands for the variables themselves. -/
def root : String := "@root"

/-- The types of the fields of an input object, or of the variables. -/
def fieldsOf (d : InputDescriptor Datum) (type : Datum) : Table Datum Datum :=
  if type == .text root then d.fields else (Table.get? d.types type).getD []

/-- The type of the field of a key, if it has one. -/
def typeOf? (d : InputDescriptor Datum) (type key : Datum) : Option Datum :=
  (Table.get? (d.fieldsOf type) key).bind Datum.given

end InputDescriptor

namespace ScalarRegistry

mutual

/-- The data of an input object, or of the variables, as they are sent. -/
def marshalInput (r : ScalarRegistry) (i : InputDescriptor Datum) (type : Datum) :
    Datum → Except Error Datum
  | .null => .ok .null
  | .list items => do return .list (← marshalInputItems r i type items)
  | .object rows => do return .object (← marshalInputRows r i type rows)
  | _ => .error .notAnObject

def marshalInputItems (r : ScalarRegistry) (i : InputDescriptor Datum) (type : Datum) :
    List Datum → Except Error (List Datum)
  | [] => .ok []
  | d :: items => do return (← marshalInput r i type d) :: (← marshalInputItems r i type items)

/-- The rows with each value converted as the type of its field says; a scalar with a handler
comes before an input object of the same name. -/
def marshalInputRows (r : ScalarRegistry) (i : InputDescriptor Datum) (type : Datum) :
    List (Datum × Datum) → Except Error (List (Datum × Datum))
  | [] => .ok []
  | (key, value) :: rows => do
    let value ←
      match i.typeOf? type key with
      | none => .ok value
      | some field =>
        match r.handler? field with
        | .error e => .error e
        | .ok (some (scalar, h)) => convertWith scalar h .marshal value
        | .ok none =>
          if Table.contains i.types field then marshalInput r i field value else .ok value
    return (key, value) :: (← marshalInputRows r i type rows)

end

/-- The variables of an operation as they are sent.  Without a descriptor they stay as they are. -/
def marshalInputs (r : ScalarRegistry) (i : Option (InputDescriptor Datum)) (type : String)
    (d : Datum) : Except Error Datum :=
  match i with
  | none => .ok d
  | some i => r.marshalInput i (.text type) d

end ScalarRegistry

end QueryCompiler
