import QueryCompiler.Schema.Basic
/-
# The type a selection is made against

A selection stands below a definition, under fields and inline fragments.  `Schema.typeAt`
replays these ancestors from the definition down and answers the type that selections below
them are made against.

An unknown type condition leaves the type open, and a condition further down settles it again.
A field without a known type leaves it open for good: nothing below that field has a type.
-/
namespace QueryCompiler

/-- What a selection can stand under. -/
inductive Ancestor where
  | operation (kind : OperationKind)
  | fragment (condition : String)
  | inline (condition : Option String)
  | field (head : FieldHead)
  deriving Repr

namespace Ancestor

/-- The keys of the fields among some ancestors. -/
def path (ancestors : List Ancestor) : List String :=
  ancestors.filterMap fun
    | .field head => some head.responseKey
    | _ => none

end Ancestor

namespace Schema

/-- The type below some ancestors, when `current` is the type above them. -/
def typeBelow (s : Schema) (current : Option NamedType) : List Ancestor → Option NamedType
  | [] => current
  | .operation kind :: rest => s.typeBelow (s.root? kind) rest
  | .fragment condition :: rest => s.typeBelow (s.type? condition) rest
  | .inline none :: rest => s.typeBelow current rest
  | .inline (some condition) :: rest => s.typeBelow (s.type? condition) rest
  | .field head :: rest =>
    match current.bind (·.field? head.name) with
    | some f => s.typeBelow (s.fieldType? f) rest
    | none => none

/-- The type that selections below these ancestors are made against. -/
def typeAt (s : Schema) (ancestors : List Ancestor) : Option NamedType := s.typeBelow none ancestors

/-- The field that a name means below these ancestors. -/
def fieldAt (s : Schema) (ancestors : List Ancestor) (name : String) : Option SchemaField :=
  (s.typeAt ancestors).bind (·.field? name)

/-- Fields with the types above and below them. -/
abbrev TypedField := String × Option NamedType × Option NamedType

mutual

/-- The fields of a selection, outer ones first. -/
def typedFields (s : Schema) (ancestors : List Ancestor) : Selection → List TypedField
  | .field head selections =>
    (head.name, s.typeAt ancestors, s.typeAt (ancestors ++ [.field head]))
      :: s.typedFieldsOf (ancestors ++ [.field head]) selections
  | .spread _ _ => []
  | .inline condition _ selections => s.typedFieldsOf (ancestors ++ [.inline condition]) selections

def typedFieldsOf (s : Schema) (ancestors : List Ancestor) : List Selection → List TypedField
  | [] => []
  | selection :: selections =>
    s.typedFields ancestors selection ++ s.typedFieldsOf ancestors selections

end

/-- The fields of a definition, in the order of the text. -/
def typedFieldsIn (s : Schema) : Definition → List TypedField
  | .operation o => s.typedFieldsOf [.operation o.kind] o.selections
  | .fragment f => s.typedFieldsOf [.fragment f.condition] f.selections
  | _ => []

end Schema

end QueryCompiler
