import QueryCompiler.Table
import QueryCompiler.Language.Ast
/-
# Schemas

The types a document is checked against.  Types are looked up by name (`Schema.type?`); the
fields of a type and the arguments of a field are in the order of their declaration.
-/
namespace QueryCompiler

/-- A field of a type.  Fields of input objects take no arguments at all, which is not the same
as taking none of the possible ones. -/
structure SchemaField where
  name : String
  arguments : Option (Table String TypeRef)
  type : TypeRef
  deriving Repr

inductive NamedType where
  | scalar (name : String)
  | object (name : String) (interfaces : List String) (fields : List SchemaField)
  | interface (name : String) (interfaces : List String) (fields : List SchemaField)
  | union (name : String) (members : List String)
  | enumeration (name : String)
  | inputObject (name : String) (fields : List SchemaField)
  deriving Repr

namespace NamedType

def name : NamedType → String
  | .scalar name => name
  | .object name _ _ => name
  | .interface name _ _ => name
  | .union name _ => name
  | .enumeration name => name
  | .inputObject name _ => name

/-- The fields of a type of a kind that has fields. -/
def fields? : NamedType → Option (List SchemaField)
  | .object _ _ fields => some fields
  | .interface _ _ fields => some fields
  | .inputObject _ fields => some fields
  | _ => none

/-- The field called `name`. -/
def field? (t : NamedType) (name : String) : Option SchemaField :=
  (t.fields?.getD []).find? (·.name = name)

def isObject : NamedType → Bool
  | .object .. => true
  | _ => false

/-- Interfaces and unions: what is found there may be of several object types. -/
def isAbstract : NamedType → Bool
  | .interface .. => true
  | .union .. => true
  | _ => false

/-- The interfaces a type declares to implement. -/
def interfaces : NamedType → List String
  | .object _ interfaces _ => interfaces
  | .interface _ interfaces _ => interfaces
  | _ => []

end NamedType

structure Schema where
  types : List NamedType
  query : Option String
  mutation : Option String
  subscription : Option String
  deriving Repr

namespace Schema

/-- The type called `name`. -/
def type? (s : Schema) (name : String) : Option NamedType := s.types.find? (·.name = name)

/-- The name of the type that operations of a kind start at. -/
def rootName? (s : Schema) : OperationKind → Option String
  | .query => s.query
  | .mutation => s.mutation
  | .subscription => s.subscription

/-- The type that operations of a kind start at. -/
def root? (s : Schema) (kind : OperationKind) : Option NamedType := (s.rootName? kind).bind s.type?

/-- The type of what a field holds, under all lists. -/
def fieldType? (s : Schema) (f : SchemaField) : Option NamedType := s.type? f.type.base

/-- Whether `part` is one of the types that `whole` stands for: a member of a union, or a type
that implements an interface. -/
def isSubType (_ : Schema) (whole part : NamedType) : Bool :=
  match whole with
  | .union _ members => part.name ∈ members
  | .interface name _ _ => name ∈ part.interfaces
  | _ => false

end Schema

end QueryCompiler
