import QueryCompiler.Language.Excerpt
/-
# Errors

What can go wrong, by cause.  `Error.message` has the words of those that a person has to
understand; the others say that something was put where it cannot be.
-/
namespace QueryCompiler

/-! ## 1. Faults in the names of lists -/

/-- What is wrong with the name a directive gives to a list. -/
inductive NamingFault where
  | missing
  | notText
  | repeated
  deriving DecidableEq, Repr

/-- A fault of a directive of a document. -/
structure DocumentError where
  fault : NamingFault
  directive : String
  filename : String
  origin : Option Origin
  deriving DecidableEq, Repr

namespace DocumentError

def message (e : DocumentError) : String :=
  match e.fault with
  | .missing => "@" ++ e.directive ++ " must have a name argument"
  | .notText => "@" ++ e.directive ++ " name must be a string"
  | .repeated => "@" ++ e.directive ++ " name must be unique"

/-- The message after the name of the file and before the place in the text. -/
def display (e : DocumentError) : String :=
  Text.enclosed "" e.filename ": " ++ e.message
    ++ (match e.origin with
      | some origin => "\n\n" ++ origin.excerpt
      | none => "")

end DocumentError

/-! ## 2. All errors -/

/-- The two ways a scalar is converted. -/
inductive Direction where
  | marshal
  | unmarshal
  deriving DecidableEq, Repr

def Direction.name : Direction → String
  | .marshal => "marshal"
  | .unmarshal => "unmarshal"

inductive Error where
  /-- A text is no document, value or type. -/
  | unreadable
  /-- A document starts with something else than an operation or a fragment. -/
  | notExecutable (kind : String)
  /-- A configuration holds something of the wrong kind. -/
  | badConfiguration
  /-- Directives name lists wrongly. -/
  | naming (errors : List DocumentError)
  /-- A paginated field in an operation that is no query. -/
  | paginatedOutsideQuery (directive : String)
  /-- A list field without a selection to copy. -/
  | listWithoutSelection (list : String)
  /-- A list whose members have a type that does not exist. -/
  | listOfUnknownType (list : String)
  | unknownFragment (name : String)
  /-- Fragments spread each other in a circle. -/
  | endlessSpread
  | noDefinition (document : String)
  | noRootType (document : String)
  | noField (type field : String)
  /-- A field below a type that does not exist. -/
  | fieldBelowUnknownType (field : String)
  /-- A pagination argument, or the mark of a connection, that is null, a list, an object or a
  variable. -/
  | noSingleValue
  /-- A text that is no number. -/
  | badNumber (text : String)
  /-- The type of a fragment does not exist or has no fields. -/
  | noFields (type : String)
  /-- The type of a fragment lacks a field that identifies its records. -/
  | noKeyField (type key : String)
  /-- Arguments on a field of an input object. -/
  | argumentsOnInput (field : String)
  /-- A list or an object where a key is needed. -/
  | notAKey
  /-- Something of more or less than two parts where a pair is needed. -/
  | notAPair
  /-- Something without parts where a table or a pair is needed. -/
  | notATable
  | missingConverter (scalar : String) (direction : Direction)
  /-- Something else where an object is needed. -/
  | notAnObject
  /-- A scalar function got something it has no use for. -/
  | wrongOperand
  /-- A scalar function got something that is no text. -/
  | notText
  /-- A text that is no date, moment or identifier. -/
  | badText
  deriving Repr

/-- The message of an error, where it has one of its own. -/
def Error.message : Error → String
  | .notExecutable kind => "Expected an operation or fragment, found " ++ kind
  | .naming errors => String.intercalate "; " (errors.map DocumentError.display)
  | .paginatedOutsideQuery directive =>
    "@" ++ directive ++ " can only show up in a query or fragment document"
  | .listWithoutSelection list => "List " ++ list ++ " must have a selection"
  | .unknownFragment name => "Unknown fragment: " ++ name
  | .noDefinition document => "Document " ++ document ++ " has no operation or fragment"
  | .noRootType document => "Could not find the root type of " ++ document
  | .noField type field => "Type " ++ type ++ " has no field " ++ field
  | .missingConverter scalar direction =>
    "Scalar type " ++ scalar ++ " is missing a \x60" ++ direction.name ++ "\x60 function"
  | _ => ""

end QueryCompiler
