import QueryCompiler.Schema.Definitions
import QueryCompiler.Datum.Basic
import QueryCompiler.Error
/-
# Configuration

The schema, the names of the directives that steer the compilation, and the naming conventions
of what is generated.  `Config.read` takes the settings from an object and refuses one of the
wrong kind.
-/
namespace QueryCompiler

/-- The end of a list where new members go. -/
inductive ListPosition where
  | first
  | last
  deriving DecidableEq, Repr

def ListPosition.name : ListPosition → String
  | .first => "first"
  | .last => "last"

/-- How the records of one type are looked up. -/
structure TypeSettings where
  keys : Option (List String)
  lookupField : Option String
  deriving Repr

structure Config where
  schema : Schema
  /-- The text of the definitions that the last list pass generated. -/
  newSchema : String
  paginateDirective : String
  listDirective : String
  argumentsDirective : String
  withDirective : String
  prependDirective : String
  appendDirective : String
  parentIdDirective : String
  whenDirective : String
  whenNotDirective : String
  defaultKeys : List String
  types : Table String TypeSettings
  defaultPosition : ListPosition
  deriving Repr

namespace Config

/-! ## 1. Names -/

/-- The name of the type that queries start at. -/
def queryTypeName (c : Config) : String := c.schema.query.getD ""

def paginationQueryName (_ : Config) (fragment : String) : String := fragment ++ "_Pagination_Query"

def insertFragment (_ : Config) (list : String) : String := list ++ "_insert"

def toggleFragment (_ : Config) (list : String) : String := list ++ "_toggle"

def removeFragment (_ : Config) (list : String) : String := list ++ "_remove"

def deleteDirective (_ : Config) (type : String) : String := type ++ "_delete"

/-- The fields that identify a record of a type: those set for it, if there are any. -/
def keyFields (c : Config) (type : String) : List String :=
  match (Table.get? c.types type).bind (·.keys) with
  | some (key :: keys) => key :: keys
  | _ => c.defaultKeys

/-- The root field that looks up a record of a type. -/
def lookupField (c : Config) (type : String) : String :=
  match (Table.get? c.types type).bind (·.lookupField) with
  | some field => if field.isEmpty then "node" else field
  | none => "node"

/-- The directives that only steer the compilation and are never sent. -/
def internalDirectives (c : Config) : List String :=
  [c.paginateDirective, c.listDirective, c.argumentsDirective, c.withDirective, c.prependDirective,
   c.appendDirective, c.parentIdDirective, c.whenDirective, c.whenNotDirective]

def isInternal (c : Config) (directive : String) : Bool := directive ∈ c.internalDirectives

/-! ## 2. Reading -/

/-- A setting: its default when it is missing, and an error when `read` does not take it. -/
def setting {α : Type} (rows : List (Datum × Datum)) (name : String) (missing : α)
    (read : Datum → Option α) : Except Error α :=
  match Datum.field? rows name with
  | none => .ok missing
  | some d =>
    match read d with
    | some a => .ok a
    | none => .error .badConfiguration

def readText : Datum → Option String
  | .text s => some s
  | _ => none

def readTexts : Datum → Option (List String)
  | .list items => items.mapM readText
  | _ => none

/-- A setting that may be null. -/
def readOptional {α : Type} (read : Datum → Option α) : Datum → Option (Option α)
  | .null => some none
  | d => (read d).map some

def readPosition : Datum → Option ListPosition
  | .text "first" => some .first
  | .text "last" => some .last
  | _ => none

def readTypeSettings : Datum → Option TypeSettings
  | .object rows => do
    let keys ← match Datum.field? rows "keys" with
      | some d => readOptional readTexts d
      | none => some none
    let lookupField ← match Datum.field? rows "resolve_query_field" with
      | some d => readOptional readText d
      | none => some none
    return { keys, lookupField }
  | _ => none

def readTypes : Datum → Option (Table String TypeSettings)
  | .object rows => rows.mapM fun (key, value) => do
    return (← readText key, ← readTypeSettings value)
  | _ => none

/-- The configuration of a schema and an object of settings.  Settings without a meaning are
left alone. -/
def read (schema : Schema) (rows : List (Datum × Datum)) : Except Error Config := do
  let text (name missing : String) : Except Error String := setting rows name missing readText
  return {
    schema
    newSchema := ← text "new_schema" ""
    paginateDirective := ← text "paginate_directive" "paginate"
    listDirective := ← text "list_directive" "list"
    argumentsDirective := ← text "arguments_directive" "arguments"
    withDirective := ← text "with_directive" "with"
    prependDirective := ← text "prepend_directive" "prepend"
    appendDirective := ← text "append_directive" "append"
    parentIdDirective := ← text "parent_id_directive" "parentID"
    whenDirective := ← text "when_directive" "when"
    whenNotDirective := ← text "when_not_directive" "when_not"
    defaultKeys := ← setting rows "default_keys" ["id"] readTexts
    types := ← setting rows "type_config" [] readTypes
    defaultPosition := ← setting rows "default_list_position" .last readPosition }

end Config

end QueryCompiler
