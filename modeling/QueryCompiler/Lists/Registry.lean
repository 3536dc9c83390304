import QueryCompiler.Config
import QueryCompiler.Table
/-
# The table of named lists

Every list has a name, under which mutations edit it.  What is generated for a list is named
after it, and the registry reads such a name back (`Registry.operation?`,
`Registry.deletedType?`).

A list may be registered for a type that does not exist.  It keeps its name; what needs the type
of its members fails.
-/
namespace QueryCompiler

/-- A field registered as a list. -/
structure ListDefinition where
  name : String
  /-- What the list selects of its members; empty when the field selects nothing. -/
  selections : List Selection
  /-- The type of the members, if it exists. -/
  type : Option NamedType
  filename : String
  connection : Bool
  /-- The arguments of the field with the names of their types. -/
  arguments : Table String String
  deriving Repr

/-- The named type of an argument of the list's field.  Any key may be asked for. -/
def ListDefinition.argumentType (l : ListDefinition) (argument : Datum) :
    Except Error (Option String) :=
  match argument with
  | .text name => .ok (Table.get? l.arguments name)
  | key => if key.isKey then .ok none else .error .notAKey

/-- What a generated fragment does to its list. -/
inductive ListAction where
  | insert
  | toggle
  | remove
  | delete
  deriving DecidableEq, Repr

def ListAction.name : ListAction → String
  | .insert => "insert"
  | .toggle => "toggle"
  | .remove => "remove"
  | .delete => "delete"

/-- All lists, in the order in which their names first came. -/
abbrev Registry := Table String ListDefinition

namespace Registry

def register (r : Registry) (definition : ListDefinition) : Registry :=
  Table.insert r definition.name definition

/-- The list and the action of a generated fragment. -/
def operation? (c : Config) (r : Registry) (fragment : String) : Option (String × ListAction) :=
  (Table.keys r).findSome? fun name =>
    if fragment = c.insertFragment name then some (name, .insert)
    else if fragment = c.toggleFragment name then some (name, .toggle)
    else if fragment = c.removeFragment name then some (name, .remove)
    else none

/-- The object types that some list has for members, each once. -/
def targetTypes (r : Registry) : List String :=
  (r.filterMap fun (_, definition) => definition.type).foldl (fun names type =>
    if type.isObject && type.name ∉ names then names ++ [type.name] else names) []

/-- The type whose records a directive deletes. -/
def deletedType? (c : Config) (r : Registry) (directive : String) : Option String :=
  r.targetTypes.find? fun type => directive = c.deleteDirective type

/-- The named type of an argument of the first list with members of type `target` that declares
the argument. -/
def firstArgumentType (argument : Datum) (target : Option String) :
    Registry → Except Error (Option String)
  | [] => .ok none
  | (name, definition) :: r =>
    match definition.type with
    | none => .error (.listOfUnknownType name)
    | some type =>
      if some type.name = target then
        match definition.argumentType argument with
        | .ok none => firstArgumentType argument target r
        | found => found
      else firstArgumentType argument target r

/-- The named type of an argument of a list's field.  Without the name of a list, the first one
with members of type `target` that declares the argument is meant. -/
def argumentType (r : Registry) (list : Option String) (argument : Datum)
    (target : Option String) : Except Error (Option String) :=
  match list with
  | none => firstArgumentType argument target r
  | some name =>
    match Table.get? r name with
    | none => .ok none
    | some definition => definition.argumentType argument

end Registry

end QueryCompiler
