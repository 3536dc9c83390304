import QueryCompiler.Datum.Literal
import QueryCompiler.Language.Printer
import QueryCompiler.Schema.Basic
/-
# Arguments in a compiled selection

An argument is recorded twice: described by its kind and its datum, and printed as a part of the
key under which the field is cached.

* `Value.describe` keeps a variable by its name.  Inside a list or an object a variable
  is undefined.
* `cacheKey` prints the arguments in the order in which the schema declares them, so that the
  key does not depend on the order at the call.
-/
namespace QueryCompiler

/-! ## 1. Descriptions -/

inductive ValueKind where
  | variable
  | int
  | float
  | string
  | boolean
  | enumeration
  | null
  | list
  | object
  deriving DecidableEq, Repr

def ValueKind.name : ValueKind → String
  | .variable => "Variable"
  | .int => "Int"
  | .float => "Float"
  | .string => "String"
  | .boolean => "Boolean"
  | .enumeration => "Enum"
  | .null => "Null"
  | .list => "List"
  | .object => "Object"

/-- The value of an argument by its kind and its datum. -/
structure ValueDescriptor where
  kind : ValueKind
  value : Datum
  deriving Repr

def ValueDescriptor.toDatum (d : ValueDescriptor) : Datum :=
  .record [("kind", .text d.kind.name), ("value", d.value)]

/-- The description of a value. -/
def Value.describe : Value → Except Error ValueDescriptor
  | .variable name => .ok ⟨.variable, .text name⟩
  | .int text => return ⟨.int, ← intDatum text⟩
  | .float text => return ⟨.float, ← floatDatum text⟩
  | .string text _ => .ok ⟨.string, .text text⟩
  | .boolean value => .ok ⟨.boolean, .bool value⟩
  | .null => .ok ⟨.null, .null⟩
  | .enumeration name => .ok ⟨.enumeration, .text name⟩
  | .list items => .ok ⟨.list, (Value.list items).datum⟩
  | .object fields => .ok ⟨.object, (Value.object fields).datum⟩

/-- The descriptions of arguments by name, of several under one name the last. -/
def describeArguments (arguments : List Argument) :
    Except Error (Table String ValueDescriptor) := do
  let rows ← arguments.mapM fun a => do return (a.name, ← a.value.describe)
  return Table.ofRows rows

/-! ## 2. Cache keys -/

/-- Arguments in the order of some names.  Those without a place in it stay behind the others as
they were. -/
def inOrder (order : List String) (arguments : List Argument) : List Argument :=
  arguments.mergeSort fun a b => order.idxOf a.name ≤ order.idxOf b.name

/-- A field with its arguments as they are cached. -/
def printedCall (name : String) (arguments : List Argument) : String :=
  name ++ "(" ++ String.intercalate ", " (arguments.map Argument.print) ++ ")"

/-- The key under which a field is cached: its name and its arguments, in the order of the
field's definition where there is one. -/
def cacheKey (head : FieldHead) (definition : Option SchemaField) : Except Error String :=
  match head.arguments, definition with
  | [], _ => .ok head.name
  | arguments, none => .ok (printedCall head.name arguments)
  | arguments, some f =>
    match f.arguments with
    | some declared => .ok (printedCall head.name (inOrder (Table.keys declared) arguments))
    | none => .error (.argumentsOnInput head.name)

end QueryCompiler
