/-
# Documents as trees

The definitions a GraphQL text can hold: operations and fragments, whose selections nest, and
the definitions of a type system.

A selection set is the list of its selections.  No text has an empty one, so a field without
selections is a leaf; that is how `Selection.field` says that a field has no selection set.
Only directives remember where they stood (`Directive.origin`), because only directives are
pointed at by an error.
-/
namespace QueryCompiler

/-! ## 1. Types and values -/

/-- A reference to a type: a name under list and non-null wrappers. -/
inductive TypeRef where
  | named (name : String)
  | list (item : TypeRef)
  | nonNull (inner : TypeRef)
  deriving DecidableEq, Repr, Inhabited

/-- The name under all wrappers. -/
def TypeRef.base : TypeRef → String
  | .named name => name
  | .list item => item.base
  | .nonNull inner => inner.base

/-- A value as written.  Numbers keep their text; a string knows whether it was written as a
block. -/
inductive Value where
  | variable (name : String)
  | int (text : String)
  | float (text : String)
  | string (text : String) (block : Bool)
  | boolean (value : Bool)
  | null
  | enumeration (name : String)
  | list (items : List Value)
  | object (fields : List (String × Value))
  deriving Repr, Inhabited

structure Argument where
  name : String
  value : Value
  deriving Repr, Inhabited

/-- Where a piece of a text stood: the text, and the count of characters before it. -/
structure Origin where
  source : String
  offset : Nat
  deriving DecidableEq, Repr

structure Directive where
  name : String
  arguments : List Argument
  /-- Missing on directives that no text contained. -/
  origin : Option Origin
  deriving Repr

/-! ## 2. Selections -/

/-- What a field says before its selection set. -/
structure FieldHead where
  label : Option String
  name : String
  arguments : List Argument
  directives : List Directive
  deriving Repr

/-- The key a response files the field under. -/
def FieldHead.responseKey (head : FieldHead) : String := head.label.getD head.name

inductive Selection where
  | field (head : FieldHead) (selections : List Selection)
  | spread (name : String) (directives : List Directive)
  | inline (condition : Option String) (directives : List Directive) (selections : List Selection)
  deriving Repr

/-! ## 3. Executable definitions -/

/-- A description is a string value; it keeps the form it was written in. -/
structure Description where
  text : String
  block : Bool
  deriving DecidableEq, Repr

inductive OperationKind where
  | query
  | mutation
  | subscription
  deriving DecidableEq, Repr

/-- The keyword of an operation. -/
def OperationKind.keyword : OperationKind → String
  | .query => "query"
  | .mutation => "mutation"
  | .subscription => "subscription"

structure VariableDefinition where
  description : Option Description
  name : String
  type : TypeRef
  defaultValue : Option Value
  directives : List Directive
  deriving Repr

structure Operation where
  description : Option Description
  kind : OperationKind
  name : Option String
  declarations : List VariableDefinition
  directives : List Directive
  selections : List Selection
  deriving Repr

structure Fragment where
  description : Option Description
  name : String
  condition : String
  directives : List Directive
  selections : List Selection
  deriving Repr

/-! ## 4. Type system definitions -/

structure InputValueDefinition where
  description : Option Description
  name : String
  type : TypeRef
  defaultValue : Option Value
  directives : List Directive
  deriving Repr

structure FieldDefinition where
  description : Option Description
  name : String
  arguments : List InputValueDefinition
  type : TypeRef
  directives : List Directive
  deriving Repr

structure EnumValueDefinition where
  description : Option Description
  name : String
  directives : List Directive
  deriving Repr

/-- What follows the name and the directives of a type. -/
inductive TypeBody where
  | scalar
  | object (interfaces : List String) (fields : List FieldDefinition)
  | interface (interfaces : List String) (fields : List FieldDefinition)
  | union (members : List String)
  | enumeration (values : List EnumValueDefinition)
  | inputObject (fields : List InputValueDefinition)
  deriving Repr

structure TypeDefinition where
  /-- Whether it extends a type defined elsewhere. -/
  extension : Bool
  description : Option Description
  name : String
  directives : List Directive
  body : TypeBody
  deriving Repr

structure SchemaDefinition where
  extension : Bool
  description : Option Description
  directives : List Directive
  roots : List (OperationKind × String)
  deriving Repr

structure DirectiveDefinition where
  description : Option Description
  name : String
  arguments : List InputValueDefinition
  repeatable : Bool
  locations : List String
  deriving Repr

inductive Definition where
  | operation (operation : Operation)
  | fragment (fragment : Fragment)
  | schema (schema : SchemaDefinition)
  | type (type : TypeDefinition)
  | directive (directive : DirectiveDefinition)
  deriving Repr

/-- The name of a kind of definition. -/
def Definition.kindName : Definition → String
  | .operation _ => "operation_definition"
  | .fragment _ => "fragment_definition"
  | .schema s => if s.extension then "schema_extension" else "schema_definition"
  | .directive _ => "directive_definition"
  | .type t =>
    (match t.body with
      | .scalar => "scalar_type"
      | .object .. => "object_type"
      | .interface .. => "interface_type"
      | .union _ => "union_type"
      | .enumeration _ => "enum_type"
      | .inputObject _ => "input_object_type")
    ++ (if t.extension then "_extension" else "_definition")

/-- The fragments among some definitions. -/
def fragmentsOf (definitions : List Definition) : List Fragment :=
  definitions.filterMap fun
    | .fragment f => some f
    | _ => none

end QueryCompiler
