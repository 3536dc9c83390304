import QueryCompiler.Datum.Literal
/-
# Parts of documents

Looking up directives and arguments by name, and the parts that are put into documents:
references to variables, declarations with defaults, and the page information that a connection
needs.
-/
namespace QueryCompiler

/-! ## 1. Looking up -/

/-- The first directive called `name`. -/
def directive? (directives : List Directive) (name : String) : Option Directive :=
  directives.find? (·.name = name)

/-- The first argument called `name`. -/
def argument? (arguments : List Argument) (name : String) : Option Argument :=
  arguments.find? (·.name = name)

/-- Whether some directive is called `name`. -/
def hasDirective (directives : List Directive) (name : String) : Bool :=
  (directive? directives name).isSome

/-! ## 2. Building -/

/-- A field with nothing but a name and selections. -/
def plainField (name : String) (selections : List Selection) : Selection :=
  .field { label := none, name, arguments := [], directives := [] } selections

/-- A directive that no text contained. -/
def plainDirective (name : String) (arguments : List Argument) : Directive :=
  { name, arguments, origin := none }

/-- The argument `name: $name`. -/
def variableArgument (name : String) : Argument := { name, value := .variable name }

/-- The declaration of the variable `name` of a named type. -/
def variableDeclaration (name type : String) (defaultValue : Datum) : VariableDefinition :=
  { description := none, name, type := .named type, defaultValue := defaultValue.defaultLiteral,
    directives := [] }

/-- The declaration of the fragment argument `name`: an object of its type and its default. -/
def argumentDeclaration (name type : String) (defaultValue : Datum) : Argument :=
  { name, value := .object (("type", .string type false) ::
      match defaultValue.defaultLiteral with
      | some value => [("default", value)]
      | none => []) }

/-- The name of the field that tells the type of a record. -/
def typenameField : String := "__typename"

/-- What a connection has to select: the cursors and types of its members, and the state of the
page. -/
def pageInfo : List Selection :=
  [ plainField "edges" [
      plainField "cursor" [],
      plainField "node" [plainField typenameField []]],
    plainField "pageInfo" [
      plainField "hasPreviousPage" [],
      plainField "hasNextPage" [],
      plainField "startCursor" [],
      plainField "endCursor" []] ]

end QueryCompiler
