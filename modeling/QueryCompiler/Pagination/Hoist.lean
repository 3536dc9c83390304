import QueryCompiler.Pagination.Flags
import QueryCompiler.Language.Directives
import QueryCompiler.Config
/-
# Hoisting

The variables of a paginated field have to be declared by what holds it.  A query declares them
as variables of its own.  A fragment cannot; it declares them in its arguments directive, which
it gains when it has none, and the query that refetches the fragment declares them.
-/
namespace QueryCompiler

/-! ## 1. Declarations -/

/-- The declaration of an argument as a variable. -/
def Flags.variable (flags : Flags) (a : PageArgument) : VariableDefinition :=
  variableDeclaration a.name a.typeName (flags a).defaultValue

/-- The variables of an operation with those in use that it does not declare yet.  Of several
declarations of one variable the last one counts. -/
def hoistVariables (flags : Flags) (declarations : List VariableDefinition) :
    List VariableDefinition :=
  let declared := Table.ofRows (declarations.map fun v => (v.name, v))
  declared.map (·.2) ++
    (flags.enabled.filter fun a => !Table.contains declared a.name).map flags.variable

/-- A list of directives whose arguments directives also declare the arguments in use. -/
def hoistArguments (c : Config) (flags : Flags) (directives : List Directive) : List Directive :=
  directives.map fun d =>
    if d.name = c.argumentsDirective then
      { d with arguments := d.arguments ++
          (flags.enabled.filter fun a => d.arguments.all (·.name ≠ a.name)).map fun a =>
            argumentDeclaration a.name a.typeName (flags a).defaultValue }
    else d

/-- The directives of a fragment, an arguments directive among them. -/
def withArgumentsDirective (c : Config) (directives : List Directive) : List Directive :=
  if hasDirective directives c.argumentsDirective then directives
  else directives ++ [plainDirective c.argumentsDirective []]

/-- The definition with the arguments in use declared. -/
def hoistDefinition (c : Config) (flags : Flags) : Definition → Except Error Definition
  | .operation o =>
    if o.kind = .query then
      .ok (.operation (Operation.mapDirectives (hoistArguments c flags)
        { o with declarations := hoistVariables flags o.declarations }))
    else .error (.paginatedOutsideQuery c.paginateDirective)
  | .fragment f =>
    .ok (.fragment (Fragment.mapDirectives (hoistArguments c flags)
      { f with directives := withArgumentsDirective c f.directives }))
  | d => .ok (d.mapDirectives (hoistArguments c flags))

/-! ## 2. What is refetched -/

/-- What the refetch query of a document has to load. -/
structure RefetchTarget where
  /-- The name of the query. -/
  query : String
  /-- The fragment and its type; empty when the document is a query, which is refetched as it
  is. -/
  fragment : String
  type : String
  /-- Whether the fragment has to be looked up, because it is not on the type of queries. -/
  embedded : Bool
  deriving Repr

/-- The target after one more definition. -/
def RefetchTarget.next (c : Config) (target : RefetchTarget) : Definition → RefetchTarget
  | .operation o => { target with query := o.name.getD "" }
  | .fragment f =>
    { query := c.paginationQueryName f.name, fragment := f.name, type := f.condition,
      embedded := f.condition ≠ c.queryTypeName }
  | _ => target

/-- The target that the definitions of a document make up. -/
def RefetchTarget.of (c : Config) (definitions : List Definition) : RefetchTarget :=
  definitions.foldl (RefetchTarget.next c)
    { query := "", fragment := "", type := "", embedded := false }

end QueryCompiler
