import QueryCompiler.Pagination.Hoist
import QueryCompiler.Document.Basic
/-
# Refetch queries

A paginated fragment gets a query that loads another page of it.  The query declares the
arguments in use and hands them to the fragment through the directive for fragment variables.
A fragment on the type of queries is spread directly; any other one is spread under the field
that looks its record up, and the query also declares the keys of that record.
-/
namespace QueryCompiler

/-- The type that a refetch query loads: the interface of all records where the fragment's type
implements it. -/
def refetchTargetType (c : Config) (fragmentType : String) : String :=
  if fragmentType.isEmpty then c.queryTypeName
  else
    match c.schema.type? "Node", c.schema.type? fragmentType with
    | some node, some candidate =>
      if c.schema.isSubType node candidate then "Node" else fragmentType
    | _, _ => fragmentType

/-- The first argument in use of those that hold a page size, with the one that holds the start
of the page. -/
def Flags.pageArguments (flags : Flags) : Option (PageArgument × PageArgument) :=
  [(PageArgument.first, PageArgument.after), (.last, .before), (.limit, .offset)].find?
    fun (size, _) => (flags size).enabled

/-- How a document with these flags is refetched.  Without an argument for the size of a page
the size is zero. -/
def Flags.refetch (flags : Flags) (path : List String) (embedded : Bool) (targetType : String) :
    Refetch :=
  let byCursor := (flags .first).enabled || (flags .last).enabled
  { update := if (flags .last).enabled then .prepend else .append
    path
    method := if byCursor then .cursor else .offset
    pageSize := match flags.pageArguments with
      | some (size, _) => (flags size).defaultValue
      | none => .int 0
    start := match flags.pageArguments with
      | some (_, start) => (flags start).defaultValue
      | none => .null
    embedded
    targetType }

/-- The declaration of a key of a record as a variable of the key's own type. -/
def keyVariable (s : Schema) (type key : String) : Except Error VariableDefinition :=
  match (s.type? type).bind (·.fields?) with
  | none => .error (.noFields type)
  | some fields =>
    match fields.find? (·.name = key) with
    | none => .error (.noKeyField type key)
    | some f =>
      .ok { description := none, name := key, type := f.type, defaultValue := none,
            directives := [] }

/-- The query that refetches a fragment. -/
def refetchQuery (c : Config) (flags : Flags) (target : RefetchTarget) :
    Except Error (List Definition) := do
  let spread := Selection.spread target.fragment
    [plainDirective c.withDirective (flags.enabled.map fun a => variableArgument a.name)]
  let pageVariables := flags.enabled.map flags.variable
  let query (declarations : List VariableDefinition) (selections : List Selection) :
      List Definition :=
    [.operation { description := none, kind := .query, name := some target.query, declarations,
                  directives := [], selections }]
  if target.embedded then
    let keys := c.keyFields target.type
    let keyVariables ← keys.mapM (keyVariable c.schema target.type)
    let lookup : FieldHead :=
      { label := none, name := c.lookupField target.type, arguments := keys.map variableArgument,
        directives := [] }
    return query (pageVariables ++ keyVariables) [.field lookup [spread]]
  else return query pageVariables [spread]

end QueryCompiler
