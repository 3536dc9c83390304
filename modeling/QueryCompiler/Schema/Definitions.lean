import QueryCompiler.Schema.Introspection
/-
# The schema that definitions describe

Types are defined and extended; an extension adds at the end.  Operations start at the types
that a schema definition names, or without one at those called `Query`, `Mutation` and
`Subscription`.
-/
namespace QueryCompiler.Schema

/-! ## 1. Types -/

def SchemaField.ofDefinition (f : FieldDefinition) : SchemaField :=
  { name := f.name, arguments := some (f.arguments.map fun a => (a.name, a.type)), type := f.type }

def SchemaField.ofInput (v : InputValueDefinition) : SchemaField :=
  { name := v.name, arguments := none, type := v.type }

/-- The body of a type with what an extension adds. -/
def extended : TypeBody → TypeBody → TypeBody
  | .object interfaces fields, .object more others =>
    .object (interfaces ++ more) (fields ++ others)
  | .interface interfaces fields, .interface more others =>
    .interface (interfaces ++ more) (fields ++ others)
  | .union members, .union others => .union (members ++ others)
  | .enumeration values, .enumeration others => .enumeration (values ++ others)
  | .inputObject fields, .inputObject others => .inputObject (fields ++ others)
  | body, _ => body

/-- A named type of a body. -/
def ofBody (name : String) : TypeBody → NamedType
  | .scalar => .scalar name
  | .object interfaces fields => .object name interfaces (fields.map SchemaField.ofDefinition)
  | .interface interfaces fields => .interface name interfaces (fields.map SchemaField.ofDefinition)
  | .union members => .union name members
  | .enumeration _ => .enumeration name
  | .inputObject fields => .inputObject name (fields.map SchemaField.ofInput)

def typeDefinitions (definitions : List Definition) : List TypeDefinition :=
  definitions.filterMap fun
    | .type t => some t
    | _ => none

def schemaDefinitions (definitions : List Definition) : List SchemaDefinition :=
  definitions.filterMap fun
    | .schema s => some s
    | _ => none

/-- The types that definitions describe. -/
def describedTypes (definitions : List Definition) : List NamedType :=
  let types := typeDefinitions definitions
  (types.filter (!·.extension)).map fun t =>
    ofBody t.name ((types.filter fun e => e.extension && e.name = t.name).foldl
      (fun body e => extended body e.body) t.body)

/-! ## 2. Built-in scalars -/

/-- The names that the fields of a type refer to. -/
def referredTo (t : NamedType) : List String :=
  (t.fields?.getD []).flatMap fun f =>
    f.type.base :: (f.arguments.getD []).map fun a => a.2.base

/-- The names that the arguments of directives refer to. -/
def referredToByDirectives (definitions : List Definition) : List String :=
  definitions.flatMap fun
    | .directive d => d.arguments.map (·.type.base)
    | _ => []

/-- The built-in scalars of a schema with these types. -/
def builtInScalars (types : List NamedType) (others : List String) : List NamedType :=
  let used := types.flatMap referredTo ++ others ++ types.map NamedType.name
  (introspectionScalars ++ optionalScalars.filter (· ∈ used)).map NamedType.scalar

/-! ## 3. Roots -/

/-- The type that schema definitions name for a kind of operation. -/
def namedRoot? (schemas : List SchemaDefinition) (kind : OperationKind) : Option String :=
  ((schemas.flatMap (·.roots)).filter (·.1 = kind)).getLast?.map (·.2)

/-- The type that operations of a kind start at when no schema definition says so. -/
def defaultRoot : OperationKind → String
  | .query => "Query"
  | .mutation => "Mutation"
  | .subscription => "Subscription"

/-- The schema that definitions describe. -/
def ofDefinitions (definitions : List Definition) : Schema :=
  let described := describedTypes definitions
  let schemas := schemaDefinitions definitions
  let root (kind : OperationKind) : Option String :=
    if schemas.any (!·.extension) then namedRoot? schemas kind
    else if described.any (·.name = defaultRoot kind) then some (defaultRoot kind)
    else namedRoot? schemas kind
  { types := introspectionTypes ++ builtInScalars described (referredToByDirectives definitions)
      ++ described
    query := root .query
    mutation := root .mutation
    subscription := root .subscription }

end QueryCompiler.Schema
