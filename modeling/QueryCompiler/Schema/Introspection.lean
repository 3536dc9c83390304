import QueryCompiler.Schema.Basic
/-
# Introspection

The types by which a schema describes itself.  Every schema has them, and the two scalars they
need.
-/
namespace QueryCompiler.Schema

/-- The shape `[name!]`. -/
def someOf (name : String) : TypeRef := .list (.nonNull (.named name))

/-- The shape `[name!]!`. -/
def allOf (name : String) : TypeRef := .nonNull (someOf name)

/-- A field without arguments. -/
def plainField (name : String) (type : TypeRef) : SchemaField :=
  { name, arguments := some [], type }

/-- A field whose argument of type `choice` says whether it lists what is deprecated. -/
def choosingField (choice : TypeRef) (name : String) (type : TypeRef) : SchemaField :=
  { name, arguments := some [("includeDeprecated", choice)], type }

/-- A field that may list what is deprecated; the choice may be left open by a null. -/
def listingField : String → TypeRef → SchemaField := choosingField (.named "Boolean")

def textField (name : String) : SchemaField := plainField name (.named "String")

def nameField : SchemaField := plainField "name" (.nonNull (.named "String"))

/-- The fields of what can be deprecated. -/
def deprecationFields : List SchemaField :=
  [plainField "isDeprecated" (.nonNull (.named "Boolean")), textField "deprecationReason"]

def introspectionTypes : List NamedType :=
  [ .object "__Schema" [] [
      textField "description",
      plainField "types" (allOf "__Type"),
      plainField "queryType" (.nonNull (.named "__Type")),
      plainField "mutationType" (.named "__Type"),
      plainField "subscriptionType" (.named "__Type"),
      choosingField (.nonNull (.named "Boolean")) "directives" (allOf "__Directive")],
    .object "__Directive" [] ([
      nameField,
      textField "description",
      plainField "isRepeatable" (.nonNull (.named "Boolean")),
      plainField "locations" (allOf "__DirectiveLocation"),
      listingField "args" (allOf "__InputValue")] ++ deprecationFields),
    .enumeration "__DirectiveLocation",
    .object "__Type" [] [
      plainField "kind" (.nonNull (.named "__TypeKind")),
      textField "name",
      textField "description",
      textField "specifiedByURL",
      listingField "fields" (someOf "__Field"),
      plainField "interfaces" (someOf "__Type"),
      plainField "possibleTypes" (someOf "__Type"),
      listingField "enumValues" (someOf "__EnumValue"),
      listingField "inputFields" (someOf "__InputValue"),
      plainField "ofType" (.named "__Type"),
      plainField "isOneOf" (.named "Boolean")],
    .object "__Field" [] ([
      nameField,
      textField "description",
      listingField "args" (allOf "__InputValue"),
      plainField "type" (.nonNull (.named "__Type"))] ++ deprecationFields),
    .object "__InputValue" [] ([
      nameField,
      textField "description",
      plainField "type" (.nonNull (.named "__Type")),
      textField "defaultValue"] ++ deprecationFields),
    .object "__EnumValue" [] ([nameField, textField "description"] ++ deprecationFields),
    .enumeration "__TypeKind" ]

/-- The scalars that introspection needs. -/
def introspectionScalars : List String := ["String", "Boolean"]

/-- The scalars a schema has only when something refers to them. -/
def optionalScalars : List String := ["Int", "Float", "ID"]

end QueryCompiler.Schema
