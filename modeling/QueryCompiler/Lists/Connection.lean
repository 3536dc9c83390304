import QueryCompiler.Schema.Ancestor
import QueryCompiler.Error
/-
# Connections

A list field is a connection when it pages by cursor, selects `edges { node { … } }`, and its
type has a list of edges with a node each.  The members of the list are then the nodes;
otherwise they are what the field itself holds.
-/
namespace QueryCompiler

/-- The members of a list field: what is selected of them and their type. -/
structure Members where
  selections : List Selection
  type : NamedType
  connection : Bool
  deriving Repr

/-- The selections of the first field called `name`, whatever its label. -/
def selectionsOf? (selections : List Selection) (name : String) : Option (List Selection) :=
  selections.findSome? fun
    | .field head below => if head.name = name then some below else none
    | _ => none

/-- Whether a type is a list, perhaps one that is never null. -/
def TypeRef.isList : TypeRef → Bool
  | .list _ => true
  | .nonNull (.list _) => true
  | _ => false

/-- Whether arguments of these types page by cursor in one of the two directions. -/
def pagesByCursor (arguments : Table String String) : Bool :=
  (Table.get? arguments "first" = some "Int" && Table.get? arguments "after" = some "String")
    || (Table.get? arguments "last" = some "Int" && Table.get? arguments "before" = some "String")

/-- The arguments of a field with the names of their types. -/
def argumentTypes (f : SchemaField) : Except Error (Table String String) :=
  match f.arguments with
  | some arguments => .ok (arguments.map fun (name, type) => (name, type.base))
  | none => .error (.argumentsOnInput f.name)

/-- The type of the nodes of a type with edges. -/
def nodeType? (s : Schema) (type : NamedType) : Option NamedType := do
  let edges ← type.field? "edges"
  if !TypeRef.isList edges.type then none
  let node ← (← s.fieldType? edges).field? "node"
  s.fieldType? node

/-- The nodes that a field selects, if it does. -/
def selectedNodes? (selections : List Selection) : Option (List Selection) :=
  match (selectionsOf? selections "edges").bind (selectionsOf? · "node") with
  | some (s :: below) => some (s :: below)
  | _ => none

/-- The members of a field of a type with these selections. -/
def members (s : Schema) (f : SchemaField) (type : NamedType) (selections : List Selection) :
    Except Error Members := do
  let itself : Members := { selections, type, connection := false }
  if !pagesByCursor (← argumentTypes f) then return itself
  match selectedNodes? selections, nodeType? s type with
  | some nodes, some node => return { selections := nodes, type := node, connection := true }
  | _, _ => return itself

/-- The definition and the members of the field called `name` below some ancestors, when it has
a definition. -/
def membersAt (s : Schema) (ancestors : List Ancestor) (name : String)
    (selections : List Selection) : Except Error (Option (SchemaField × Members)) :=
  match s.fieldAt ancestors name with
  | none => .ok none
  | some f =>
    match s.fieldType? f with
    | none => .ok none
    | some type => do return some (f, ← members s f type selections)

end QueryCompiler
