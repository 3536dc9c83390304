import QueryCompiler.Lists.Registry
import QueryCompiler.Language.Build
import QueryCompiler.Error
/-
# What is generated for lists

Every list gets three fragments: one inserts a record, one puts it in or takes it out, one
removes it.  All of them select the `id` of the record.  Every object type that some list has
for members gets a directive by which a mutation deletes a record from all lists.
-/
namespace QueryCompiler

/-- Whether a field called `id` is selected. -/
def selectsId (selections : List Selection) : Bool :=
  selections.any fun
    | .field head _ => head.name = "id"
    | _ => false

/-- The field that identifies a record. -/
def idField : Selection := plainField "id" []

def generatedFragment (name type : String) (selections : List Selection) : Definition :=
  .fragment { description := none, name, condition := type, directives := [], selections }

/-- The fragments of a list. -/
def listFragments (c : Config) (name : String) (l : ListDefinition) :
    Except Error (List Definition) :=
  if l.selections.isEmpty then .error (.listWithoutSelection name)
  else
    match l.type with
    | none => .error (.listOfUnknownType name)
    | some type =>
      let selections := if selectsId l.selections then l.selections else l.selections ++ [idField]
      .ok [generatedFragment (c.insertFragment name) type.name selections,
        generatedFragment (c.toggleFragment name) type.name (selections ++ [idField]),
        generatedFragment (c.removeFragment name) type.name [idField]]

/-- The directive that deletes records of a type. -/
def deleteDefinition (c : Config) (type : String) : Definition :=
  .directive { description := none, name := c.deleteDirective type, arguments := [],
               repeatable := true, locations := ["FIELD"] }

/-- The definitions that the lists of a registry need. -/
def listDefinitions (c : Config) (r : Registry) : Except Error (List Definition) := do
  let fragments ← r.mapM fun (name, l) => listFragments c name l
  return fragments.flatten ++ r.targetTypes.map (deleteDefinition c)

end QueryCompiler
