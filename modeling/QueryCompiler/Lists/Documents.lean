import QueryCompiler.Lists.Tagging
import QueryCompiler.Lists.Generated
import QueryCompiler.Document.Basic
import QueryCompiler.Language.Printer
/-
# The list pass

Tagged fields of all documents are registered; when there are any lists, a document with their
generated definitions goes to the end, and the text of these definitions becomes part of the
configuration.

Naming faults are collected over all documents and reported together.  After a failure nothing
is generated; the documents visited before it stay changed, and their lists registered.
-/
namespace QueryCompiler

/-- The name of the document of generated definitions. -/
def generatedLists : String := "generated::lists"

/-- The outcome of the list pass. -/
structure ListPass where
  documents : List Document
  registry : Registry
  newSchema : String
  result : Except Error (List Document)

/-- A document after its directives have been visited. -/
def tagDocument (c : Config) (st : TagState) (d : Document) :
    Except Error Document × TagState :=
  let pass := d.definitions.mapM (Tagging.definition c d.filename)
  match pass.run.run { st with changed := false } with
  | (.ok definitions, st) => (.ok (if st.changed then d.withDefinitions definitions else d), st)
  | (.error e, st) => (.error e, st)

/-- The documents after their directives have been visited, as far as that came. -/
def tagDocuments (c : Config) (st : TagState) :
    List Document → List Document × TagState × Except Error Unit
  | [] => ([], st, .ok ())
  | d :: documents =>
    match tagDocument c st d with
    | (.error e, st) => (d :: documents, st, .error e)
    | (.ok d, st) =>
      let (documents, st, result) := tagDocuments c st documents
      (d :: documents, st, result)

/-- The text of generated definitions. -/
def schemaText (definitions : List Definition) : String :=
  String.intercalate "\n" (definitions.map Definition.print)

/-- The document of generated definitions. -/
def generatedDocument (definitions : List Definition) : Document :=
  { Document.ofDefinitions .fragment generatedLists generatedLists definitions with
    generate := false }

/-- The list pass. -/
def addListFragments (c : Config) (r : Registry) (documents : List Document) : ListPass :=
  let (documents, st, visited) :=
    tagDocuments c { registry := r, errors := [], changed := false } documents
  let failed (e : Error) : ListPass :=
    { documents, registry := st.registry, newSchema := "", result := .error e }
  match visited with
  | .error e => failed e
  | .ok () =>
    if !st.errors.isEmpty then failed (.naming st.errors)
    else if st.registry.isEmpty then
      { documents, registry := st.registry, newSchema := "", result := .ok [] }
    else
      match listDefinitions c st.registry with
      | .error e => failed e
      | .ok definitions =>
        let new := generatedDocument definitions
        { documents := documents ++ [new], registry := st.registry,
          newSchema := schemaText definitions, result := .ok [new] }

end QueryCompiler
