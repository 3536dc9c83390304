import QueryCompiler.Artifact.Compile
import QueryCompiler.Lists.Documents
import QueryCompiler.Pagination.Documents
/-
# The pipeline

Pagination comes first, because the list pass has to see the queries it adds; the compilation
comes last, because it needs the fragments and directives that are generated for lists.
-/
namespace QueryCompiler

/-- The outcome of the pipeline: what the passes left, as far as they came, and the artifacts. -/
structure PipelineRun where
  documents : List Document
  newSchema : String
  result : Except Error (List Artifact)

/-- Runs all passes over some documents, with a registry of its own. -/
def runPipeline (c : Config) (documents : List Document) : PipelineRun :=
  match paginate c documents with
  | (documents, .error e) => { documents, newSchema := c.newSchema, result := .error e }
  | (documents, .ok _) =>
    let lists := addListFragments c [] documents
    { documents := lists.documents
      newSchema := lists.newSchema
      result := do
        let _ ← lists.result
        compileArtifacts { c with newSchema := lists.newSchema } lists.registry lists.documents }

end QueryCompiler
