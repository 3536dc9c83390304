import QueryCompiler.Document.Basic
import QueryCompiler.Input.Descriptor
import QueryCompiler.Selection.Persisted
/-
# Artifacts

What is compiled for one document: the text that is sent, the selection by which the response is
read, and what is known about variables and refetching.
-/
namespace QueryCompiler

structure Artifact where
  name : String
  kind : ArtifactKind
  /-- The text that is sent. -/
  raw : String
  /-- The name of the type that the selection starts at. -/
  rootType : String
  selection : SelectionTree
  input : Option (InputDescriptor String)
  refetch : Option Refetch
  deriving Repr

/-- The record that an artifact is stored as. -/
def Artifact.toDatum (a : Artifact) : Datum :=
  .record ([("name", .text a.name), ("kind", .text a.kind.name), ("raw", .text a.raw),
      ("rootType", .text a.rootType), ("selection", a.selection.toDatum)]
    ++ Datum.optionalRow "input" (fun i => i.stored.toDatum) a.input
    ++ Datum.optionalRow "refetch" Refetch.toDatum a.refetch)

end QueryCompiler
