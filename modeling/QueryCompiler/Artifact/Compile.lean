import QueryCompiler.Artifact.Basic
import QueryCompiler.Artifact.Typename
import QueryCompiler.Language.Directives
import QueryCompiler.Selection.Compile
/-
# Compiling artifacts

A document is sent as its definition and the fragments this refers to, with the names of types
in them and without the directives that only steer the compilation.  The selection is compiled
from these same definitions before their directives go.
-/
namespace QueryCompiler

/-- What artifacts are compiled with. -/
structure ArtifactContext where
  config : Config
  registry : Registry
  fragments : Table String Fragment

namespace ArtifactContext

/-- The context of a set of documents. -/
def ofDocuments (config : Config) (registry : Registry) (documents : List Document) :
    ArtifactContext :=
  { config, registry, fragments := fragmentTable documents }

/-- Whether a directive is never sent. -/
def isDropped (x : ArtifactContext) (d : Directive) : Bool :=
  x.config.isInternal d.name || (x.registry.deletedType? x.config d.name).isSome

/-- The definitions as they are sent. -/
def sent (x : ArtifactContext) (definitions : List Definition) : List Definition :=
  definitions.map (·.mapDirectives (·.filter fun d => !x.isDropped d))

/-- The fragments that a selection is compiled with: those of the document instead of those that
the context has under their names. -/
def compiledFragments (x : ArtifactContext) (main : Executable) (others : List Fragment) :
    Table String Fragment :=
  let own := match main with
    | .operation _ => []
    | .fragment f => [f]
  (others ++ own).foldl (fun t f => Table.insert t f.name f) x.fragments

/-- The descriptor of the variables that a definition declares. -/
def input? (x : ArtifactContext) : Executable → Option (InputDescriptor String)
  | .operation o => inputDescriptor? x.config.schema o.declarations
  | .fragment _ => none

/-- The artifact of a document. -/
def compile (x : ArtifactContext) (d : Document) : Except Error Artifact := do
  let s := x.config.schema
  let main ← d.executable
  let others ← referenced x.fragments main
  let main := main.withTypenames s
  let others := others.map (·.withTypenames s)
  match main.rootType? s with
  | none => .error (.noRootType d.name)
  | some type =>
    let selections : Compilation :=
      { config := x.config, registry := x.registry,
        fragments := x.compiledFragments main others, kind := d.kind }
    return {
      name := d.name
      kind := d.kind
      raw := printDocument (x.sent (main.definition :: others.map .fragment))
      rootType := type.name
      selection := ← selections.compile type main.selections
      input := x.input? main
      refetch := d.refetch }

end ArtifactContext

/-- The artifacts of the documents that want one. -/
def compileArtifacts (c : Config) (r : Registry) (documents : List Document) :
    Except Error (List Artifact) :=
  (documents.filter (·.generate)).mapM (ArtifactContext.ofDocuments c r documents).compile

end QueryCompiler
