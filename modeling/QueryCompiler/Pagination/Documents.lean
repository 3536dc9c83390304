import QueryCompiler.Pagination.Field
import QueryCompiler.Pagination.Refetch
/-
# The pagination pass

Every document with a paginated field changes in its place; the queries that refetch
paginated fragments go to the end.

A document whose fields cannot be paginated stays as it is.  When only its declarations or its
refetch query fail, what was done to it before stays done.  After a failure no later document is
touched and no query is added.
-/
namespace QueryCompiler

/-- The document that refetches a fragment of `d`. -/
def refetchDocument (d : Document) (name : String) (definitions : List Definition)
    (refetch : Refetch) : Document :=
  { Document.ofDefinitions .query name d.filename definitions with refetch := some refetch }

/-- A document after the pass, as far as it came, and the refetch query it gave rise to. -/
def paginateDocument (c : Config) (d : Document) : Document × Except Error (List Document) :=
  match paginateDefinitions c .initial d.definitions with
  | .error e => (d, .error e)
  | .ok (definitions, state) =>
    match state.path with
    | none => (d, .ok [])
    | some path =>
      let d := d.withDefinitions definitions
      match definitions.mapM (hoistDefinition c state.flags) with
      | .error e => (d, .error e)
      | .ok definitions =>
        let target := RefetchTarget.of c definitions
        let refetch := state.flags.refetch path target.embedded (refetchTargetType c target.type)
        let d := { d.withDefinitions definitions with refetch := some refetch }
        if target.type.isEmpty then (d, .ok [])
        else
          match refetchQuery c state.flags target with
          | .error e => (d, .error e)
          | .ok query => (d, .ok [refetchDocument d target.query query refetch])

/-- The documents after the pass, as far as it came, and the queries they gave rise to. -/
def paginateEach (c : Config) : List Document → List Document × Except Error (List Document)
  | [] => ([], .ok [])
  | d :: documents =>
    match paginateDocument c d with
    | (d, .error e) => (d :: documents, .error e)
    | (d, .ok new) =>
      let (documents, others) := paginateEach c documents
      (d :: documents, others.map (new ++ ·))

/-- The pagination pass: the documents after it, and the new ones among them. -/
def paginate (c : Config) (documents : List Document) :
    List Document × Except Error (List Document) :=
  match paginateEach c documents with
  | (documents, .ok new) => (documents ++ new, .ok new)
  | (documents, .error e) => (documents, .error e)

end QueryCompiler
