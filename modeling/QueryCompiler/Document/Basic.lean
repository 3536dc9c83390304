import QueryCompiler.Language.Grammar
import QueryCompiler.Datum.Basic
import QueryCompiler.Error
/-
# Collected documents

A document is named after its first definition, which is an operation or a fragment.  It
remembers the definitions it was collected with once a pass has replaced them.
-/
namespace QueryCompiler

inductive ArtifactKind where
  | query
  | mutation
  | subscription
  | fragment
  deriving DecidableEq, Repr

namespace ArtifactKind

def name : ArtifactKind → String
  | .query => "Query"
  | .mutation => "Mutation"
  | .subscription => "Subscription"
  | .fragment => "Fragment"

def ofOperation : OperationKind → ArtifactKind
  | .query => .query
  | .mutation => .mutation
  | .subscription => .subscription

end ArtifactKind

/-! ## 1. Refetching -/

/-- The end of a list where the records of another page go. -/
inductive RefetchUpdate where
  | append
  | prepend
  deriving DecidableEq, Repr

def RefetchUpdate.name : RefetchUpdate → String
  | .append => "append"
  | .prepend => "prepend"

/-- How a page is asked for. -/
inductive PagingMethod where
  | cursor
  | offset
  deriving DecidableEq, Repr

def PagingMethod.name : PagingMethod → String
  | .cursor => "cursor"
  | .offset => "offset"

/-- What a client needs to load another page. -/
structure Refetch where
  update : RefetchUpdate
  /-- The response keys from the root of the document to the paginated field. -/
  path : List String
  method : PagingMethod
  pageSize : Datum
  /-- Where the first page starts; null where nothing says so. -/
  start : Datum
  /-- Whether the fragment is looked up under a field of its own. -/
  embedded : Bool
  targetType : String
  deriving Repr

def Refetch.toDatum (r : Refetch) : Datum :=
  .record ([("update", .text r.update.name), ("path", .list (r.path.map .text)),
    ("method", .text r.method.name), ("pageSize", r.pageSize), ("embedded", .bool r.embedded),
    ("targetType", .text r.targetType)]
    ++ match r.start with
      | .null => []
      | start => [("start", start)])

/-! ## 2. Documents -/

structure Document where
  kind : ArtifactKind
  name : String
  filename : String
  definitions : List Definition
  /-- The definitions as collected, once a pass has replaced them. -/
  collected : Option (List Definition)
  /-- Whether an artifact is wanted. -/
  generate : Bool
  refetch : Option Refetch
  deriving Repr

namespace Document

/-- A document that nothing has replaced yet. -/
def ofDefinitions (kind : ArtifactKind) (name filename : String) (definitions : List Definition) :
    Document :=
  { kind, name, filename, definitions, collected := none, generate := true, refetch := none }

/-- The document with other definitions. -/
def withDefinitions (d : Document) (definitions : List Definition) : Document :=
  { d with definitions, collected := some (d.collected.getD d.definitions) }

/-- Collects a text.  Without the name of a file, the document's own name stands for it. -/
def collect (source filename : String) : Except Error Document :=
  match parseDocument? source with
  | none => .error .unreadable
  | some definitions =>
    let named (kind : ArtifactKind) (name : String) : Document :=
      ofDefinitions kind name (if filename.isEmpty then name else filename) definitions
    match definitions with
    | .operation o :: _ => .ok (named (.ofOperation o.kind) (o.name.getD ""))
    | .fragment f :: _ => .ok (named .fragment f.name)
    | d :: _ => .error (.notExecutable d.kindName)
    | [] => .error .unreadable

end Document

end QueryCompiler
