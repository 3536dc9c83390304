import QueryCompiler.Document.Basic
import QueryCompiler.Schema.Ancestor
/-
# Referenced fragments

The fragments that a definition spreads, and those that these spread, in the order in which they
are first met.  They are sent with the definition.
-/
namespace QueryCompiler

/-! ## 1. What a document is compiled from -/

/-- A definition that selects something. -/
inductive Executable where
  | operation (operation : Operation)
  | fragment (fragment : Fragment)
  deriving Repr

namespace Executable

def ofDefinition? : Definition → Option Executable
  | .operation o => some (.operation o)
  | .fragment f => some (.fragment f)
  | _ => none

def definition : Executable → Definition
  | .operation o => .operation o
  | .fragment f => .fragment f

def selections : Executable → List Selection
  | .operation o => o.selections
  | .fragment f => f.selections

/-- The definition with other selections. -/
def withSelections (e : Executable) (selections : List Selection) : Executable :=
  match e with
  | .operation o => .operation { o with selections }
  | .fragment f => .fragment { f with selections }

/-- What the selections of a definition stand under. -/
def ancestor : Executable → Ancestor
  | .operation o => .operation o.kind
  | .fragment f => .fragment f.condition

/-- The type that the selections of a definition are made against. -/
def rootType? (s : Schema) (e : Executable) : Option NamedType := s.typeAt [e.ancestor]

end Executable

/-- The definition that a document is compiled from: its first one that selects something. -/
def Document.executable (d : Document) : Except Error Executable :=
  match d.definitions.findSome? Executable.ofDefinition? with
  | some e => .ok e
  | none => .error (.noDefinition d.name)

/-- The fragments of some documents by name.  Of several with one name the last one counts. -/
def fragmentTable (documents : List Document) : Table String Fragment :=
  Table.ofRows ((fragmentsOf (documents.flatMap (·.definitions))).map fun f => (f.name, f))

/-! ## 2. Spreads -/

mutual

/-- The names that a selection spreads, in the order of the text. -/
def spreadNames : Selection → List String
  | .field _ selections => spreadNamesOf selections
  | .spread name _ => [name]
  | .inline _ _ selections => spreadNamesOf selections

def spreadNamesOf : List Selection → List String
  | [] => []
  | s :: selections => spreadNames s ++ spreadNamesOf selections

end

/-- What is found with the fragment called `name` and all that it spreads.  No more than `depth`
fragments are entered inside each other. -/
def findFragment (fragments : Table String Fragment) (depth : Nat) (found : Table String Fragment)
    (name : String) : Except Error (Table String Fragment) :=
  if Table.contains found name then .ok found
  else
    match Table.get? fragments name, depth with
    | none, _ => .error (.unknownFragment name)
    | some f, 0 => .ok (Table.insert found name f)
    | some f, depth + 1 =>
      (spreadNamesOf f.selections).foldlM (findFragment fragments depth)
        (Table.insert found name f)

/-- The fragments that a definition refers to, itself apart.  A table is deep enough to find all
of it, because no fragment is entered twice. -/
def referenced (fragments : Table String Fragment) (e : Executable) :
    Except Error (List Fragment) := do
  let found ← (spreadNamesOf e.selections).foldlM (findFragment fragments fragments.length) []
  let others := match e with
    | .operation _ => found
    | .fragment f => Table.erase found f.name
  return others.map (·.2)

end QueryCompiler
