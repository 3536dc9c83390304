import QueryCompiler.Artifact.Reference
import QueryCompiler.Language.Build
/-
# Type names in selections

Where a field may be of several object types, a response has to say of which one it is: every
such field with selections also selects the name of its type, unless it does so already under
that very name.
-/
namespace QueryCompiler

/-- Whether the name of the type is selected, under no other label. -/
def selectsTypename (selections : List Selection) : Bool :=
  selections.any fun
    | .field head _ => head.name = typenameField && head.label.isNone
    | _ => false

/-- The selections that a field gains. -/
def gainedTypename (s : Schema) (below : List Ancestor) (selections : List Selection) :
    List Selection :=
  if !selections.isEmpty && (s.typeAt below).any NamedType.isAbstract
      && !selectsTypename selections then [plainField typenameField []]
  else []

mutual

/-- The selection with the names of types in it. -/
def injectTypename (s : Schema) (ancestors : List Ancestor) : Selection → Selection
  | .field head selections =>
    let below := ancestors ++ [.field head]
    .field head (injectTypenames s below selections ++ gainedTypename s below selections)
  | .spread name directives => .spread name directives
  | .inline condition directives selections =>
    .inline condition directives (injectTypenames s (ancestors ++ [.inline condition]) selections)

def injectTypenames (s : Schema) (ancestors : List Ancestor) : List Selection → List Selection
  | [] => []
  | selection :: selections =>
    injectTypename s ancestors selection :: injectTypenames s ancestors selections

end

/-- The definition with the names of types in its selections. -/
def Executable.withTypenames (s : Schema) (e : Executable) : Executable :=
  e.withSelections (injectTypenames s [e.ancestor] e.selections)

/-- The fragment with the names of types in its selections. -/
def Fragment.withTypenames (s : Schema) (f : Fragment) : Fragment :=
  { f with selections := injectTypenames s [.fragment f.condition] f.selections }

end QueryCompiler
