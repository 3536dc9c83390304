import QueryCompiler.Pagination.Flags
import QueryCompiler.Schema.Ancestor
import QueryCompiler.Config
/-
# Paginated fields

A field with selections and the pagination directive is paginated: its pagination arguments
become variables, and unless it pages by position it also selects the page information.

All paginated fields of a document share one table of flags.  Each of them sets anew which
arguments are in use, and the last one visited decides what is hoisted; fields are visited from
the outside in and from the front to the back.
-/
namespace QueryCompiler

/-- What visiting the fields of a document has found so far. -/
structure PageState where
  flags : Flags
  /-- The path of the paginated field visited last, once there is one. -/
  path : Option (List String)

/-- The state before the first field. -/
def PageState.initial : PageState := { flags := .disabled, path := none }

/-- The arguments that the field below some ancestors declares. -/
def declaredArguments (s : Schema) (ancestors : List Ancestor) (name : String) :
    Except Error (List String) :=
  match s.fieldAt ancestors name with
  | none => .ok []
  | some f =>
    match f.arguments with
    | some arguments => .ok (Table.keys arguments)
    | none => .error (.argumentsOnInput name)

/-- Whether a field is to be paginated. -/
def isPaginated (c : Config) (head : FieldHead) (selections : List Selection) : Bool :=
  hasDirective head.directives c.paginateDirective && !selections.isEmpty

/-- The selections that a paginated field gains. -/
def gainedSelections : Option Strategy → List Selection
  | some .byOffset => []
  | _ => pageInfo

/-- A paginated field with its new arguments, what it gains, and the flags after it. -/
def paginateHead (c : Config) (ancestors : List Ancestor) (head : FieldHead) (flags : Flags) :
    Except Error (FieldHead × List Selection × Flags) := do
  let declared ← declaredArguments c.schema ancestors head.name
  let strategy := Strategy.choose declared (head.arguments.map (·.name))
  let (arguments, flags) ← replaceArguments (flags.use strategy) head.arguments
  return ({ head with arguments }, gainedSelections strategy, flags)

mutual

/-- The selection with its paginated fields changed. -/
def paginateSelection (c : Config) (ancestors : List Ancestor) :
    Selection → PageState → Except Error (Selection × PageState)
  | .field head selections, state => do
    let below := ancestors ++ [.field head]
    if isPaginated c head selections then
      let (newHead, gained, flags) ← paginateHead c ancestors head state.flags
      let state := { flags, path := some (Ancestor.path below) }
      let (selections, state) ← paginateSelections c below selections state
      return (.field newHead (selections ++ gained), state)
    else
      let (selections, state) ← paginateSelections c below selections state
      return (.field head selections, state)
  | .spread name directives, state => return (.spread name directives, state)
  | .inline condition directives selections, state => do
    let (selections, state) ←
      paginateSelections c (ancestors ++ [.inline condition]) selections state
    return (.inline condition directives selections, state)

def paginateSelections (c : Config) (ancestors : List Ancestor) :
    List Selection → PageState → Except Error (List Selection × PageState)
  | [], state => return ([], state)
  | s :: selections, state => do
    let (s, state) ← paginateSelection c ancestors s state
    let (selections, state) ← paginateSelections c ancestors selections state
    return (s :: selections, state)

end

/-- The definition with its paginated fields changed. -/
def paginateDefinition (c : Config) (state : PageState) :
    Definition → Except Error (Definition × PageState)
  | .operation o => do
    let (selections, state) ← paginateSelections c [.operation o.kind] o.selections state
    return (.operation { o with selections }, state)
  | .fragment f => do
    let (selections, state) ← paginateSelections c [.fragment f.condition] f.selections state
    return (.fragment { f with selections }, state)
  | d => return (d, state)

/-- The definitions with their paginated fields changed. -/
def paginateDefinitions (c : Config) (state : PageState) :
    List Definition → Except Error (List Definition × PageState)
  | [] => return ([], state)
  | d :: definitions => do
    let (d, state) ← paginateDefinition c state d
    let (definitions, state) ← paginateDefinitions c state definitions
    return (d :: definitions, state)

end QueryCompiler
