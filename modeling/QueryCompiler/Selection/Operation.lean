import QueryCompiler.Selection.Guard
/-
# List operations

A mutation edits lists when its response arrives.  It says so by directives that delete records
of a type, and by spreads of the fragments generated for lists, whose own directives say where
the record goes, under which parent the list is found, and which lists are left out.
-/
namespace QueryCompiler

/-- One edit of the cached lists. -/
structure ListOperation where
  action : ListAction
  list : Option String
  type : Option String
  position : Option ListPosition
  parent : Option ValueDescriptor
  guards : Guards
  deriving Repr

/-- The record of an operation, without the parts that it lacks. -/
def ListOperation.toDatum (o : ListOperation) : Datum :=
  .record (("action", .text o.action.name)
    :: Datum.optionalRow "list" .text o.list
    ++ Datum.optionalRow "type" .text o.type
    ++ Datum.optionalRow "position" (fun position => .text position.name) o.position
    ++ Datum.optionalRow "parentID" ValueDescriptor.toDatum o.parent
    ++ if o.guards.isEmpty then [] else [("when", o.guards.toDatum)])

/-- Where a spread puts its record. -/
def positionOf (c : Config) (directives : List Directive) : ListPosition :=
  if hasDirective directives c.prependDirective then .first
  else if hasDirective directives c.appendDirective then .last
  else c.defaultPosition

/-- The value that names the parent of the list. -/
def parentValue? (c : Config) (directives : List Directive) : Option Value :=
  (directiveValue? directives c.prependDirective "parentID").or
    ((directiveValue? directives c.appendDirective "parentID").or
      (directiveValue? directives c.parentIdDirective "value"))

/-- The description of an optional value. -/
def describe? : Option Value → Except Error (Option ValueDescriptor)
  | none => .ok none
  | some value => do return some (← value.describe)

/-- The deletion that a directive of a field asks for. -/
def deletion? (c : Config) (r : Registry) (directives : List Directive) (d : Directive) :
    Except Error (Option ListOperation) :=
  match r.deletedType? c d.name with
  | none => .ok none
  | some type => do
    let guards ← GuardScope.guards c { registry := r, list := none, type := some type } directives
    return some { action := .delete, list := none, type := some type, position := none,
                  parent := none, guards }

/-- The edit that a selection of a field asks for. -/
def edit? (c : Config) (r : Registry) : Selection → Except Error (Option ListOperation)
  | .spread name directives =>
    match r.operation? c name with
    | none => .ok none
    | some (list, action) => do
      let parent ← describe? (parentValue? c directives)
      let guards ← GuardScope.guards c { registry := r, list := some list, type := none } directives
      let position := if action = .insert ∨ action = .toggle then some (positionOf c directives)
        else none
      return some { action, list := some list, type := none, position, parent, guards }
  | _ => .ok none

/-- All operations that a field asks for: its deletions, and then its edits. -/
def listOperations (c : Config) (r : Registry) (directives : List Directive)
    (selections : List Selection) : Except Error (List ListOperation) := do
  let deletions ← directives.mapM (deletion? c r directives)
  let edits ← selections.mapM (edit? c r)
  return deletions.filterMap id ++ edits.filterMap id

end QueryCompiler
