import QueryCompiler.Selection.Entry
import QueryCompiler.Document.Basic
/-
# Compiling selections

Selections made against a type become a tree of entries.  Inline fragments and spreads add their
entries at the place where they stand; what comes through a spread is masked.

The definition recurses over selections.  Spreads leave the text at hand, so following them is a
parameter (`Follow`), and `Compilation.follow` bounds the number of spreads inside each other:
a chain of different fragments is no longer than the table of fragments, and a longer one goes
in a circle.
-/
namespace QueryCompiler

/-- What the selections of a document are compiled with. -/
structure Compilation where
  config : Config
  registry : Registry
  fragments : Table String Fragment
  /-- The kind of the document.  Only mutations edit lists. -/
  kind : ArtifactKind
  deriving Repr

/-- The selection that the spread of a fragment adds. -/
abbrev Follow := String → Except Error SelectionTree

/-! ## 1. List fields -/

/-- The list that a field is, with the directive that says so.  Of the two kinds of directives
the first to look at is the list directive, and only that one. -/
def namedList? (c : Config) (directives : List Directive) : Option (String × Directive) :=
  match (directive? directives c.listDirective).or (directive? directives c.paginateDirective) with
  | none => none
  | some d =>
    match argument? d.arguments "name" with
    | some { value := .string name _, .. } => some (name, d)
    | _ => none

/-- Whether a directive marks its field as a connection. -/
def marksConnection (d : Directive) : Except Error Bool :=
  match argument? d.arguments "connection" with
  | none => .ok false
  | some a =>
    match a.value.single? with
    | some mark => .ok mark.isTrue
    | none => .error .noSingleValue

/-- The head of an entry with what it says as a list field, if it is one. -/
def EntryHead.withList (c : Config) (field : FieldHead) (h : EntryHead) :
    Except Error EntryHead :=
  match namedList? c field.directives with
  | none => .ok h
  | some (name, d) => do
    let connection ← marksConnection d
    return { h with
      list := some name, connection, filters := some (← describeArguments field.arguments) }

/-! ## 2. Fields -/

namespace Compilation

/-- The head of the entry for a field. -/
def entryHead (x : Compilation) (field : FieldHead) (selections : List Selection)
    (definition : SchemaField) (key : String) (masked : Bool) : Except Error EntryHead := do
  let type := x.config.schema.fieldType? definition
  let plain := EntryHead.plain definition.type.base key masked
  let h ← { plain with abstract := type.any NamedType.isAbstract }.withList x.config field
  if x.kind = .mutation then
    return { h with operations := ← listOperations x.config x.registry field.directives selections }
  else return h

/-- The type below an inline fragment. -/
def narrowed (x : Compilation) (parent : Option NamedType) : Option String → Option NamedType
  | none => parent
  | some condition => x.config.schema.type? condition

/-- The definition of a field of a type. -/
def definition (parent : Option NamedType) (name : String) : Except Error SchemaField :=
  match parent with
  | none => .error (.fieldBelowUnknownType name)
  | some type =>
    match type.field? name with
    | some f => .ok f
    | none => .error (.noField type.name name)

/-! ## 3. Selections -/

mutual

/-- The tree of a selection made against a type. -/
def tree (x : Compilation) (follow : Follow) (parent : Option NamedType) (masked : Bool) :
    Selection → Except Error SelectionTree
  | .field head selections =>
    if head.name = typenameField then
      .ok [(head.responseKey, .node (.plain "String" typenameField masked) none)]
    else do
      let f ← definition parent head.name
      let key ← cacheKey head (some f)
      let below ← forest x follow (x.config.schema.fieldType? f) masked [] selections
      let h ← x.entryHead head selections f key masked
      return [(head.responseKey, .node h (if selections.isEmpty then none else some below))]
  | .spread name _ => follow name
  | .inline condition _ selections =>
    forest x follow (x.narrowed parent condition) masked [] selections

/-- The trees of selections made against a type, merged into a tree in their order. -/
def forest (x : Compilation) (follow : Follow) (parent : Option NamedType) (masked : Bool)
    (merged : SelectionTree) : List Selection → Except Error SelectionTree
  | [] => .ok merged
  | s :: selections => do
    let entries ← tree x follow parent masked s
    forest x follow parent masked (Entry.mergeInto merged entries) selections

end

/-- The selection that the spread of a fragment adds, with at most `depth` spreads inside each
other. -/
def follow (x : Compilation) (depth : Nat) : Follow := fun name =>
  match Table.get? x.fragments name, depth with
  | none, _ => .error (.unknownFragment name)
  | some _, 0 => .error .endlessSpread
  | some fragment, depth + 1 =>
    x.forest (x.follow depth) (x.config.schema.type? fragment.condition) true [] fragment.selections

/-- The compiled selection of a definition against its type. -/
def compile (x : Compilation) (type : NamedType) (selections : List Selection) :
    Except Error SelectionTree :=
  x.forest (x.follow x.fragments.length) (some type) false [] selections

end Compilation

end QueryCompiler
