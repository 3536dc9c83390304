import QueryCompiler.Lists.Registry
import QueryCompiler.Lists.Connection
import QueryCompiler.Language.Build
import QueryCompiler.Language.Directives
/-
# Registering tagged fields

A pass over the directives of a document.  A list directive, and a pagination directive with a
name, register their field as a list; where that is a connection the directive gains an argument
that says so, and the field of a list directive gains the page information.  Directives that
name their list wrongly are noted, and the pass goes on.

A field is visited before its directives, and these before its selections, so a directive sees
the selections its field has gained, and never a list below it that has been changed.
-/
namespace QueryCompiler

/-- What the pass has found so far. -/
structure TagState where
  registry : Registry
  errors : List DocumentError
  /-- Whether something in the document at hand was replaced. -/
  changed : Bool

/-- A pass keeps what it has found also when it fails. -/
abbrev Tagging := ExceptT Error (StateM TagState)

namespace Tagging

/-- Notes a fault of a directive. -/
def complain (filename : String) (d : Directive) (fault : NamingFault) : Tagging Unit :=
  modify fun st =>
    { st with
      errors := st.errors ++ [{ fault, directive := d.name, filename, origin := d.origin }] }

/-- A field as its directives see it. -/
abbrev Target := FieldHead × List Selection

/-- The list that a directive makes of its field. -/
def listDefinition (name filename : String) (f : SchemaField) (m : Members) :
    Except Error ListDefinition := do
  return { name, selections := m.selections, type := some m.type, filename,
           connection := m.connection, arguments := ← argumentTypes f }

/-- The argument that marks a connection. -/
def connectionMark : Argument := { name := "connection", value := .boolean true }

/-- Registers the field of a directive under a name. -/
def register (c : Config) (filename : String) (ancestors : List Ancestor)
    (target : Option Target) (name : String) (d : Directive) : Tagging Directive := do
  match target with
  | none => return d
  | some (head, selections) =>
    match ← membersAt c.schema ancestors head.name selections with
    | none => return d
    | some (f, m) =>
      let definition ← listDefinition name filename f m
      modify fun st =>
        { st with
          registry := st.registry.register definition
          changed := st.changed || m.connection }
      return if m.connection then { d with arguments := d.arguments ++ [connectionMark] } else d

/-- Visits a directive.  Only a list directive needs a name. -/
def directive (c : Config) (filename : String) (ancestors : List Ancestor)
    (target : Option Target) (d : Directive) : Tagging Directive := do
  if d.name = c.listDirective ∨ d.name = c.paginateDirective then
    match argument? d.arguments "name" with
    | none =>
      if d.name = c.listDirective then complain filename d .missing
      return d
    | some argument =>
      match argument.value with
      | .string name _ =>
        if Table.contains (← get).registry name then complain filename d .repeated
        register c filename ancestors target name d
      | _ =>
        complain filename d .notText
        return d
  else return d

/-- Visits directives of something else than a field. -/
def directives (c : Config) (filename : String) (ds : List Directive) : Tagging (List Directive) :=
  ds.mapM (directive c filename [] none)

/-- What a field gains: the page information, when a list directive makes it a connection. -/
def gained (c : Config) (ancestors : List Ancestor) (head : FieldHead)
    (selections : List Selection) : Tagging (List Selection) := do
  if hasDirective head.directives c.listDirective then
    match ← membersAt c.schema ancestors head.name selections with
    | some (_, m) =>
      if m.connection then
        modify fun st => { st with changed := true }
        return pageInfo
      else return []
    | none => return []
  else return []

mutual

/-- Visits a selection. -/
def selection (c : Config) (filename : String) (ancestors : List Ancestor) :
    Selection → Tagging Selection
  | .field head selections => do
    let extra ← gained c ancestors head selections
    let ds ← head.directives.mapM
      (directive c filename ancestors (some (head, selections ++ extra)))
    let below ← Tagging.selections c filename (ancestors ++ [.field head]) selections
    return .field { head with directives := ds } (below ++ extra)
  | .spread name ds => return .spread name (← directives c filename ds)
  | .inline condition ds selections => do
    let ds ← directives c filename ds
    return .inline condition ds
      (← Tagging.selections c filename (ancestors ++ [.inline condition]) selections)

def selections (c : Config) (filename : String) (ancestors : List Ancestor) :
    List Selection → Tagging (List Selection)
  | [] => return []
  | s :: rest => do
    let s ← selection c filename ancestors s
    return s :: (← selections c filename ancestors rest)

end

/-- Visits a definition. -/
def definition (c : Config) (filename : String) : Definition → Tagging Definition
  | .operation o => do
    let declarations ← o.declarations.mapM fun v =>
      return { v with directives := ← directives c filename v.directives }
    let ds ← directives c filename o.directives
    let below ← selections c filename [.operation o.kind] o.selections
    return .operation { o with declarations, directives := ds, selections := below }
  | .fragment f => do
    let ds ← directives c filename f.directives
    let below ← selections c filename [.fragment f.condition] f.selections
    return .fragment { f with directives := ds, selections := below }
  | .schema s => .schema <$> s.traverseDirectives (directives c filename)
  | .type t => .type <$> t.traverseDirectives (directives c filename)
  | .directive d => .directive <$> d.traverseDirectives (directives c filename)

end Tagging

end QueryCompiler
