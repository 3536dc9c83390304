import QueryCompiler.Selection.Describe
import QueryCompiler.Lists.Registry
import QueryCompiler.Language.Build
/-
# Guards of list operations

A list operation applies only to lists whose field was called with certain arguments, or without
them.  Such a guard names an argument and the value that it must or must not have.  It comes as
an object in an argument of the directive that says where a record goes, or as a directive of
its own.

A guard writes its value as a text; the declared type of the argument says how to read it
(`coerceGuard`).
-/
namespace QueryCompiler

/-! ## 1. Values -/

/-- The value of a guard on an argument of a named type.  Only texts are read. -/
def coerceGuard (d : Datum) (type : Option String) : Except Error Datum :=
  match d, type with
  | .text text, some "Boolean" => .ok (.bool (text = "true"))
  | .text text, some "Int" => intDatum text
  | .text text, some "Float" => floatDatum text
  | d, _ => .ok d

/-! ## 2. Collected guards -/

/-- Whether the value is demanded or excluded. -/
inductive GuardKind where
  | must
  | mustNot
  deriving DecidableEq, Repr

def GuardKind.name : GuardKind → String
  | .must => "must"
  | .mustNot => "must_not"

/-- What a guard names as its argument: any key. -/
structure GuardArgument where
  key : Datum
  deriving Repr

/-- Two guards are on one argument if they name one key.  A number that cannot be read is the
same argument every time. -/
def GuardArgument.same (a b : GuardArgument) : Bool :=
  a.key == b.key ||
    match a.key, b.key with
    | .float x, .float y => x.isNaN && y.isNaN
    | _, _ => false

instance : BEq GuardArgument := ⟨GuardArgument.same⟩

/-- The guards of each kind: arguments and values. -/
abbrev Guards := Table GuardKind (Table GuardArgument Datum)

def Guards.toDatum (g : Guards) : Datum :=
  .record (g.map fun (kind, rows) =>
    (kind.name, .object (rows.map fun (argument, value) => (argument.key, value))))

/-- The guards with one more.  A later guard on the same argument replaces an earlier one. -/
def Guards.add (g : Guards) (kind : GuardKind) (argument value : Datum) : Guards :=
  Table.upsert g kind (Table.insert · ⟨argument⟩ value) [(⟨argument⟩, value)]

/-- What the arguments of a list operation mean: the list or the type that it edits. -/
structure GuardScope where
  registry : Registry
  list : Option String
  type : Option String

/-- The guards with the one that two values make, if both are there. -/
def GuardScope.add (s : GuardScope) (g : Guards) (kind : GuardKind)
    (argument value : Option Value) : Except Error Guards :=
  match argument, value with
  | some argument, some value => do
    let key := argument.datum
    let value ← coerceGuard value.datum (← s.registry.argumentType s.list key s.type)
    if key.isKey then return g.add kind key value else throw .notAKey
  | _, _ => .ok g

/-- The guards with the one that an object describes.  No other value is a guard. -/
def GuardScope.addObject (s : GuardScope) (g : Guards) (kind : GuardKind) :
    Option Value → Except Error Guards
  | some (.object fields) =>
    let fields := Table.ofRows fields
    s.add g kind (Table.get? fields "argument") (Table.get? fields "value")
  | _ => .ok g

/-- The value of an argument of the first directive called `directive`. -/
def directiveValue? (directives : List Directive) (directive argument : String) : Option Value :=
  (directive? directives directive).bind fun d => (argument? d.arguments argument).map (·.value)

/-- The guards that some directives state, those beside a place before those on their own. -/
def GuardScope.guards (c : Config) (s : GuardScope) (directives : List Directive) :
    Except Error Guards := do
  let value (directive argument : String) := directiveValue? directives directive argument
  let g ← s.addObject [] .must (value c.prependDirective "when")
  let g ← s.addObject g .mustNot (value c.prependDirective "when_not")
  let g ← s.addObject g .must (value c.appendDirective "when")
  let g ← s.addObject g .mustNot (value c.appendDirective "when_not")
  let g ← s.add g .must (value c.whenDirective "argument") (value c.whenDirective "value")
  s.add g .mustNot (value c.whenNotDirective "argument") (value c.whenNotDirective "value")

end QueryCompiler
