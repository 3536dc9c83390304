import QueryCompiler.Language.Ast
/-
# The directives of a document

Changing all lists of directives in a document, wherever they stand.  For executable
definitions this is a plain recursion (`Selection.mapDirectives`); for definitions of the type
system `Definition.traverseDirectives` also carries a state, from the outside in and from the
front to the back.
-/
namespace QueryCompiler

/-! ## 1. Selections -/

mutual

/-- The selection with `f` applied to every list of directives. -/
def Selection.mapDirectives (f : List Directive → List Directive) : Selection → Selection
  | .field head selections =>
    .field { head with directives := f head.directives } (Selection.mapAllDirectives f selections)
  | .spread name directives => .spread name (f directives)
  | .inline condition directives selections =>
    .inline condition (f directives) (Selection.mapAllDirectives f selections)

def Selection.mapAllDirectives (f : List Directive → List Directive) :
    List Selection → List Selection
  | [] => []
  | s :: selections => s.mapDirectives f :: Selection.mapAllDirectives f selections

end

def VariableDefinition.mapDirectives (f : List Directive → List Directive)
    (v : VariableDefinition) : VariableDefinition :=
  { v with directives := f v.directives }

def Operation.mapDirectives (f : List Directive → List Directive) (o : Operation) : Operation :=
  { o with
    declarations := o.declarations.map (·.mapDirectives f)
    directives := f o.directives
    selections := Selection.mapAllDirectives f o.selections }

def Fragment.mapDirectives (f : List Directive → List Directive) (fr : Fragment) : Fragment :=
  { fr with
    directives := f fr.directives
    selections := Selection.mapAllDirectives f fr.selections }

/-! ## 2. Definitions of the type system -/

section Traversal

variable {m : Type → Type} [Monad m] (f : List Directive → m (List Directive))

def InputValueDefinition.traverseDirectives (v : InputValueDefinition) : m InputValueDefinition :=
  return { v with directives := ← f v.directives }

def FieldDefinition.traverseDirectives (d : FieldDefinition) : m FieldDefinition := do
  let arguments ← d.arguments.mapM (·.traverseDirectives f)
  return { d with arguments, directives := ← f d.directives }

def TypeBody.traverseDirectives : TypeBody → m TypeBody
  | .scalar => return .scalar
  | .object interfaces fields =>
    return .object interfaces (← fields.mapM (·.traverseDirectives f))
  | .interface interfaces fields =>
    return .interface interfaces (← fields.mapM (·.traverseDirectives f))
  | .union members => return .union members
  | .enumeration values =>
    return .enumeration (← values.mapM fun v => return { v with directives := ← f v.directives })
  | .inputObject fields => return .inputObject (← fields.mapM (·.traverseDirectives f))

def TypeDefinition.traverseDirectives (t : TypeDefinition) : m TypeDefinition := do
  let directives ← f t.directives
  return { t with directives, body := ← t.body.traverseDirectives f }

def SchemaDefinition.traverseDirectives (s : SchemaDefinition) : m SchemaDefinition :=
  return { s with directives := ← f s.directives }

def DirectiveDefinition.traverseDirectives (d : DirectiveDefinition) : m DirectiveDefinition :=
  return { d with arguments := ← d.arguments.mapM (·.traverseDirectives f) }

end Traversal

/-- The definition with `f` applied to every list of directives. -/
def Definition.mapDirectives (f : List Directive → List Directive) : Definition → Definition
  | .operation o => .operation (o.mapDirectives f)
  | .fragment fr => .fragment (fr.mapDirectives f)
  | .schema s => .schema (Id.run (s.traverseDirectives fun ds => pure (f ds)))
  | .type t => .type (Id.run (t.traverseDirectives fun ds => pure (f ds)))
  | .directive d => .directive (Id.run (d.traverseDirectives fun ds => pure (f ds)))

end QueryCompiler
