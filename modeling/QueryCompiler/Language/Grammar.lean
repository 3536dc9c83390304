import QueryCompiler.Language.Ast
import QueryCompiler.Language.Token
/-
# The grammar of documents

Parsers from tokens to trees, one per rule of the grammar, and the four entries
`parseDocument?`, `parseSelections?`, `parseValue?` and `parseType?`.  A text that no rule
accepts has no tree; why it failed is not recorded.

Selection sets, list values, object values and list types nest, and they nest in each other: an
argument deep inside a selection set may hold a list.  Each parser of something that nests takes
the number of levels that may still be opened, and a text that opens more than `deepest` has no
tree.
-/
namespace QueryCompiler

namespace Grammar

/-! ## 1. Single tokens -/

/-- Takes the mark `c`. -/
def mark (c : Char) : Parser Token Unit :=
  Parser.next? fun t => if t = .mark c then some () else none

/-- Takes the mark `c` if it comes next, and says whether it did. -/
def accept (c : Char) : Parser Token Bool
  | t :: ts => if t = .mark c then some (true, ts) else some (false, t :: ts)
  | [] => some (false, [])

/-- Takes the keyword `word` if it comes next, and says whether it did. -/
def acceptWord (word : String) : Parser Token Bool
  | t :: ts => if t = .name word then some (true, ts) else some (false, t :: ts)
  | [] => some (false, [])

def name : Parser Token String :=
  Parser.next? fun
    | .name text => some text
    | _ => none

def keyword (word : String) : Parser Token Unit :=
  Parser.next? fun t => if t = .name word then some () else none

/-- Whether the mark `c` is not the next token. -/
def before (c : Char) (ts : List Token) : Bool := ts.head? != some (.mark c)

/-! ## 2. Repetition -/

/-- Any number of `p` up to the mark `closing`. -/
def upTo {α : Type} (p : Parser Token α) (closing : Char) : Parser Token (List α) := do
  let items ← Parser.repeatWhile (before closing) p
  mark closing
  return items

/-- One `p` or more between two marks. -/
def between {α : Type} (opening : Char) (p : Parser Token α) (closing : Char) :
    Parser Token (List α) := do
  mark opening
  let first ← p
  let others ← upTo p closing
  return first :: others

/-- One `p` or more between two marks, or nothing at all. -/
def optionalBetween {α : Type} (opening : Char) (p : Parser Token α) (closing : Char) :
    Parser Token (List α) := do
  if ← Parser.peek (· == .mark opening) then between opening p closing
  else return []

/-- One `p` or more with the mark `separator` between neighbours, and perhaps in front. -/
def separated {α : Type} (separator : Char) (p : Parser Token α) : Parser Token (List α) := do
  let _ ← accept separator
  let first ← p
  let others ← Parser.repeatWhile (fun ts => !before separator ts) (mark separator *> p)
  return first :: others

/-! ## 3. Types and values -/

/-- The number of levels that may be open at one place of a text. -/
def deepest : Nat := 200

/-- A type with at most `room` lists around its name. -/
def typeRef (room : Nat) : Parser Token TypeRef := do
  let core ← do
    if ← accept '[' then
      match room with
      | 0 => failure
      | room + 1 =>
        let item ← typeRef room
        mark ']'
        pure (TypeRef.list item)
    else TypeRef.named <$> name
  return if ← accept '!' then .nonNull core else core

/-- A value of at most `room` levels; a constant one holds no variables. -/
def value (constant : Bool) (room : Nat) : Parser Token Value := do
  match ← Parser.next? some with
  | .int text => return .int text
  | .float text => return .float text
  | .string text => return .string text false
  | .blockString text => return .string text true
  | .name "true" => return .boolean true
  | .name "false" => return .boolean false
  | .name "null" => return .null
  | .name text => return .enumeration text
  | .mark '$' => if constant then failure else Value.variable <$> name
  | .mark opening =>
    match room with
    | 0 => failure
    | room + 1 =>
      let item : Parser Token Value := value constant room
      if opening = '[' then Value.list <$> upTo item ']'
      else if opening = '\x7b' then
        Value.object <$> upTo (do let key ← name; mark ':'; return (key, ← item)) '\x7d'
      else failure
  | _ => failure

def argument (constant : Bool) (room : Nat) : Parser Token Argument := do
  let name ← name
  mark ':'
  return { name := name, value := ← value constant room }

def arguments (constant : Bool) (room : Nat) : Parser Token (List Argument) :=
  optionalBetween '(' (argument constant room) ')'

/-- The next token is the mark of a directive. -/
def atDirective (ts : List Token) : Bool :=
  match ts with
  | .at _ :: _ => true
  | _ => false

/-- Directives, which remember the text they stand in. -/
def directives (source : String) (constant : Bool) (room : Nat) :
    Parser Token (List Directive) :=
  Parser.repeatWhile atDirective do
    let offset ← Parser.next? fun
      | .at offset => some offset
      | _ => none
    let name ← name
    return { name := name, arguments := ← arguments constant room,
             origin := some { source := source, offset := offset } }

/-- Directives of a definition whose arguments hold no variables. -/
def constantDirectives (source : String) : Parser Token (List Directive) :=
  directives source true deepest

/-- The default of a declaration, if it has one. -/
def defaultValue : Parser Token (Option Value) := do
  if ← accept '=' then some <$> value true deepest else return none

/-- A description, if there is one. -/
def description : Parser Token (Option Description)
  | .string text :: ts => some (some { text, block := false }, ts)
  | .blockString text :: ts => some (some { text, block := true }, ts)
  | ts => some (none, ts)

/-! ## 4. Executable definitions -/

/-- A selection set of at most `room` levels. -/
def selectionSet (source : String) : Nat → Parser Token (List Selection)
  | 0 => failure
  | room + 1 =>
    let below : Parser Token (List Selection) := selectionSet source room
    let optionalSet : Parser Token (List Selection) := do
      if ← Parser.peek (· == .mark '\x7b') then below else return []
    let field : Parser Token Selection := do
      let first ← name
      let second ← if ← accept ':' then some <$> name else pure none
      let arguments ← arguments false room
      let directives ← directives source false room
      let head : FieldHead := match second with
        | some name => { label := some first, name, arguments, directives }
        | none => { label := none, name := first, arguments, directives }
      return .field head (← optionalSet)
    let fragment : Parser Token Selection := do
      if ← acceptWord "on" then
        let condition ← name
        let directives ← directives source false room
        return .inline (some condition) directives (← below)
      else if ← Parser.peek fun t => match t with | .name _ => true | _ => false then
        let name ← name
        return .spread name (← directives source false room)
      else
        let directives ← directives source false room
        return .inline none directives (← below)
    let selection : Parser Token Selection := fun
      | .spread :: ts => fragment ts
      | ts => field ts
    between '\x7b' selection '\x7d'

def variableDefinition (source : String) : Parser Token VariableDefinition := do
  let description ← description
  mark '$'
  let name ← name
  mark ':'
  let type ← typeRef deepest
  let defaultValue ← defaultValue
  return { description, name, type, defaultValue, directives := ← constantDirectives source }

/-- An operation after its keyword. -/
def operation (source : String) (description : Option Description) (kind : OperationKind) :
    Parser Token Operation := do
  let name ← if ← Parser.peek fun t => match t with | .name _ => true | _ => false
    then some <$> name else pure none
  let declarations ← optionalBetween '(' (variableDefinition source) ')'
  let directives ← directives source false deepest
  return { description, kind, name, declarations, directives,
           selections := ← selectionSet source deepest }

/-- A fragment after its keyword.  The name of a fragment is not `on`. -/
def fragment (source : String) (description : Option Description) : Parser Token Fragment := do
  let name ← name
  if name = "on" then failure
  keyword "on"
  let condition ← Grammar.name
  let directives ← directives source false deepest
  return { description, name, condition, directives, selections := ← selectionSet source deepest }

/-! ## 5. Type system definitions -/

def operationKind : Parser Token OperationKind := do
  match ← name with
  | "query" => return .query
  | "mutation" => return .mutation
  | "subscription" => return .subscription
  | _ => failure

def root : Parser Token (OperationKind × String) := do
  let kind ← operationKind
  mark ':'
  return (kind, ← name)

def inputValue (source : String) : Parser Token InputValueDefinition := do
  let description ← description
  let name ← name
  mark ':'
  let type ← typeRef deepest
  let defaultValue ← defaultValue
  return { description, name, type, defaultValue, directives := ← constantDirectives source }

def fieldDefinition (source : String) : Parser Token FieldDefinition := do
  let description ← description
  let name ← name
  let arguments ← optionalBetween '(' (inputValue source) ')'
  mark ':'
  let type ← typeRef deepest
  return { description, name, arguments, type, directives := ← constantDirectives source }

/-- A value of an enumeration, which is named like no other kind of value. -/
def enumValue (source : String) : Parser Token EnumValueDefinition := do
  let description ← description
  let name ← name
  if name ∈ ["true", "false", "null"] then failure
  return { description, name, directives := ← constantDirectives source }

def interfaces : Parser Token (List String) := do
  if ← acceptWord "implements" then separated '&' name else return []

/-- The places a directive can be declared for. -/
def locations : List String :=
  ["QUERY", "MUTATION", "SUBSCRIPTION", "FIELD", "FRAGMENT_DEFINITION", "FRAGMENT_SPREAD",
   "INLINE_FRAGMENT", "VARIABLE_DEFINITION", "SCHEMA", "SCALAR", "OBJECT", "FIELD_DEFINITION",
   "ARGUMENT_DEFINITION", "INTERFACE", "UNION", "ENUM", "ENUM_VALUE", "INPUT_OBJECT",
   "INPUT_FIELD_DEFINITION", "DIRECTIVE_DEFINITION"]

def location : Parser Token String := do
  let name ← name
  if name ∈ locations then return name else failure

def directiveDefinition (source : String) (description : Option Description) :
    Parser Token DirectiveDefinition := do
  let _ ← Parser.next? fun
    | .at _ => some ()
    | _ => none
  let name ← name
  let arguments ← optionalBetween '(' (inputValue source) ')'
  let repeatable ← acceptWord "repeatable"
  keyword "on"
  return { description, name, arguments, repeatable, locations := ← separated '|' location }

/-- A type after its keyword. -/
def typeDefinition (source : String) (extension : Bool) (description : Option Description)
    (word : String) : Parser Token TypeDefinition := do
  let name ← name
  match word with
  | "scalar" =>
    let directives ← constantDirectives source
    return { extension, description, name, directives, body := .scalar }
  | "type" =>
    let interfaces ← interfaces
    let directives ← constantDirectives source
    let fields ← optionalBetween '\x7b' (fieldDefinition source) '\x7d'
    return { extension, description, name, directives, body := .object interfaces fields }
  | "interface" =>
    let interfaces ← interfaces
    let directives ← constantDirectives source
    let fields ← optionalBetween '\x7b' (fieldDefinition source) '\x7d'
    return { extension, description, name, directives, body := .interface interfaces fields }
  | "union" =>
    let directives ← constantDirectives source
    let members ← if ← accept '=' then separated '|' Grammar.name else pure []
    return { extension, description, name, directives, body := .union members }
  | "enum" =>
    let directives ← constantDirectives source
    let values ← optionalBetween '\x7b' (enumValue source) '\x7d'
    return { extension, description, name, directives, body := .enumeration values }
  | "input" =>
    let directives ← constantDirectives source
    let fields ← optionalBetween '\x7b' (inputValue source) '\x7d'
    return { extension, description, name, directives, body := .inputObject fields }
  | _ => failure

/-- Whether an extension adds anything. -/
def adds (type : TypeDefinition) : Bool :=
  !type.directives.isEmpty || match type.body with
    | .scalar => false
    | .object interfaces fields => !interfaces.isEmpty || !fields.isEmpty
    | .interface interfaces fields => !interfaces.isEmpty || !fields.isEmpty
    | .union members => !members.isEmpty
    | .enumeration values => !values.isEmpty
    | .inputObject fields => !fields.isEmpty

def schemaDefinition (source : String) (description : Option Description) :
    Parser Token SchemaDefinition := do
  let directives ← constantDirectives source
  return { extension := false, description, directives, roots := ← between '\x7b' root '\x7d' }

/-- An extension after its keyword. -/
def extension (source : String) : Parser Token Definition := do
  match ← name with
  | "schema" =>
    let directives ← constantDirectives source
    let roots ← optionalBetween '\x7b' root '\x7d'
    if directives.isEmpty && roots.isEmpty then failure
    return .schema { extension := true, description := none, directives, roots }
  | word =>
    let type ← typeDefinition source true none word
    if adds type then return .type type else failure

/-! ## 6. Documents -/

/-- A definition.  A query that is nothing but its selections, and an extension, have no
description. -/
def definition (source : String) : Parser Token Definition := do
  if ← Parser.peek (· == .mark '\x7b') then
    return .operation { description := none, kind := .query, name := none, declarations := [],
                        directives := [], selections := ← selectionSet source deepest }
  let description ← description
  match ← name, description with
  | "query", description => .operation <$> operation source description .query
  | "mutation", description => .operation <$> operation source description .mutation
  | "subscription", description => .operation <$> operation source description .subscription
  | "fragment", description => .fragment <$> fragment source description
  | "extend", none => extension source
  | "schema", description => .schema <$> schemaDefinition source description
  | "directive", description => .directive <$> directiveDefinition source description
  | word, description => .type <$> typeDefinition source false description word

/-- One definition or more. -/
def document (source : String) : Parser Token (List Definition) := do
  let first ← definition source
  let others ← Parser.repeatWhile (fun ts => !ts.isEmpty) (definition source)
  return first :: others

end Grammar

/-! ## 7. Entries -/

/-- The definitions of a document, at least one. -/
def parseDocument? (source : String) : Option (List Definition) := do
  (Grammar.document source).run? (← Token.scan? source)

/-- The selections of the first definition of a document. -/
def parseSelections? (source : String) : Option (List Selection) := do
  match ← parseDocument? source with
  | .operation o :: _ => some o.selections
  | .fragment f :: _ => some f.selections
  | _ => none

def parseValue? (source : String) : Option Value := do
  (Grammar.value false Grammar.deepest).run? (← Token.scan? source)

def parseType? (source : String) : Option TypeRef := do
  (Grammar.typeRef Grammar.deepest).run? (← Token.scan? source)

end QueryCompiler
