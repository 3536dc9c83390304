import QueryCompiler.Number.Power
import QueryCompiler.Language.Ast
import QueryCompiler.Language.BlockString
/-
# Documents as text

Every tree has one text.  Selections and fields stand one to a line, two blanks further in than
what holds them; definitions are a blank line apart.

The printers work from the inside out: a part is printed on its own and then moved to the right
with all its lines (`Text.indented`), also the lines of a block string within it.
-/
namespace QueryCompiler

open Text

/-! ## 1. Strings, types and values -/

/-- The two lowest digits of a number in base sixteen, as capitals. -/
def hexPair (n : Nat) : List Char := (hexDigits 2 n).map Char.toUpper

/-- A character inside a quoted string: quotes, backslashes and control characters are escaped. -/
def quotedChar (c : Char) : List Char :=
  if c = '"' then ['\\', '"']
  else if c = '\\' then ['\\', '\\']
  else if c = '\x08' then ['\\', 'b']
  else if c = '\t' then ['\\', 't']
  else if c = '\n' then ['\\', 'n']
  else if c = '\x0c' then ['\\', 'f']
  else if c = '\r' then ['\\', 'r']
  else if c.toNat < 0x20 || (0x7F ≤ c.toNat && c.toNat < 0xA0) then
    ['\\', 'u', '0', '0'] ++ hexPair c.toNat
  else [c]

/-- A string between quotes. -/
def quoted (text : String) : String :=
  String.ofList ('"' :: text.toList.flatMap quotedChar ++ ['"'])

/-- A string in the form it was written in. -/
def stringLiteral (text : String) (block : Bool) : String :=
  if block then BlockString.written text else quoted text

def TypeRef.print : TypeRef → String
  | .named name => name
  | .list item => "[" ++ item.print ++ "]"
  | .nonNull inner => inner.print ++ "!"

mutual

def Value.print : Value → String
  | .variable name => "$" ++ name
  | .int text => text
  | .float text => text
  | .string text block => stringLiteral text block
  | .boolean value => if value then "true" else "false"
  | .null => "null"
  | .enumeration name => name
  | .list items => "[" ++ joined ", " (Value.printItems items) ++ "]"
  | .object fields => "\x7b" ++ joined ", " (Value.printFields fields) ++ "\x7d"

def Value.printItems : List Value → List String
  | [] => []
  | item :: items => item.print :: Value.printItems items

def Value.printFields : List (String × Value) → List String
  | [] => []
  | (name, value) :: fields => (name ++ ": " ++ value.print) :: Value.printFields fields

end

/-! ## 2. Arguments and directives -/

def Argument.print (a : Argument) : String := a.name ++ ": " ++ a.value.print

def Directive.print (d : Directive) : String :=
  "@" ++ d.name ++ enclosed "(" (joined ", " (d.arguments.map Argument.print)) ")"

def printDirectives (directives : List Directive) : String :=
  joined " " (directives.map Directive.print)

/-- Some text spans several lines. -/
def spansLines (items : List String) : Bool := items.any fun item => item.toList.contains '\n'

/-- The items in braces, one to a line. -/
def block (items : List String) : String :=
  enclosed "\x7b\n" (indented (joined "\n" items)) "\n\x7d"

/-! ## 3. Selections -/

/-- A longer line of arguments is broken up, one argument to a line. -/
def longestLine : Nat := 80

/-- A field up to its arguments. -/
def FieldHead.printCall (head : FieldHead) : String :=
  let start := enclosed "" (head.label.getD "") ": " ++ head.name
  let arguments := head.arguments.map Argument.print
  let line := start ++ enclosed "(" (joined ", " arguments) ")"
  if line.length > longestLine then start ++ enclosed "(\n" (indented (joined "\n" arguments)) "\n)"
  else line

mutual

def Selection.print : Selection → String
  | .field head selections =>
    head.printCall ++ enclosed " " (printDirectives head.directives) ""
      ++ enclosed " " (block (Selection.printAll selections)) ""
  | .spread name directives => "..." ++ name ++ enclosed " " (printDirectives directives) ""
  | .inline condition directives selections =>
    joined " " ["...", enclosed "on " (condition.getD "") "", printDirectives directives,
      block (Selection.printAll selections)]

def Selection.printAll : List Selection → List String
  | [] => []
  | s :: selections => s.print :: Selection.printAll selections

end

/-- A selection set. -/
def printSelections (selections : List Selection) : String := block (Selection.printAll selections)

/-! ## 4. Definitions -/

def Description.print (d : Description) : String := stringLiteral d.text d.block

/-- A definition under its description. -/
def described (description : Option Description) (text : String) : String :=
  enclosed "" ((description.map Description.print).getD "") "\n" ++ text

def VariableDefinition.print (v : VariableDefinition) : String :=
  described v.description ("$" ++ v.name ++ ": " ++ v.type.print
    ++ enclosed " = " ((v.defaultValue.map Value.print).getD "") ""
    ++ enclosed " " (printDirectives v.directives) "")

/-- Variables in parentheses: on one line, or each on its own when one of them needs several. -/
def printVariables (declarations : List VariableDefinition) : String :=
  let items := declarations.map VariableDefinition.print
  if spansLines items then enclosed "(\n" (joined "\n" items) "\n)"
  else enclosed "(" (joined ", " items) ")"

/-- An operation; a query with nothing but selections is just these. -/
def Operation.print (o : Operation) : String :=
  let opening := described o.description (joined " " [o.kind.keyword,
    joined "" [o.name.getD "", printVariables o.declarations], printDirectives o.directives])
  (if opening = "query" then "" else opening ++ " ") ++ printSelections o.selections

def Fragment.print (f : Fragment) : String :=
  described f.description ("fragment " ++ f.name ++ " on " ++ f.condition ++ " "
    ++ enclosed "" (printDirectives f.directives) " " ++ printSelections f.selections)

def InputValueDefinition.print (v : InputValueDefinition) : String :=
  described v.description (joined " " [v.name ++ ": " ++ v.type.print,
    enclosed "= " ((v.defaultValue.map Value.print).getD "") "", printDirectives v.directives])

/-- The arguments a definition declares. -/
def printDeclaredArguments (arguments : List InputValueDefinition) : String :=
  let items := arguments.map InputValueDefinition.print
  if spansLines items then enclosed "(\n" (indented (joined "\n" items)) "\n)"
  else enclosed "(" (joined ", " items) ")"

def FieldDefinition.print (f : FieldDefinition) : String :=
  described f.description (f.name ++ printDeclaredArguments f.arguments ++ ": " ++ f.type.print
    ++ enclosed " " (printDirectives f.directives) "")

def EnumValueDefinition.print (v : EnumValueDefinition) : String :=
  described v.description (joined " " [v.name, printDirectives v.directives])

def SchemaDefinition.print (s : SchemaDefinition) : String :=
  described s.description (joined " " [if s.extension then "extend schema" else "schema",
    printDirectives s.directives,
    block (s.roots.map fun (kind, type) => kind.keyword ++ ": " ++ type)])

/-- The keyword of a type, what stands between its name and its directives, and what stands
after these. -/
def TypeBody.parts : TypeBody → String × String × String
  | .scalar => ("scalar", "", "")
  | .object interfaces fields =>
    ("type", enclosed "implements " (joined " & " interfaces) "",
      block (fields.map FieldDefinition.print))
  | .interface interfaces fields =>
    ("interface", enclosed "implements " (joined " & " interfaces) "",
      block (fields.map FieldDefinition.print))
  | .union members => ("union", "", enclosed "= " (joined " | " members) "")
  | .enumeration values => ("enum", "", block (values.map EnumValueDefinition.print))
  | .inputObject fields => ("input", "", block (fields.map InputValueDefinition.print))

def TypeDefinition.print (t : TypeDefinition) : String :=
  let (word, interfaces, body) := t.body.parts
  described t.description (joined " " [if t.extension then "extend " ++ word else word,
    t.name, interfaces, printDirectives t.directives, body])

def DirectiveDefinition.print (d : DirectiveDefinition) : String :=
  described d.description ("directive @" ++ d.name ++ printDeclaredArguments d.arguments
    ++ (if d.repeatable then " repeatable" else "") ++ " on " ++ joined " | " d.locations)

def Definition.print : Definition → String
  | .operation o => o.print
  | .fragment f => f.print
  | .schema s => s.print
  | .type t => t.print
  | .directive d => d.print

/-- A document: its definitions, a blank line apart. -/
def printDocument (definitions : List Definition) : String :=
  joined "\n\n" (definitions.map Definition.print)

end QueryCompiler
