import QueryCompiler.Text.Lines
/-
# Block strings

A block string is written over several lines between triple quotes.  Its value leaves out the
indentation that all lines but the first share, and the blank lines at both ends
(`BlockString.value`).  `BlockString.written` writes a value: on lines of its own when that is
needed to read it back or makes it easier to read.
-/
namespace QueryCompiler.BlockString

open Text

/-- The characters that indent a line. -/
def isIndent (c : Char) : Bool := c = ' ' || c = '\t'

/-- The count of blanks and tabs a line starts with. -/
def indentation (line : List Char) : Nat := (line.takeWhile isIndent).length

/-- A line of nothing but blanks and tabs. -/
def isBlank (line : List Char) : Bool := line.all isIndent

/-- The indentation shared by the lines that are not blank, if there are any. -/
def commonIndentation (lines : List (List Char)) : Nat :=
  ((lines.filter fun line => !isBlank line).map indentation).min?.getD 0

/-- The lines without the blank ones at both ends. -/
def trimmed (lines : List (List Char)) : List (List Char) :=
  ((lines.dropWhile isBlank).reverse.dropWhile isBlank).reverse

/-- The value of the lines between the triple quotes. -/
def value : List (List Char) → List Char
  | [] => []
  | first :: others =>
    let shared := commonIndentation others
    ['\n'].intercalate (trimmed (first :: others.map (·.drop shared)))

/-- Every triple quote with a backslash in front. -/
def escaped : List Char → List Char
  | '"' :: '"' :: '"' :: rest => '\\' :: '"' :: '"' :: '"' :: escaped rest
  | c :: rest => c :: escaped rest
  | [] => []

/-- The longest value that stays on the line of its quotes. -/
def longestInline : Nat := 70

/-- A value between triple quotes.

A value of several lines, a long one, and one whose last character would run into the closing
quotes go on lines of their own.  A single line that starts with a blank has to follow the
opening quotes directly, or it would be taken for indented. -/
def written (text : String) : String :=
  let value := text.toList
  let body := escaped value
  let lines := Text.lines body
  let single := lines.length ≤ 1
  let allIndented := !single && lines.tail.all fun line => line.head?.all isIndent
  let endsWithTriple := ['\\', '"', '"', '"'].isSuffixOf body
  let endsOpen := (value.getLast? == some '"' && !endsWithTriple) || value.getLast? == some '\\'
  let spread := !single || value.length > longestInline || endsOpen || allIndented || endsWithTriple
  let startsBlank := single && value.head?.any isIndent
  let before := if (spread && !startsBlank) || allIndented then ['\n'] else []
  let after := if spread || endsOpen then ['\n'] else []
  String.ofList (['"', '"', '"'] ++ before ++ body ++ after ++ ['"', '"', '"'])

end QueryCompiler.BlockString
