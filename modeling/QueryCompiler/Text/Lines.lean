/-
# Lines and indentation

A line ends at a line feed, a carriage return, or the pair of both.  `Text.lines` cuts a text
there; `Text.indented` moves every line of a text two blanks to the right.
-/
namespace QueryCompiler.Text

/-- The lines of a text, without their ends.  There is always at least one. -/
def lines : List Char → List (List Char)
  | [] => [[]]
  | '\r' :: '\n' :: rest => [] :: lines rest
  | '\r' :: rest => [] :: lines rest
  | '\n' :: rest => [] :: lines rest
  | c :: rest =>
    match lines rest with
    | [] => [[c]]
    | line :: more => (c :: line) :: more

/-- Two blanks in front of every line; an empty text stays empty. -/
def indented (text : String) : String :=
  if text.isEmpty then ""
  else String.ofList (' ' :: ' ' :: text.toList.flatMap fun c =>
    if c = '\n' then ['\n', ' ', ' '] else [c])

/-- The nonempty parts, with `separator` between neighbours. -/
def joined (separator : String) (parts : List String) : String :=
  String.intercalate separator (parts.filter fun part => !part.isEmpty)

/-- `text` between `opening` and `closing`, or nothing when `text` is empty. -/
def enclosed (opening text closing : String) : String :=
  if text.isEmpty then "" else opening ++ text ++ closing

/-- Blanks in front of `text` up to `width` characters. -/
def alignedRight (width : Nat) (text : String) : String :=
  String.ofList (List.replicate (width - text.length) ' ') ++ text

end QueryCompiler.Text
