import QueryCompiler.Language.Ast
import QueryCompiler.Text.Lines
/-
# Places in a text

The line and column of a character, and the excerpt that shows it: the line with a caret under
the column, between its neighbours.  A line too long to show is cut into pieces instead, and
only the pieces up to the caret and the next one are shown.
-/
namespace QueryCompiler

open Text

/-- A line and a column, both counted from one. -/
structure Position where
  line : Nat
  column : Nat
  deriving DecidableEq, Repr

/-- The position after reading `count` characters of a text from a position.  Between the two
characters that end a line together the line has not ended. -/
def Position.advance (start : Position) (count : Nat) (text : List Char) : Position :=
  match count, text with
  | 0, _ => start
  | _, [] => start
  | 1, '\r' :: '\n' :: _ => { start with column := start.column + 1 }
  | n + 2, '\r' :: '\n' :: rest => advance ⟨start.line + 1, 1⟩ n rest
  | n + 1, c :: rest =>
    if c = '\n' || c = '\r' then advance ⟨start.line + 1, 1⟩ n rest
    else advance { start with column := start.column + 1 } n rest

/-- The position of an origin. -/
def Origin.position (o : Origin) : Position := Position.advance ⟨1, 1⟩ o.offset o.source.toList

/-- Rows of a margin and a text, the margins aligned at the right.  A row whose text is missing
is left out; one whose text is empty is only its margin. -/
def printRows (rows : List (String × Option String)) : String :=
  let present := rows.filterMap fun (margin, text) => text.map (margin, ·)
  let width := present.foldl (fun w row => max w row.1.length) 0
  String.intercalate "\n" (present.map fun (margin, text) =>
    alignedRight width margin ++ enclosed " " text "")

/-- A line of more characters is shown in pieces. -/
def longestShown : Nat := 120

/-- The length of a piece. -/
def pieceLength : Nat := 80

/-- A text in pieces of `n` characters; the last one may be shorter. -/
def piecesOf (n : Nat) (cs : List Char) : List String :=
  (List.range ((cs.length + n - 1) / n)).map fun i => String.ofList ((cs.drop (i * n)).take n)

/-- The excerpt around an origin, under a line that names the position. -/
def Origin.excerpt (o : Origin) : String :=
  let place := o.position
  let rows := (Text.lines o.source.toList)
  let row (i : Nat) : Option String := rows[i]?.map String.ofList
  let caret (n : Nat) : String := alignedRight n "^"
  let title := "GraphQL request:" ++ toString place.line ++ ":" ++ toString place.column ++ "\n"
  let margin (n : Nat) : String := toString n ++ " |"
  let here := rows[place.line - 1]?.getD []
  if here.length > longestShown then
    let pieces := piecesOf pieceLength here
    let full := place.column / pieceLength
    title ++ printRows (
      (margin place.line, pieces[0]?) ::
      ((pieces.drop 1).take full).map (fun piece => ("|", some piece)) ++
      [("|", some (caret (place.column % pieceLength))), ("|", pieces[full + 1]?)])
  else
    title ++ printRows [
      (margin (place.line - 1), if place.line ≤ 1 then none else row (place.line - 2)),
      (margin place.line, some (String.ofList here)),
      ("|", some (caret place.column)),
      (margin (place.line + 1), row place.line)]

end QueryCompiler
