import QueryCompiler.Parsing
import QueryCompiler.Language.BlockString
/-
# Tokens

The words of a GraphQL text: marks, names, numbers and strings.  White space, commas, comments
and a byte order mark stand between them and mean nothing.

Only the mark in front of a directive keeps its place in the text, because only directives are
pointed at later.
-/
namespace QueryCompiler

inductive Token where
  /-- One of the marks `! $ & ( ) : = [ ] | { }`. -/
  | mark (c : Char)
  /-- The mark of a directive, with the count of characters before it. -/
  | at (offset : Nat)
  | spread
  | name (text : String)
  | int (text : String)
  | float (text : String)
  | string (text : String)
  | blockString (text : String)
  deriving DecidableEq, Repr

namespace Token

/-! ## 1. Classes of characters -/

/-- The marks that are a token by themselves. -/
def isMark (c : Char) : Bool :=
  c ∈ ['!', '$', '&', '(', ')', ':', '=', '[', ']', '|', '\x7b', '\x7d']

/-- The characters between tokens. -/
def isIgnored (c : Char) : Bool := c ∈ [' ', '\t', ',', '\n', '\r', '\uFEFF']

def isLineEnd (c : Char) : Bool := c = '\n' || c = '\r'

/-- A letter of the Latin alphabet or the low line. -/
def isNameStart (c : Char) : Bool := c.isAlpha || c = '_'

def isNamePart (c : Char) : Bool := c.isAlphanum || c = '_'

/-- The value of a hexadecimal digit. -/
def hexDigit? (c : Char) : Option Nat :=
  if c.isDigit then some (c.toNat - '0'.toNat)
  else if 'a' ≤ c ∧ c ≤ 'f' then some (c.toNat - 'a'.toNat + 10)
  else if 'A' ≤ c ∧ c ≤ 'F' then some (c.toNat - 'A'.toNat + 10)
  else none

/-- The number that hexadecimal digits write. -/
def hex? (digits : List Char) : Option Nat :=
  digits.foldlM (fun n c => (hexDigit? c).map (16 * n + ·)) 0

/-- The character of a code point, unless it is a surrogate or past the last one. -/
def char? (n : Nat) : Option Char := if n.isValidChar then some (Char.ofNat n) else none

/-- The character of a pair of surrogates. -/
def charOfPair? (high low : Nat) : Option Char :=
  if 0xD800 ≤ high ∧ high ≤ 0xDBFF ∧ 0xDC00 ≤ low ∧ low ≤ 0xDFFF then
    char? (0x10000 + (high - 0xD800) * 0x400 + (low - 0xDC00))
  else none

/-- The character of a short escape. -/
def escape? : Char → Option Char
  | '"' => some '"'
  | '\\' => some '\\'
  | '/' => some '/'
  | 'b' => some '\x08'
  | 'f' => some '\x0c'
  | 'n' => some '\n'
  | 'r' => some '\r'
  | 't' => some '\t'
  | _ => none

/-! ## 2. Numbers -/

/-- One digit or more. -/
def digits : Parser Char (List Char) := fun cs =>
  if cs.head?.any Char.isDigit then some (cs.takeWhile Char.isDigit, cs.dropWhile Char.isDigit)
  else none

/-- The digits before the point: no zero in front of another digit. -/
def wholePart : Parser Char (List Char)
  | '0' :: rest => if rest.head?.any Char.isDigit then none else some (['0'], rest)
  | cs => digits cs

/-- The point and the digits after it, if there is a point. -/
def fraction : Parser Char (List Char)
  | '.' :: rest => (digits rest).map fun (ds, rest) => ('.' :: ds, rest)
  | cs => some ([], cs)

/-- The exponent, if there is one. -/
def exponent : Parser Char (List Char)
  | c :: rest =>
    if c = 'e' || c = 'E' then
      match rest with
      | s :: more =>
        if s = '+' || s = '-' then (digits more).map fun (ds, left) => (c :: s :: ds, left)
        else (digits rest).map fun (ds, left) => (c :: ds, left)
      | [] => none
    else some ([], c :: rest)
  | [] => some ([], [])

/-- A number, which no point and no name may follow directly. -/
def number : Parser Char Token := do
  let sign : List Char ← fun
    | '-' :: rest => some (['-'], rest)
    | cs => some ([], cs)
  let whole ← wholePart
  let part ← fraction
  let power ← exponent
  if ← Parser.peek fun c => c = '.' || isNameStart c then failure
  let text := String.ofList (sign ++ whole ++ part ++ power)
  return if part.isEmpty && power.isEmpty then .int text else .float text

/-! ## 3. Strings -/

/-- The characters of a string up to its closing quote.  `code` holds the digits read so far
inside a braced escape, latest first. -/
def stringBody : Option (List Char) → List Char → Option (List Char × List Char)
  | some code, '\x7d' :: rest => do
    if code.isEmpty then none
    let c ← char? (← hex? code.reverse)
    let (cs, rest) ← stringBody none rest
    return (c :: cs, rest)
  | some code, d :: rest =>
    if (hexDigit? d).isSome && code.length < 8 then stringBody (some (d :: code)) rest else none
  | none, '"' :: rest => some ([], rest)
  | none, '\\' :: 'u' :: '\x7b' :: rest => stringBody (some []) rest
  | none, '\\' :: 'u' :: a :: b :: c :: d :: rest => do
    let unit ← hex? [a, b, c, d]
    match char? unit, rest with
    | some char, rest =>
      let (cs, rest) ← stringBody none rest
      return (char :: cs, rest)
    | none, '\\' :: 'u' :: e :: f :: g :: h :: rest =>
      let char ← charOfPair? unit (← hex? [e, f, g, h])
      let (cs, rest) ← stringBody none rest
      return (char :: cs, rest)
    | none, _ => none
  | none, '\\' :: c :: rest => do
    let char ← escape? c
    let (cs, rest) ← stringBody none rest
    return (char :: cs, rest)
  | none, c :: rest =>
    if c = '\\' || isLineEnd c then none
    else do
      let (cs, rest) ← stringBody none rest
      return (c :: cs, rest)
  | _, [] => none

/-- The characters of a block string up to its closing quotes, as they stand there. -/
def blockBody : List Char → Option (List Char × List Char)
  | '"' :: '"' :: '"' :: rest => some ([], rest)
  | '\\' :: '"' :: '"' :: '"' :: rest => do
    let (cs, rest) ← blockBody rest
    return ('"' :: '"' :: '"' :: cs, rest)
  | c :: rest => do
    let (cs, rest) ← blockBody rest
    return (c :: cs, rest)
  | [] => none

/-! ## 4. The tokens of a text -/

/-- The next token, or nothing where only ignored characters stood. -/
def one (total : Nat) : Parser Char (Option Token)
  | [] => none
  | c :: rest =>
    if isIgnored c then some (none, rest.dropWhile isIgnored)
    else if c = '#' then some (none, rest.dropWhile fun c => !isLineEnd c)
    else if c = '@' then some (some (.at (total - (rest.length + 1))), rest)
    else if isMark c then some (some (.mark c), rest)
    else if isNameStart c then
      some (some (.name (String.ofList (c :: rest.takeWhile isNamePart))),
        rest.dropWhile isNamePart)
    else if c.isDigit || c = '-' then (number (c :: rest)).map fun (t, left) => (some t, left)
    else match c, rest with
      | '.', '.' :: '.' :: rest => some (some .spread, rest)
      | '"', '"' :: '"' :: rest =>
        (blockBody rest).map fun (cs, left) =>
          (some (.blockString (String.ofList (BlockString.value (Text.lines cs)))), left)
      | '"', rest =>
        (stringBody none rest).map fun (cs, left) => (some (.string (String.ofList cs)), left)
      | _, _ => none

/-- The tokens of a text, or nothing when some part of it is none. -/
def scan? (source : String) : Option (List Token) :=
  let cs := source.toList
  let whole : Parser Char (List (Option Token)) :=
    Parser.repeatWhile (fun left => !left.isEmpty) (one cs.length)
  (whole.run? cs).map (·.filterMap id)

end Token

end QueryCompiler
