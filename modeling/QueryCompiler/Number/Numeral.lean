import QueryCompiler.Number.Binary64
import QueryCompiler.Text.Blank
import QueryCompiler.Text.Digit
/-
# Numerals

Readers of numbers written by people: blanks on either side, a sign, the digits of any script,
and single low lines between digits to group them.
-/
namespace QueryCompiler.Numeral

open Text

/-- The text without the low lines between digits.  A low line anywhere else is a fault. -/
def ungrouped? (isDigit : Char → Bool) : Bool → List Char → Option (List Char)
  | _, [] => some []
  | afterDigit, '_' :: rest =>
    if afterDigit && rest.head?.any isDigit then ungrouped? isDigit false rest else none
  | _, c :: rest => (ungrouped? isDigit (isDigit c) rest).map (c :: ·)

/-- The sign in front, true for minus, and what follows. -/
def signed : List Char → Bool × List Char
  | '-' :: rest => (true, rest)
  | '+' :: rest => (false, rest)
  | cs => (false, cs)

/-- The number that digits write in a base. -/
def ofDigits (base : Nat) (digits : List Nat) : Nat := digits.foldl (fun n d => base * n + d) 0

/-- The values of the digits, when all characters are digits and there is at least one. -/
def digits? (value? : Char → Option Nat) (cs : List Char) : Option (List Nat) :=
  if cs.isEmpty then none else cs.mapM value?

/-- A whole number of more digits is not read. -/
def mostDigits : Nat := 4300

/-- Reads a whole number. -/
def int? (text : String) : Option Int := do
  let (negative, cs) := signed (stripped text.toList)
  let digits ← digits? digit? (← ungrouped? (fun c => (digit? c).isSome) false cs)
  if digits.length > mostDigits then none
  let n := ofDigits 10 digits
  return if negative then -(n : Int) else n

/-- The value of a digit in base sixteen: decimal digits of any script and Latin letters. -/
def hexDigit? (c : Char) : Option Nat :=
  match digit? c with
  | some n => some n
  | none =>
    if 'a' ≤ c ∧ c ≤ 'f' then some (c.toNat - 'a'.toNat + 10)
    else if 'A' ≤ c ∧ c ≤ 'F' then some (c.toNat - 'A'.toNat + 10)
    else none

/-- What follows the mark of base sixteen, a zero and the letter x, if the mark is there. -/
def afterHexMark? : List Char → Option (List Char)
  | zero :: x :: rest => if digit? zero = some 0 && (x = 'x' || x = 'X') then some rest else none
  | _ => none

/-- Reads a whole number in base sixteen, with or without the mark of the base in front. -/
def hex? (text : List Char) : Option Int := do
  let (negative, cs) := signed (stripped text)
  let isDigit (c : Char) : Bool := (hexDigit? c).isSome
  let (marked, cs) := match afterHexMark? cs with
    | some rest => (true, rest)
    | none => (false, cs)
  let digits ← digits? hexDigit? (← ungrouped? isDigit marked cs)
  let n := ofDigits 16 digits
  return if negative then -(n : Int) else n

/-- The digits at the front, and what follows. -/
def spanDigits (cs : List Char) : List Nat × List Char :=
  ((cs.takeWhile fun c => (digit? c).isSome).filterMap digit?,
   cs.dropWhile fun c => (digit? c).isSome)

/-- The exponent at the end of a decimal; no text is the exponent zero. -/
def exponent? : List Char → Option Int
  | [] => some 0
  | c :: rest =>
    if c = 'e' || c = 'E' then do
      let (negative, cs) := signed rest
      let digits ← digits? digit? cs
      return if negative then -(ofDigits 10 digits : Int) else ofDigits 10 digits
    else none

/-- Reads a decimal: digits with or without a point, and an exponent. -/
def decimal? (negative : Bool) (cs : List Char) : Option Binary64 := do
  let (whole, cs) := spanDigits cs
  let (part, cs) := match cs with
    | '.' :: rest => spanDigits rest
    | cs => ([], cs)
  if whole.isEmpty && part.isEmpty then none
  let power ← exponent? cs
  return Binary64.ofDecimal negative (ofDigits 10 (whole ++ part)) (power - part.length)

/-- Reads a double; the words for infinity and for no number are understood in any case. -/
def float? (text : String) : Option Binary64 := do
  let cs ← ungrouped? (fun c => (digit? c).isSome) false (stripped text.toList)
  let (negative, cs) := signed cs
  match String.ofList (cs.map Char.toLower) with
  | "nan" => return Binary64.nan
  | "inf" => return Binary64.infinity negative
  | "infinity" => return Binary64.infinity negative
  | _ => decimal? negative cs

end QueryCompiler.Numeral
