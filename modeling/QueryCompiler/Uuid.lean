import QueryCompiler.Number.Numeral
/-
# Universally unique identifiers

An identifier is a number of 128 bits, written as 32 hexadecimal digits in five groups.  The
reader takes it with or without the hyphens, in braces, and as a name of the urn scheme.
-/
namespace QueryCompiler

structure Uuid where
  value : Nat
  lt : value < twoTo 128
  deriving DecidableEq, Repr

namespace Uuid

def of? (n : Int) : Option Uuid :=
  if h : 0 ≤ n ∧ n.toNat < twoTo 128 then some ⟨n.toNat, h.2⟩ else none

/-- A text without the places where `part` stands, searched from the left. -/
def without (part : List Char) : Nat → List Char → List Char
  | 0, cs => cs
  | _, [] => []
  | n + 1, c :: cs =>
    if part.isPrefixOf (c :: cs) then without part n ((c :: cs).drop part.length)
    else c :: without part n cs

def isBrace (c : Char) : Bool := c = '\x7b' || c = '\x7d'

/-- The digits of an identifier without what may surround and separate them. -/
def bare (cs : List Char) : List Char :=
  let cs := without ['u', 'r', 'n', ':'] cs.length cs
  let cs := without ['u', 'u', 'i', 'd', ':'] cs.length cs
  let cs := ((cs.dropWhile isBrace).reverse.dropWhile isBrace).reverse
  cs.filter (· ≠ '-')

/-- Reads an identifier: 32 characters that are a number in base sixteen. -/
def read? (text : String) : Option Uuid := do
  let digits := bare text.toList
  if digits.length ≠ 32 then none
  of? (← Numeral.hex? digits)

/-- The 32 hexadecimal digits. -/
def digits (u : Uuid) : List Char := hexDigits 32 u.value

/-- The digits in groups of 8, 4, 4, 4 and 12. -/
def write (u : Uuid) : List Char :=
  let ds := u.digits
  ds.take 8 ++ '-' :: (ds.drop 8).take 4 ++ '-' :: (ds.drop 12).take 4 ++ '-' ::
    (ds.drop 16).take 4 ++ '-' :: ds.drop 20

end Uuid

end QueryCompiler
