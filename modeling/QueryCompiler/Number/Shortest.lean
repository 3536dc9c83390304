import QueryCompiler.Number.Binary64
import QueryCompiler.Text.Digit
/-
# The shortest decimal of a double

Of all decimals that round to a double, the one with the fewest digits, and of those the
nearest.  The numbers that round to a double form an interval around it, closed when its
significand is even.  A decimal of `n` digits lies in it only if one of the two neighbours of
the double on the grid of that many digits does, so the grids are tried from the coarsest on.
-/
namespace QueryCompiler.Binary64

/-- A double between the ends of the numbers that round to it, all over one denominator. -/
structure Interval where
  low : Nat
  value : Nat
  high : Nat
  denominator : Nat
  closed : Bool

/-- The numbers that round to the magnitude of a double.  Below a power of two, doubles are
twice as dense. -/
def interval (x : Binary64) : Interval :=
  let up := twoTo x.exponent.toNat
  let below := if x.significand = twoTo fractionBits && x.scale > 1 then 1 else 2
  { low := (4 * x.significand - below) * up
    value := 4 * x.significand * up
    high := (4 * x.significand + 2) * up
    denominator := 4 * twoTo (-x.exponent).toNat
    closed := x.significand % 2 = 0 }

/-- The power of ten of the first digit of `num / den`, which is not zero and not the inverse
of a power of ten. -/
def leadingPower (num den : Nat) : Int :=
  if den ≤ num then (digitCount (num / den) : Int) - 1 else -(digitCount (den / num) : Int)

/-- The better of the two neighbours on the grid of ten to the power of `power`. -/
def neighbour? (i : Interval) (power : Int) : Option Nat :=
  let unit := i.denominator * tenTo power.toNat
  let up := tenTo (-power).toNat
  let inside (n : Nat) : Bool :=
    if i.closed then i.low * up ≤ n * unit && n * unit ≤ i.high * up
    else i.low * up < n * unit && n * unit < i.high * up
  let below := i.value * up / unit
  let left := i.value * up - below * unit
  let right := (below + 1) * unit - i.value * up
  match inside below, inside (below + 1) with
  | true, true =>
    if left < right || (left = right && below % 2 = 0) then some below else some (below + 1)
  | true, false => some below
  | false, true => some (below + 1)
  | false, false => none

/-- Seventeen digits are always enough. -/
def mostDigits : Nat := 17

/-- The digits of a number without zeros at the end, and where its point stands: the number is
the digits after a point, times ten to the power of the second part. -/
def trimmedDigits (n : Nat) (power : Int) : List Char × Int :=
  let digits := Nat.toDigits 10 n
  ((digits.reverse.dropWhile (· = '0')).reverse, digits.length + power)

/-- The shortest decimal of the magnitude of a double that is a number and not zero. -/
def shortest (x : Binary64) : List Char × Int :=
  let i := x.interval
  let top := leadingPower i.value i.denominator
  let grids := (List.range mostDigits).map fun (n : Nat) => top - (n : Int)
  match grids.findSome? fun power => (neighbour? i power).map (·, power) with
  | some (n, power) => trimmedDigits n power
  | none => ([], 0)

/-- How a decimal is laid out. -/
structure Layout where
  /-- Positional while the point is right of this place. -/
  lowPoint : Int
  /-- Positional while the point is not right of this place. -/
  highPoint : Int
  /-- The least count of digits of an exponent. -/
  exponentDigits : Nat

/-- The text of digits and a point. -/
def Layout.write (layout : Layout) (digits : List Char) (point : Int) : List Char :=
  if layout.lowPoint < point && point ≤ layout.highPoint then
    if point ≤ 0 then '0' :: '.' :: List.replicate (-point).toNat '0' ++ digits
    else
      let whole := digits.take point.toNat
      let rest := digits.drop point.toNat
      whole ++ List.replicate (point.toNat - whole.length) '0' ++ ['.']
        ++ (if rest.isEmpty then ['0'] else rest)
  else
    let power := point - 1
    digits.take 1 ++ (if digits.length ≤ 1 then [] else '.' :: digits.drop 1)
      ++ ['e', if power < 0 then '-' else '+'] ++ Text.zeroPadded layout.exponentDigits power.natAbs

/-- The text of a double in a layout. -/
def write (layout : Layout) (x : Binary64) : String :=
  if x.isNaN then "nan"
  else
    let sign := if x.isNegative then "-" else ""
    if x.isInfinite then sign ++ "inf"
    else if x.isZero then sign ++ "0.0"
    else
      let (digits, point) := x.shortest
      sign ++ String.ofList (layout.write digits point)

end QueryCompiler.Binary64
