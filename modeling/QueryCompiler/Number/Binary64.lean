import QueryCompiler.Number.Power
/-
# Doubles

A double is its 64 bits.  A finite one is a sign, a whole significand and a power of two
(`significand`, `exponent`); the double nearest to a quotient of whole numbers is found by exact
arithmetic on these (`nearest`), half-way cases going to the even significand.
-/
namespace QueryCompiler

/-- A double by its bits. -/
structure Binary64 where
  bits : UInt64
  deriving DecidableEq, Repr

/-- The quotient rounded to the nearest whole number, and to the even one of two. -/
def roundHalfEven (num den : Nat) : Nat :=
  let whole := num / den
  let left := num % den
  if 2 * left > den || (2 * left = den && whole % 2 = 1) then whole + 1 else whole

namespace Binary64

/-! ## 1. The parts of a double -/

/-- The count of bits after the leading bit of a significand. -/
def fractionBits : Nat := 52

/-- The exponent of the smallest doubles. -/
def minExponent : Int := -1074

/-- The magnitude that stands for infinity. -/
def infiniteMagnitude : Nat := 0x7FF0000000000000

/-- The bits without the sign. -/
def magnitude (x : Binary64) : Nat := x.bits.toNat % twoTo 63

def isNegative (x : Binary64) : Bool := twoTo 63 ≤ x.bits.toNat

def isNaN (x : Binary64) : Bool := infiniteMagnitude < x.magnitude

def isInfinite (x : Binary64) : Bool := x.magnitude == infiniteMagnitude

def isZero (x : Binary64) : Bool := x.magnitude == 0

/-- The exponent field. -/
def scale (x : Binary64) : Nat := x.magnitude / twoTo fractionBits

/-- The whole number that a power of two scales. -/
def significand (x : Binary64) : Nat :=
  x.magnitude % twoTo fractionBits + if x.scale = 0 then 0 else twoTo fractionBits

/-- The power of two that scales the significand. -/
def exponent (x : Binary64) : Int := minExponent + (max x.scale 1 - 1 : Nat)

/-- The double of a sign and a magnitude. -/
def ofMagnitude (negative : Bool) (magnitude : Nat) : Binary64 :=
  ⟨UInt64.ofNat (magnitude + if negative then twoTo 63 else 0)⟩

def infinity (negative : Bool) : Binary64 := ofMagnitude negative infiniteMagnitude

/-- One of the doubles that are no number. -/
def nan : Binary64 := ofMagnitude false (infiniteMagnitude + twoTo 51)

/-! ## 2. Rounding -/

/-- Whether `num / den` is at least two to the power of `e`. -/
def atLeastPower (num den : Nat) (e : Int) : Bool := den * twoTo e.toNat ≤ num * twoTo (-e).toNat

/-- The double nearest to `num / den`; past the largest one, infinity. -/
def nearest (negative : Bool) (num den : Nat) : Binary64 :=
  if num = 0 then ofMagnitude negative 0
  else
    let guess : Int := (num.log2 : Int) - den.log2
    let top := if atLeastPower num den guess then guess else guess - 1
    let unit := max (top - fractionBits) minExponent
    let steps := roundHalfEven (num * twoTo (-unit).toNat) (den * twoTo unit.toNat)
    let magnitude := (unit - minExponent).toNat * twoTo fractionBits + steps
    ofMagnitude negative (min magnitude infiniteMagnitude)

/-- The count of decimal digits of a number. -/
def digitCount (n : Nat) : Nat := (Nat.toDigits 10 n).length

/-- The double nearest to `digits` times ten to the power of `power`.  Powers far outside the
range of doubles are decided by the count of digits alone. -/
def ofDecimal (negative : Bool) (digits : Nat) (power : Int) : Binary64 :=
  let reach := (digitCount digits : Int) + power
  if digits = 0 || reach < -330 then ofMagnitude negative 0
  else if reach > 310 then infinity negative
  else nearest negative (digits * tenTo power.toNat) (tenTo (-power).toNat)

/-! ## 3. Comparison with whole numbers and other doubles -/

/-- Whether a double is the number `n`. -/
def isInt (x : Binary64) (n : Int) : Bool :=
  !x.isNaN && !x.isInfinite
    && (x.isZero || x.isNegative == decide (n < 0))
    && x.significand * twoTo x.exponent.toNat == n.natAbs * twoTo (-x.exponent).toNat

/-- Whether two doubles are the same number; no number is no number, and both zeros are one. -/
def sameNumber (x y : Binary64) : Bool :=
  !x.isNaN && !y.isNaN && (x == y || (x.isZero && y.isZero))

end Binary64

end QueryCompiler
