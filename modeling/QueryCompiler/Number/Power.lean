/-
# Powers of two and of ten

The scales that numbers are written on.
-/
namespace QueryCompiler

/-- Two to the power of `n`. -/
abbrev twoTo (n : Nat) : Nat := Nat.pow 2 n

/-- Ten to the power of `n`. -/
abbrev tenTo (n : Nat) : Nat := Nat.pow 10 n

/-- The `n` lowest digits of a number in base sixteen. -/
def hexDigits (n value : Nat) : List Char :=
  (List.range n).map fun i => Nat.digitChar (value / twoTo (4 * (n - 1 - i)) % 16)

end QueryCompiler
