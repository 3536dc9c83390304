/-
# Parsers

A parser takes a list of symbols and answers a value with the symbols left over, or fails.
Repetition is bounded by the count of symbols at hand, so every parser here is a total function:
a round that consumes nothing would be the only way to run out, and it fails.
-/
namespace QueryCompiler

/-- A parser over symbols of type `τ`. -/
abbrev Parser (τ α : Type) := StateT (List τ) Option α

namespace Parser

variable {τ α : Type}

/-- Takes the next symbol when `f` knows it. -/
def next? (f : τ → Option α) : Parser τ α
  | [] => none
  | t :: ts => (f t).map (·, ts)

/-- The next symbol satisfies `p`; nothing is taken. -/
def peek (p : τ → Bool) : Parser τ Bool := fun ts => some (ts.head?.any p, ts)

/-- The rounds of `repeatWhile`, at most `n` of them. -/
def rounds (again : List τ → Bool) (p : Parser τ α) : Nat → Parser τ (List α)
  | 0, ts => if again ts then none else some ([], ts)
  | n + 1, ts =>
    if again ts then do
      let (a, ts) ← p ts
      let (as, ts) ← rounds again p n ts
      return (a :: as, ts)
    else some ([], ts)

/-- Runs `p` as long as `again` holds of what is left. -/
def repeatWhile (again : List τ → Bool) (p : Parser τ α) : Parser τ (List α) :=
  fun ts => rounds again p ts.length ts

/-- `p` on the whole input. -/
def run? (p : Parser τ α) (ts : List τ) : Option α :=
  match p ts with
  | some (a, []) => some a
  | _ => none

end Parser

end QueryCompiler
