/-
  TinyScript.Text.Ranges — classes of characters, as ranges of their numbers.

  A class is given by lengths: how many numbers come before its first range, how many that range
  has, how many come before the next one, and so on.
-/

namespace TinyScript.Text

/-- Whether a number is in one of the ranges, of which every other one counts, the first one if
    `counts`. -/
def inTurns : (counts : Bool) → (lengths : List Nat) → Nat → Bool
  | _, [], _ => false
  | counts, length :: lengths, n =>
    if n < length then counts else inTurns (!counts) lengths (n - length)

/-- Whether the class that has these lengths has `c`. -/
def inRanges (lengths : List Nat) (c : Char) : Bool := inTurns false lengths c.toNat

end TinyScript.Text
