/-
  TinyScript.Number.Digits — decimal digits and the numbers they write.

  A list of digits writes a number, most significant digit first. A long list is read by halves,
  which gives the same number (`natOfManyDigits_eq`) with far less work. The digits of an exponent
  count only up to a limit; below it they write what they always do (`exponentOfDigits_eq`).
-/

namespace TinyScript.Number

-- Powers of natural numbers are those of the core library, whatever else is imported.
attribute [local instance (high)] instPowNat

def isDigit (c : Char) : Bool := '0' ≤ c && c ≤ '9'

def digitValue (c : Char) : Nat := c.toNat - '0'.toNat

/-- The number written by the digits of `n` and then `c`. -/
def pushDigit (n : Nat) (c : Char) : Nat := 10 * n + digitValue c

/-- The number that a list of digits writes. -/
def natOfDigits (cs : List Char) : Nat := cs.foldl pushDigit 0

theorem foldl_pushDigit (cs : List Char) (n : Nat) :
    cs.foldl pushDigit n = n * 10 ^ cs.length + natOfDigits cs := by
  induction cs generalizing n with
  | nil => simp [natOfDigits]
  | cons c cs ih =>
    have tail : natOfDigits (c :: cs) = pushDigit 0 c * 10 ^ cs.length + natOfDigits cs := ih _
    rw [List.foldl_cons, ih, tail, List.length_cons, Nat.pow_succ]
    grind [pushDigit]

theorem natOfDigits_append (cs ds : List Char) :
    natOfDigits (cs ++ ds) = natOfDigits cs * 10 ^ ds.length + natOfDigits ds := by
  rw [natOfDigits, List.foldl_append, foldl_pushDigit]
  rfl

theorem le_foldl_pushDigit (cs : List Char) (n : Nat) : n ≤ cs.foldl pushDigit n := by
  rw [foldl_pushDigit]
  have := Nat.le_mul_of_pos_right n (Nat.pow_pos (n := cs.length) (show 0 < 10 by decide))
  omega

/-- The number that a list of digits writes, from its halves, their halves, and so on. -/
def natByHalves : Nat → List Char → Nat
  | 0, cs => natOfDigits cs
  | depth + 1, cs =>
    let half := cs.length / 2
    natByHalves depth (cs.take half) * 10 ^ (cs.length - half) + natByHalves depth (cs.drop half)

theorem natByHalves_eq (depth : Nat) (cs : List Char) : natByHalves depth cs = natOfDigits cs := by
  induction depth generalizing cs with
  | zero => rfl
  | succ depth ih =>
    have join := natOfDigits_append (cs.take (cs.length / 2)) (cs.drop (cs.length / 2))
    rw [List.take_append_drop, List.length_drop] at join
    rw [natByHalves, ih, ih, join]

/-- The number that a list of digits writes. Pieces of a few hundred digits are read one digit after
    the other. -/
def natOfManyDigits (cs : List Char) : Nat := natByHalves (cs.length.log2 - 8) cs

theorem natOfManyDigits_eq (cs : List Char) : natOfManyDigits cs = natOfDigits cs :=
  natByHalves_eq _ cs

/-- An exponent that has come this far takes in no more digits. -/
def exponentLimit : Nat := 65536

/-- The size of an exponent. Digits after the limit are read but do not count, so an exponent
    beyond it keeps only its leading digits. -/
def exponentOfDigits (cs : List Char) : Nat :=
  cs.foldl (fun n c => if n < exponentLimit then pushDigit n c else n) 0

theorem exponentOfDigits_eq {cs : List Char} (h : natOfDigits cs < exponentLimit) :
    exponentOfDigits cs = natOfDigits cs := by
  suffices ∀ n, cs.foldl pushDigit n < exponentLimit →
      cs.foldl (fun n c => if n < exponentLimit then pushDigit n c else n) n =
        cs.foldl pushDigit n from this 0 h
  clear h
  induction cs with
  | nil => exact fun _ _ => rfl
  | cons c cs ih =>
    intro n h
    have below : n < exponentLimit := Nat.lt_of_le_of_lt (le_foldl_pushDigit (c :: cs) n) h
    simp only [List.foldl_cons, if_pos below]
    exact ih _ h

end TinyScript.Number
