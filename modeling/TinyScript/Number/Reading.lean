/-
  TinyScript.Number.Reading — from digits to doubles.

  A decimal is a fraction, which is rounded to the nearest double. Literals of the source are digits
  with at most one point. Text that is converted to a number may also have a sign, a power of ten,
  and the words for infinity and for no number.
-/

import TinyScript.Number.Binary
import TinyScript.Number.Digits
import TinyScript.Text.Blank

namespace TinyScript.Number

open TinyScript.Text (trim)

-- Powers of natural numbers are those of the core library, whatever else is imported.
attribute [local instance (high)] instPowNat

/-- `n / d` as a whole number: the nearest one, and the even one of two that are equally near. -/
def roundHalf (n d : Nat) : Nat :=
  let below := n / d
  let rest := 2 * (n % d)
  if d < rest ∨ d = rest ∧ below % 2 = 1 then below + 1 else below

/-- The exponent of doubles around `n / d`. -/
def exponentAround (n d : Nat) : Int :=
  -- With this one the mantissa has a bit too few, or just enough.
  let q : Int := n.log2 - d.log2 - fractionBits
  max leastExponent
    (if n * 2 ^ (-q).toNat < 2 ^ fractionBits * (d * 2 ^ q.toNat) then q - 1 else q)

/-- The double nearest to `n / d`, for `0 < n` and `0 < d`. -/
def ofFraction (n d : Nat) : Float :=
  let q := exponentAround n d
  let m := roundHalf (n * 2 ^ (-q).toNat) (d * 2 ^ q.toNat)
  -- The leading bit of the mantissa counts on in the exponent, and so does a carry.
  let bits := (q - leastExponent).toNat * 2 ^ fractionBits + m
  if bits < 2047 * 2 ^ fractionBits then Float.ofBits bits.toUInt64 else infinity

/-- More decimal places than any double has, in either direction. -/
def farPlaces : Int := 400

/-- The double nearest to `digits * 10 ^ exponent`. -/
def ofDecimal (digits : Nat) (exponent : Int) : Float :=
  let top := exponent + (digits.log2 : Int) * 30103 / 100000
  if digits = 0 then Float.ofBits 0
  else if top > farPlaces then infinity
  else if top < -farPlaces then Float.ofBits 0
  else ofFraction (digits * 10 ^ exponent.toNat) (10 ^ (-exponent).toNat)

/-- The number that digits around a point write. -/
def ofPlaces (whole fraction : List Char) (exponent : Int) : Float :=
  ofDecimal (natOfManyDigits (whole ++ fraction)) (exponent - fraction.length)

/-- An optional sign, and what follows it. -/
def takeSign : List Char → Bool × List Char
  | '-' :: cs => (true, cs)
  | '+' :: cs => (false, cs)
  | cs => (false, cs)

/-- The power of ten after a mark, or zero where the text ends. -/
def readExponent? : List Char → Option Int
  | [] => some 0
  | c :: cs =>
    if c = 'e' ∨ c = 'E' then
      let (negative, digits) := takeSign cs
      if digits.isEmpty ∨ ¬ digits.all isDigit then none
      else some (if negative then -(exponentOfDigits digits : Int) else exponentOfDigits digits)
    else none

/-- Digits, a point and digits, with a digit on at least one side of the point. -/
def readPlaces? (cs : List Char) : Option Float :=
  let whole := cs.takeWhile isDigit
  let rest := cs.dropWhile isDigit
  let (fraction, rest) :=
    match rest with
    | '.' :: more => (more.takeWhile isDigit, more.dropWhile isDigit)
    | _ => ([], rest)
  if whole.isEmpty && fraction.isEmpty then none
  else (readExponent? rest).map (ofPlaces whole fraction)

def lowerAscii (cs : List Char) : List Char := cs.map Char.toLower

/-- The number written by the whole of `cs`. -/
def readNumber? (cs : List Char) : Option Float :=
  let (negative, body) := takeSign cs
  let word := String.ofList (lowerAscii body)
  let found :=
    if word = "inf" ∨ word = "infinity" then some infinity
    else if word = "nan" then some notANumber
    else readPlaces? body
  found.map (negate negative)

/-- Text as a number: blanks around it do not count, and what writes no number is not a number. -/
def ofText (s : String) : Float := (readNumber? (trim s.toList)).getD notANumber

end TinyScript.Number
