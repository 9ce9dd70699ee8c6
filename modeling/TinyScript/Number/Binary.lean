/-
  TinyScript.Number.Binary — the exact value of a double.

  A double is decoded from its bits into a sign and a magnitude, and a finite magnitude is
  `mantissa * 2 ^ exponent`. Rounding up, whole numbers and remainders are computed on these
  integers, so they are exact for every double.
-/

namespace TinyScript.Number

-- Powers of natural numbers are those of the core library, whatever else is imported.
attribute [local instance (high)] instPowNat

/-- The magnitude of a double. -/
inductive Magnitude where
  | finite (mantissa : Nat) (exponent : Int)
  | infinite
  | nan
  deriving DecidableEq, Repr

/-- Bits of the mantissa that are stored. -/
def fractionBits : Nat := 52

/-- The exponent of the smallest doubles, and of the last place of those below `2 ^ -1021`. -/
def leastExponent : Int := -1074

def isNegative (x : Float) : Bool := x.toBits.toNat / 2 ^ (63 : Nat) = 1

def magnitude (x : Float) : Magnitude :=
  let bits := x.toBits.toNat % 2 ^ (63 : Nat)
  let fraction := bits % 2 ^ fractionBits
  let biased : Nat := bits / 2 ^ fractionBits
  if biased = 2047 then
    if fraction = 0 then .infinite else .nan
  else if biased = 0 then .finite fraction leastExponent
  else .finite (2 ^ fractionBits + fraction) (leastExponent + ((biased - 1 : Nat) : Int))

def infinity : Float := Float.ofBits 0x7FF0000000000000

def notANumber : Float := Float.ofBits 0x7FF8000000000000

def negate (negative : Bool) (x : Float) : Float := if negative then -x else x

/-- The double `mantissa * 2 ^ exponent`, for a mantissa and exponent that one has exactly. -/
def ofBinary (mantissa : Nat) (exponent : Int) : Float :=
  if mantissa = 0 then Float.ofBits 0
  else
    -- The last place that still leaves room for the leading bit.
    let place := max leastExponent (exponent + mantissa.log2 - fractionBits)
    let scaled :=
      if exponent ≥ place then mantissa * 2 ^ (exponent - place).toNat
      else mantissa / 2 ^ (place - exponent).toNat
    let biased := if scaled < 2 ^ fractionBits then 0 else (place - leastExponent).toNat + 1
    Float.ofBits (biased * 2 ^ fractionBits + scaled % 2 ^ fractionBits).toUInt64

/-- The whole number that `x` is, if it is one. -/
def toInt? (x : Float) : Option Int :=
  match magnitude x with
  | .finite m q =>
    let signed := fun n : Nat => if isNegative x then -(n : Int) else n
    if q ≥ 0 then some (signed (m * 2 ^ q.toNat))
    else if m % 2 ^ (-q).toNat = 0 then some (signed (m / 2 ^ (-q).toNat))
    else none
  | _ => none

/-- The least whole number that is at least `x`, for a finite `x`. -/
def ceiling (x : Float) : Int :=
  match magnitude x with
  | .finite m q =>
    if q ≥ 0 then if isNegative x then -(m * 2 ^ q.toNat : Nat) else (m * 2 ^ q.toNat : Nat)
    else
      let unit := 2 ^ (-q).toNat
      if isNegative x then -((m / unit : Nat) : Int) else ((m + unit - 1) / unit : Nat)
  | _ => 0

/-- What is left of `x` after taking away `y` as often as it fits, with the sign of `x`. -/
def remainder (x y : Float) : Float :=
  match magnitude x, magnitude y with
  | .finite _ _, .infinite => x
  | .finite m q, .finite n r =>
    if n = 0 then notANumber
    else
      let place := min q r
      let rest := (m * 2 ^ (q - place).toNat) % (n * 2 ^ (r - place).toNat)
      negate (isNegative x) (ofBinary rest place)
  | _, _ => notANumber

end TinyScript.Number
