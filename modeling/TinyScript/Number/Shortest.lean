/-
  TinyScript.Number.Shortest — the fewest decimal digits that read back.

  The reals that round to a double form an interval around it, with its ends when the mantissa is
  even. The decimal of a double is the first one found in that interval when the decimal grid is
  refined digit by digit. Of two neighbours on one grid the nearer is taken, and the upper one when
  both are equally near.
-/

import TinyScript.Number.Binary

namespace TinyScript.Number

-- Powers of natural numbers are those of the core library, whatever else is imported.
attribute [local instance (high)] instPowNat

/-- The number `digits * 10 ^ exponent`. -/
structure Decimal where
  digits : Nat
  exponent : Int
  deriving DecidableEq, Repr

/-- The reals that round to one double, as fractions over a common denominator. -/
structure Interval where
  low : Nat
  value : Nat
  high : Nat
  denominator : Nat
  /-- The ends belong to it. -/
  closed : Bool
  deriving DecidableEq, Repr

namespace Interval

/-- The interval of `m * 2 ^ q`. Below a power of two the next double is half as far away. -/
def ofBinary (m : Nat) (q : Int) : Interval :=
  let scale := 2 ^ (q - 2).toNat
  let below := if m = 2 ^ fractionBits ∧ q > leastExponent then 1 else 2
  { low := (4 * m - below) * scale
    value := 4 * m * scale
    high := (4 * m + 2) * scale
    denominator := 2 ^ (2 - q).toNat
    closed := m % 2 = 0 }

/-- Whether `n * 10 ^ place` lies in the interval. -/
def contains (i : Interval) (n : Nat) (place : Int) : Bool :=
  let point := n * i.denominator * 10 ^ place.toNat
  let low := i.low * 10 ^ (-place).toNat
  let high := i.high * 10 ^ (-place).toNat
  if i.closed then low ≤ point && point ≤ high else low < point && point < high

/-- The point of the grid `10 ^ place` in the interval that is nearest to the value. -/
def nearest? (i : Interval) (place : Int) : Option Nat :=
  let value := i.value * 10 ^ (-place).toNat
  let unit := i.denominator * 10 ^ place.toNat
  let below := value / unit
  match i.contains below place, i.contains (below + 1) place with
  | true, true => if 2 * (value % unit) < unit then some below else some (below + 1)
  | true, false => some below
  | false, true => some (below + 1)
  | false, false => none

/-- The first grid point found from `10 ^ place` on, over at most `n` finer grids. -/
def search (i : Interval) : Nat → Int → Decimal
  | 0, place => ⟨i.value * 10 ^ (-place).toNat / (i.denominator * 10 ^ place.toNat), place⟩
  | n + 1, place =>
    match i.nearest? place with
    | some digits => ⟨digits, place⟩
    | none => i.search n (place - 1)

/-- The greatest `place` with `10 ^ place` at most the value, looked for downwards from `place`. -/
def leading (i : Interval) : Nat → Int → Int
  | 0, place => place
  | n + 1, place =>
    if i.denominator * 10 ^ place.toNat ≤ i.value * 10 ^ (-place).toNat then place
    else i.leading n (place - 1)

end Interval

/-- Trailing zeros move to the exponent, over at most `n` digits. -/
def Decimal.trim : Nat → Decimal → Decimal
  | 0, d => d
  | n + 1, d =>
    if d.digits % 10 = 0 ∧ d.digits ≠ 0 then Decimal.trim n ⟨d.digits / 10, d.exponent + 1⟩ else d

/-- Seventeen digits tell any two doubles apart. -/
def maxDigits : Nat := 17

/-- The shortest decimal that reads back as `m * 2 ^ q`, the nearest of those, for `0 < m`. -/
def shortest (m : Nat) (q : Int) : Decimal :=
  let i := Interval.ofBinary m q
  -- The decimal exponent is at most this, and at least this less forty: a factor of two is worth
  -- between three tenths and a third of a decimal digit.
  let binary : Int := m.log2 + q
  let bound := max (binary / 3) (binary * 3 / 10) + 1
  Decimal.trim (maxDigits + 1) (i.search maxDigits (i.leading 40 bound))

end TinyScript.Number
