/-
  TinyScript.Number.Layout — how numbers are written.

  All three layouts write the shortest digits that read back. The plain one never uses an
  exponent, the script's one does so from `1e+21` and below `1e-6`, the listing's one from `1e16`
  and below `1e-4` and marks whole numbers with `.0`.
-/

import TinyScript.Number.Shortest

namespace TinyScript.Number

/-- `n` in decimal digits. -/
def digitsText (n : Nat) : String := toString n

def zeros (n : Nat) : String := String.ofList (List.replicate n '0')

/-- The decimal without an exponent. -/
def Decimal.positional (d : Decimal) : String :=
  let text := (digitsText d.digits).toList
  if d.exponent ≥ 0 then digitsText d.digits ++ zeros d.exponent.toNat
  else
    let places := (-d.exponent).toNat
    if places < text.length then
      String.ofList (text.take (text.length - places)) ++ "." ++
        String.ofList (text.drop (text.length - places))
    else "0." ++ zeros (places - text.length) ++ digitsText d.digits

/-- One digit before the point, then the power of ten, whose sign is written as `plus` asks. -/
def Decimal.scientific (plus : String) (d : Decimal) : String :=
  let text := (digitsText d.digits).toList
  let power : Int := d.exponent + (text.length - 1 : Nat)
  let mantissa :=
    if text.length = 1 then String.ofList text
    else String.ofList (text.take 1) ++ "." ++ String.ofList (text.drop 1)
  let exponent :=
    if power < 0 then "-" ++ digitsText (-power).toNat else plus ++ digitsText power.toNat
  mantissa ++ "e" ++ exponent

/-- The decisions of one layout. -/
structure Layout where
  /-- From this size on an exponent is written. -/
  upper : Option Float
  /-- Below this size an exponent is written. -/
  lower : Option Float
  /-- The sign of a positive exponent. -/
  plus : String
  /-- What follows a whole number without an exponent. -/
  whole : String
  negativeZero : String
  infinity : String
  negativeInfinity : String

/-- Source text: never an exponent. -/
def Layout.plain : Layout := ⟨none, none, "", "", "-0", "inf", "-inf"⟩

/-- What a running script shows. -/
def Layout.script : Layout := ⟨some 1e21, some 1e-6, "+", "", "0", "Infinity", "-Infinity"⟩

/-- Token listings: a whole number ends in `.0`. -/
def Layout.listing : Layout := ⟨some 1e16, some 1e-4, "", ".0", "-0.0", "inf", "-inf"⟩

/-- The text of a positive number, from its decimal. -/
def Layout.positive (n : Layout) (size : Float) (d : Decimal) : String :=
  if n.upper.all (size < ·) && n.lower.all (· ≤ size) then
    if d.exponent ≥ 0 then d.positional ++ n.whole else d.positional
  else d.scientific n.plus

def Layout.write (n : Layout) (x : Float) : String :=
  match magnitude x with
  | .nan => "NaN"
  | .infinite => if isNegative x then n.negativeInfinity else n.infinity
  | .finite m q =>
    if m = 0 then if isNegative x then n.negativeZero else "0" ++ n.whole
    else (if isNegative x then "-" else "") ++ n.positive (negate (isNegative x) x) (shortest m q)

/-- A number as a running script shows it. -/
def scriptText (x : Float) : String := Layout.script.write x

/-- A number as source text and messages about it show it. -/
def plainText (x : Float) : String := Layout.plain.write x

/-- A number as token listings show it. -/
def listingText (x : Float) : String := Layout.listing.write x

end TinyScript.Number
