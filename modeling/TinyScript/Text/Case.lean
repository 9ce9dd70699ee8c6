/-
  TinyScript.Text.Case — capital and small letters.

  Every character has its counterpart from the Unicode standard, which may be several characters.
  A capital sigma becomes a final sigma at the end of a word: a cased character stands before it and
  none after it, where characters that case ignores are passed over.
-/

import TinyScript.Text.CaseTable
import TinyScript.Text.Ranges

namespace TinyScript.Text

def CaseRun.has (r : CaseRun) (n : Nat) : Bool :=
  r.first ≤ n && n ≤ r.last && (n - r.first) % r.stride = 0

/-- The counterparts that runs and expansions give to `c`. -/
def counterpart (runs : List CaseRun) (expansions : List (Nat × List Nat)) (c : Char) : List Char :=
  match runs.find? (·.has c.toNat) with
  | some run => [Char.ofNat ((c.toNat : Int) + run.offset).toNat]
  | none =>
    match expansions.lookup c.toNat with
    | some several => several.map Char.ofNat
    | none => [c]

def upperChar (c : Char) : List Char :=
  if c.toNat < 0x80 then [c.toUpper] else counterpart upperRuns upperExpansions c

def lowerChar (c : Char) : List Char :=
  if c.toNat < 0x80 then [c.toLower] else counterpart lowerRuns lowerExpansions c

/-- Whether the first character that case does not ignore is cased. -/
def startsCased (cs : List Char) : Bool :=
  match cs.dropWhile (inRanges caseIgnorableRanges) with
  | c :: _ => inRanges casedRanges c
  | [] => false

def upper (cs : List Char) : List Char := cs.flatMap upperChar

/-- Small letters of `cs`, given the characters before it, the nearest first. -/
def lowerAfter : List Char → List Char → List Char
  | _, [] => []
  | before, c :: cs =>
    let small :=
      if c = 'Σ' then if startsCased before && !startsCased cs then ['ς'] else ['σ']
      else lowerChar c
    small ++ lowerAfter (c :: before) cs

def lower (cs : List Char) : List Char := lowerAfter [] cs

end TinyScript.Text
