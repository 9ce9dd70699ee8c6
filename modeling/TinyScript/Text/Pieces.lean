/-
  TinyScript.Text.Pieces — cutting a text at a separator and looking up a place.

  A text is cut at the leftmost occurrence of the separator, then after it, and so on, so the
  occurrences never overlap. The empty separator cuts between all characters and leaves no piece
  for the ends.
-/

namespace TinyScript.Text

/-- Puts `c` in front of the first piece. -/
def extendFirst (c : Char) : List (List Char) → List (List Char)
  | [] => [[c]]
  | piece :: rest => (c :: piece) :: rest

/-- The pieces between occurrences of a non-empty `sep`, after `skip` characters that still belong
    to the last occurrence. -/
def piecesAfter (sep : List Char) : Nat → List Char → List (List Char)
  | _, [] => [[]]
  | skip + 1, _ :: cs => piecesAfter sep skip cs
  | 0, c :: cs =>
    if sep.isPrefixOf (c :: cs) then [] :: piecesAfter sep (sep.length - 1) cs
    else extendFirst c (piecesAfter sep 0 cs)

/-- The pieces of `cs` between occurrences of `sep`. -/
def pieces (sep cs : List Char) : List (List Char) :=
  if sep.isEmpty then cs.map ([·]) else piecesAfter sep 0 cs

/-- The character at a place. -/
def charAt? (s : String) (i : Nat) : Option Char := (s.drop i).front?

theorem charAt?_eq (s : String) (i : Nat) : charAt? s i = s.toList[i]? := by
  rw [charAt?, String.Slice.front?_eq, String.toList_copy_drop, List.head?_drop]

end TinyScript.Text
