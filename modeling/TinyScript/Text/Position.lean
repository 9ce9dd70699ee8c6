/-
  TinyScript.Text.Position — places in a source text.

  A position is a character offset with the line and column a reader would name. Only a line feed
  starts a new line. Positions of different files are not ordered.
-/

namespace TinyScript.Text

structure Position where
  /-- Characters before this place. -/
  index : Nat
  /-- Counted from one. -/
  line : Nat
  /-- Counted from one. -/
  column : Nat
  file : String
  deriving DecidableEq, Repr, Inhabited

namespace Position

/-- The first place of a file. -/
def start (file : String) : Position := ⟨0, 1, 1, file⟩

/-- The place after the character `c`. -/
def advance (p : Position) (c : Char) : Position :=
  if c = '\n' then ⟨p.index + 1, p.line + 1, 1, p.file⟩
  else ⟨p.index + 1, p.line, p.column + 1, p.file⟩

/-- The place after all of `cs`. -/
def walk (p : Position) (cs : List Char) : Position := cs.foldl advance p

/-- The order of two places of one file. -/
def compare? (p q : Position) : Option Ordering :=
  if p.file = q.file then some (compare p.index q.index) else none

/-- `line:column`, for places whose file is known. -/
def lineColumn (p : Position) : String := toString p.line ++ ":" ++ toString p.column

/-- `file:line:column`. -/
def text (p : Position) : String := p.file ++ ":" ++ p.lineColumn

@[simp] theorem walk_nil (p : Position) : p.walk [] = p := rfl

@[simp] theorem walk_cons (p : Position) (c : Char) (cs : List Char) :
    p.walk (c :: cs) = (p.advance c).walk cs := rfl

end Position

end TinyScript.Text
