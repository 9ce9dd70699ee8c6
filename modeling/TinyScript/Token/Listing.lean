/-
  TinyScript.Token.Listing — tokens for people to look through.

  A listing has a line for each token: the number of its line where that changes, its column, and
  what kind of token it is with what it stands for.
-/

import TinyScript.Text.Hidden
import TinyScript.Token

namespace TinyScript

/-- The word with a capital. -/
def Keyword.label (k : Keyword) : String :=
  match k.text.toList with
  | c :: cs => String.ofList (c.toUpper :: cs)
  | [] => ""

def Mark.label : Mark → String
  | leftParen => "LeftParen"
  | rightParen => "RightParen"
  | leftBrace => "LeftBrace"
  | rightBrace => "RightBrace"
  | leftBracket => "LeftBracket"
  | rightBracket => "RightBracket"
  | comma => "Comma"
  | dot => "Dot"
  | colon => "Colon"
  | semicolon => "Semicolon"
  | plus => "Plus"
  | minus => "Minus"
  | star => "Star"
  | starStar => "StarStar"
  | slash => "Slash"
  | percent => "Percent"
  | bang => "Bang"
  | bangEqual => "BangEqual"
  | equalEqual => "EqualEqual"
  | less => "Less"
  | lessEqual => "LessEqual"
  | greater => "Greater"
  | greaterEqual => "GreaterEqual"
  | andAnd => "AndAnd"
  | orOr => "OrOr"
  | pipe => "Pipe"
  | questionQuestion => "QuestionQuestion"

def AssignSign.label : AssignSign → String
  | set => "Assign"
  | add => "Add"
  | subtract => "Subtract"
  | multiply => "Multiply"
  | divide => "Divide"
  | modulo => "Modulo"
  | power => "Pow"

namespace Token

/-- Hidden characters are written by their numbers. -/
def escapedChar (c : Char) : String :=
  if c = '"' then "\\\""
  else if c = '\\' then "\\\\"
  else if c = '\t' then "\\t"
  else if c = '\n' then "\\n"
  else if c = '\r' then "\\r"
  else if c = '\x00' then "\\0"
  else if Text.isHidden c then "\\u\x7b" ++ String.ofList (Nat.toDigits 16 c.toNat) ++ "\x7d"
  else String.singleton c

/-- A text between quotes, with what cannot be seen escaped. -/
def quoted (s : String) : String := "\"" ++ String.join (s.toList.map escapedChar) ++ "\""

/-- What kind of token it is. -/
def Kind.label : Kind → String
  | .number _ => "Number"
  | .string _ => "String"
  | .name _ => "Identifier"
  | .keyword _ => "Keyword"
  | .mark m => m.label
  | .assign _ => "Assign"
  | .eof => "Eof"

/-- What the token stands for, where its kind does not say it. -/
def Kind.detail? : Kind → Option String
  | .number x => some (Number.listingText x)
  | .string s => some (quoted s)
  | .name s => some (quoted s)
  | .keyword k => some k.label
  | .assign a => some a.label
  | .mark _ | .eof => none

def Kind.listing (k : Kind) : String :=
  match k.detail? with
  | some detail => k.label ++ "(" ++ detail ++ ")"
  | none => k.label

def padLeft (width : Nat) (s : String) : String :=
  String.ofList (List.replicate (width - s.length) ' ') ++ s

def padRight (width : Nat) (s : String) : String :=
  s ++ String.ofList (List.replicate (width - s.length) ' ')

/-- A line for each token, where the one before stands in line `last`. -/
def listingFrom (last : Nat) : List Token → String
  | [] => ""
  | t :: ts =>
    let margin := if t.pos.line = last then "   | " else padLeft 4 (toString t.pos.line) ++ " "
    margin ++ padRight 4 (toString t.pos.column) ++ " " ++ t.kind.listing ++ "\n"
      ++ listingFrom t.pos.line ts

def listing (tokens : List Token) : String := listingFrom 0 tokens

end Token

end TinyScript
