/-
  TinyScript.Token — the words of the language.

  A token is a number, a string, a name, a reserved word, a mark, an assignment sign or the end of
  the file, at the position of its first character.
-/

import TinyScript.Number.Layout
import TinyScript.Text.Position

namespace TinyScript

open TinyScript.Text

/-- The reserved words. `namespace` is not among them: it is a name that the grammar reads as a
    word where a body follows. -/
inductive Keyword where
  | letWord | constWord | varWord | funcWord | classWord | returnWord | ifWord | elseWord
  | whileWord | forWord | inWord | breakWord | continueWord | importWord | exportWord
  | trueWord | falseWord | nilWord
  deriving DecidableEq, Repr

namespace Keyword

def all : List Keyword :=
  [letWord, constWord, varWord, funcWord, classWord, returnWord, ifWord, elseWord, whileWord,
    forWord, inWord, breakWord, continueWord, importWord, exportWord, trueWord, falseWord, nilWord]

def text : Keyword → String
  | letWord => "let"
  | constWord => "const"
  | varWord => "var"
  | funcWord => "func"
  | classWord => "class"
  | returnWord => "return"
  | ifWord => "if"
  | elseWord => "else"
  | whileWord => "while"
  | forWord => "for"
  | inWord => "in"
  | breakWord => "break"
  | continueWord => "continue"
  | importWord => "import"
  | exportWord => "export"
  | trueWord => "true"
  | falseWord => "false"
  | nilWord => "nil"

/-- The reserved word spelled `word`, if it is one. -/
def ofText? (word : String) : Option Keyword := all.find? (·.text == word)

end Keyword

/-- Punctuation and operators other than assignment. -/
inductive Mark where
  | leftParen | rightParen | leftBrace | rightBrace | leftBracket | rightBracket
  | comma | dot | colon | semicolon
  | plus | minus | star | starStar | slash | percent | bang | bangEqual | equalEqual
  | less | lessEqual | greater | greaterEqual | andAnd | orOr | pipe | questionQuestion
  deriving DecidableEq, Repr

namespace Mark

def text : Mark → String
  | leftParen => "("
  | rightParen => ")"
  | leftBrace => "\x7b"
  | rightBrace => "\x7d"
  | leftBracket => "["
  | rightBracket => "]"
  | comma => ","
  | dot => "."
  | colon => ":"
  | semicolon => ";"
  | plus => "+"
  | minus => "-"
  | star => "*"
  | starStar => "**"
  | slash => "/"
  | percent => "%"
  | bang => "!"
  | bangEqual => "!="
  | equalEqual => "=="
  | less => "<"
  | lessEqual => "<="
  | greater => ">"
  | greaterEqual => ">="
  | andAnd => "&&"
  | orOr => "||"
  | pipe => "|"
  | questionQuestion => "??"

end Mark

/-- The assignment signs. All but `set` combine the old value with the new one. -/
inductive AssignSign where
  | set | add | subtract | multiply | divide | modulo | power
  deriving DecidableEq, Repr

def AssignSign.text : AssignSign → String
  | set => "="
  | add => "+="
  | subtract => "-="
  | multiply => "*="
  | divide => "/="
  | modulo => "%="
  | power => "**="

namespace Token

inductive Kind where
  | number (value : Float)
  | string (text : String)
  | name (text : String)
  | keyword (word : Keyword)
  | mark (mark : Mark)
  | assign (sign : AssignSign)
  | eof
  deriving Repr, Inhabited

/-- A token as messages name it. -/
def Kind.text : Kind → String
  | .number x => "number " ++ Number.plainText x
  | .string s => "string '" ++ s ++ "'"
  | .name s => "identifier '" ++ s ++ "'"
  | .keyword k => "'" ++ k.text ++ "'"
  | .mark m => "'" ++ m.text ++ "'"
  | .assign a => "'" ++ a.text ++ "'"
  | .eof => "end of file"

end Token

structure Token where
  kind : Token.Kind
  pos : Position
  deriving Repr, Inhabited

end TinyScript
