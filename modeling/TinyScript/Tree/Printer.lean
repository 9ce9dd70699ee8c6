/-
  TinyScript.Tree.Printer — the text of a program tree.

  Operators stand in front of their operands in parentheses. A body is written over several lines
  between braces.
-/

import TinyScript.Tree

namespace TinyScript

def UnaryOp.text : UnaryOp → String
  | negate => "-"
  | plus => "+"
  | not => "!"

def BinaryOp.text : BinaryOp → String
  | equal => "=="
  | notEqual => "!="
  | less => "<"
  | lessEqual => "<="
  | greater => ">"
  | greaterEqual => ">="
  | add => "+"
  | subtract => "-"
  | multiply => "*"
  | divide => "/"
  | modulo => "%"
  | power => "**"
  | and => "&&"
  | or => "||"
  | coalesce => "??"

def Qualifier.text : Qualifier → String
  | letDecl => "let"
  | constDecl => "const"
  | varDecl => "var"

def Literal.text : Literal → String
  | number x => Number.plainText x
  | string s => "'" ++ s ++ "'"
  | boolean b => if b then "true" else "false"
  | nil => "nil"

def Typing.text (t : Typing) : String := String.intercalate " | " t.names

def typingText : Option Typing → String
  | some t => ": " ++ t.text
  | none => ""

def Param.text (p : Param) : String := p.name ++ typingText p.typing

def paramsText (ps : List Param) : String := String.intercalate ", " (ps.map Param.text)

def exportText (exported : Bool) : String := if exported then "export " else ""

mutual

def Expr.text : Expr → String
  | .name _ s => s
  | .literal _ l => l.text
  | .group _ e => "(" ++ e.text ++ ")"
  | .array _ items => "[" ++ String.intercalate ", " (exprTexts items) ++ "]"
  | .object _ fields => "\x7b" ++ String.intercalate ", " (fieldTexts fields) ++ "\x7d"
  | .binary _ op l r => "(" ++ op.text ++ " " ++ l.text ++ " " ++ r.text ++ ")"
  | .unary _ op e => "(" ++ op.text ++ " " ++ e.text ++ ")"
  | .assign _ sign t v => t.text ++ " " ++ sign.text ++ " " ++ v.text
  | .call _ f args => f.text ++ "(" ++ String.intercalate ", " (exprTexts args) ++ ")"
  | .member _ e field => e.text ++ "." ++ field
  | .index _ e k => e.text ++ "[" ++ k.text ++ "]"
  | .function _ d => d.text
  | .classDef _ d => d.text
  | .namespaceDef _ d => d.text
  | .importFrom _ e => "import(" ++ e.text ++ ")"

def exprTexts : List Expr → List String
  | [] => []
  | e :: es => e.text :: exprTexts es

def fieldTexts : List (String × Expr) → List String
  | [] => []
  | (k, e) :: fs => (k ++ ": " ++ e.text) :: fieldTexts fs

def Stmt.text : Stmt → String
  | .expr _ e => e.text ++ ";"
  | .declare _ q name typing none exported =>
    exportText exported ++ q.text ++ " " ++ name ++ typingText typing ++ ";"
  | .declare _ q name typing (some e) exported =>
    exportText exported ++ q.text ++ " " ++ name ++ typingText typing ++ " = " ++ e.text ++ ";"
  | .destructure _ q targets e exported =>
    exportText exported ++ q.text ++ " [" ++ paramsText targets ++ "] = " ++ e.text ++ ";"
  | .function _ d exported => exportText exported ++ d.text
  | .classDef _ d exported => exportText exported ++ d.text
  | .namespaceDef _ d exported => exportText exported ++ d.text
  | .ifElse _ c body none => "if " ++ c.text ++ " " ++ "\x7b\n" ++ linesText body ++ "\x7d"
  | .ifElse _ c body (some other) =>
    "if " ++ c.text ++ " " ++ "\x7b\n" ++ linesText body ++ "\x7d" ++ " else " ++ other.text
  | .whileLoop _ c body => "while " ++ c.text ++ " " ++ "\x7b\n" ++ linesText body ++ "\x7d"
  | .forLoop _ x e body =>
    "for " ++ x ++ " in " ++ e.text ++ " " ++ "\x7b\n" ++ linesText body ++ "\x7d"
  | .block _ body => "\x7b\n" ++ linesText body ++ "\x7d"
  | .returnValue _ none => "return;"
  | .returnValue _ (some e) => "return " ++ e.text ++ ";"
  | .breakLoop _ => "break;"
  | .continueLoop _ => "continue;"

/-- Statements, each on lines of its own. -/
def linesText : List Stmt → String
  | [] => ""
  | s :: ss => s.text ++ "\n" ++ linesText ss

def FunctionDecl.text : FunctionDecl → String
  | ⟨name, params, returns, body, _⟩ =>
    "func " ++ name.getD "" ++ "(" ++ paramsText params ++ ")" ++ typingText returns ++ " " ++
      "\x7b\n" ++ linesText body ++ "\x7d"

def methodsText : List FunctionDecl → String
  | [] => ""
  | d :: ds => d.text ++ "\n" ++ methodsText ds

def ClassDecl.text : ClassDecl → String
  | ⟨name, properties, methods, _⟩ =>
    "class " ++ (name.map (· ++ " ")).getD "" ++ "\x7b\n" ++
      String.join (properties.map fun p => p.text ++ ";\n") ++ methodsText methods ++ "\x7d"

def NamespaceDecl.text : NamespaceDecl → String
  | ⟨name, body, _⟩ =>
    "namespace " ++ (name.map (· ++ " ")).getD "" ++ "\x7b\n" ++ linesText body ++ "\x7d"

end

/-- The text of a whole program. -/
def programText (p : Program) : String := linesText p

end TinyScript
