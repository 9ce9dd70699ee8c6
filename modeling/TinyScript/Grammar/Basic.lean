/-
  TinyScript.Grammar.Basic — what the rules of the grammar share.

  A rule reads a tree from the front of a token list and returns the tokens after it, or fails with
  the first syntax error. It runs in a context: the rules being read, for messages, and the bodies
  around it, which decide where `return`, `break`, `continue` and `export` may stand. Rules that
  repeat are bounded by the tokens left when they start, since every turn takes at least one.
-/

import TinyScript.Tree

namespace TinyScript

open TinyScript.Text

namespace Grammar

/-- The rules of the grammar as messages name them. -/
inductive Rule where
  | program | statement | function | classDef | namespaceDef | destructuring | declaration | typing
  | property | method | block | ifElse | whileLoop | forLoop | returnValue | expression | assignment
  | unary | call | index | primary | array | object | importFrom
  deriving DecidableEq, Repr

def Rule.text : Rule → String
  | program => "program"
  | statement => "statement"
  | function => "function"
  | classDef => "class"
  | namespaceDef => "namespace"
  | destructuring => "destructuring"
  | declaration => "declaration"
  | typing => "type"
  | property => "property"
  | method => "method"
  | block => "block"
  | ifElse => "if"
  | whileLoop => "while"
  | forLoop => "for"
  | returnValue => "return"
  | expression => "expression"
  | assignment => "assignment"
  | unary => "unary"
  | call => "call"
  | index => "index"
  | primary => "primary"
  | array => "array"
  | object => "object"
  | importFrom => "import"

/-- Why a token list is not a program. -/
inductive Cause where
  | expected (kind : Token.Kind)
  | expectedOneOf (kinds : List Token.Kind)
  | expectedName
  | expectedExpression
  | expectedType
  | expectedDeclaration
  | invalidTarget
  | missingInitializer (name : String)
  | returnOutsideFunction
  | outsideLoop (word : Keyword)
  | exportNotTopLevel
  | nestedTooDeeply
  deriving Repr

def Cause.text : Cause → String
  | expected k => "Expected " ++ k.text
  | expectedOneOf ks => "Expected one of " ++ String.intercalate ", " (ks.map (·.text))
  | expectedName => "Expected identifier"
  | expectedExpression => "Expected expression"
  | expectedType => "Expected type name"
  | expectedDeclaration => "Expected declaration after 'export'"
  | invalidTarget => "Invalid assignment target"
  | missingInitializer name => "Constant '" ++ name ++ "' must be initialized"
  | returnOutsideFunction => "'return' outside of a function"
  | outsideLoop word => "'" ++ word.text ++ "' outside of a loop"
  | exportNotTopLevel => "'export' is only allowed at the top level"
  | nestedTooDeeply => "Expression nested too deeply"

end Grammar

/-- The first place where a token list stops being a program. -/
structure SyntaxError where
  cause : Grammar.Cause
  pos : Position
  found : Token.Kind
  /-- The rules being read, the outermost first. -/
  rules : List Grammar.Rule
  deriving Repr

def SyntaxError.message (e : SyntaxError) : String :=
  e.cause.text ++ ", found " ++ e.found.text ++ " while parsing " ++
    String.intercalate " > " (e.rules.map (·.text))

namespace Grammar

/-- The bodies that statements stand in. -/
inductive Body where
  | block | loop | function | namespaceDef
  deriving DecidableEq, Repr

structure Context where
  /-- The rules being read, the innermost first. -/
  rules : List Rule
  /-- The bodies around, the innermost first. -/
  bodies : List Body
  deriving DecidableEq, Repr

namespace Context

def within (c : Context) (r : Rule) : Context := { c with rules := r :: c.rules }

def enter (c : Context) (b : Body) : Context := { c with bodies := b :: c.bodies }

def atTopLevel (c : Context) : Bool := c.bodies.isEmpty

/-- No namespace body stands between here and the nearest function body. -/
def inFunction (c : Context) : Bool :=
  c.bodies.find? (fun b => b = .function ∨ b = .namespaceDef) = some .function

/-- Only blocks stand between here and the nearest loop body. -/
def inLoop (c : Context) : Bool := c.bodies.find? (· ≠ .block) = some .loop

/-- The error at the first token left, or at the end of an empty list. -/
def error (c : Context) (cause : Cause) : List Token → SyntaxError
  | t :: _ => ⟨cause, t.pos, t.kind, c.rules.reverse⟩
  | [] => ⟨cause, .start "", .eof, c.rules.reverse⟩

end Context

/-- A rule: what it reads and the tokens after it. -/
abbrev Parse (α : Type) := Context → List Token → Except SyntaxError (α × List Token)

/-- The rules that count a level of nesting, with the levels that are left below this one. -/
structure Below where
  statement : Parse Stmt
  assignment : Parse Expr
  unary : Parse Expr

/-- Tokens without contents can be asked for. -/
def isKind : Token.Kind → Token.Kind → Bool
  | .mark a, .mark b => a = b
  | .keyword a, .keyword b => a = b
  | .assign a, .assign b => a = b
  | .eof, .eof => true
  | _, _ => false

/-- Whether the first token left is `k`. -/
def startsWith (k : Token.Kind) : List Token → Bool
  | t :: _ => isKind k t.kind
  | [] => false

def startsWithMark (m : Mark) (ts : List Token) : Bool := startsWith (.mark m) ts

def startsWithName : List Token → Bool
  | ⟨.name _, _⟩ :: _ => true
  | _ => false

def skipSemicolons (ts : List Token) : List Token :=
  ts.dropWhile fun t => isKind (.mark .semicolon) t.kind

/-- Takes the token `k`. -/
def consume (k : Token.Kind) (c : Context) (ts : List Token) : Except SyntaxError (List Token) :=
  if startsWith k ts then .ok ts.tail else .error (c.error (.expected k) ts)

def readName : Parse String := fun c ts =>
  match ts with
  | ⟨.name s, _⟩ :: rest => .ok (s, rest)
  | _ => .error (c.error .expectedName ts)

/-- A name that may be left out. -/
def readName? : List Token → Option String × List Token
  | ⟨.name s, _⟩ :: rest => (some s, rest)
  | ts => (none, ts)

/-- Type names separated by `|`. -/
def readTypeNames (c : Context) : List Token → Except SyntaxError (List String × List Token)
  | ⟨.name s, _⟩ :: ⟨.mark .pipe, _⟩ :: rest => do
    let (names, rest) ← readTypeNames c rest
    return (s :: names, rest)
  | ⟨.keyword .nilWord, _⟩ :: ⟨.mark .pipe, _⟩ :: rest => do
    let (names, rest) ← readTypeNames c rest
    return ("nil" :: names, rest)
  | ⟨.name s, _⟩ :: rest => .ok ([s], rest)
  | ⟨.keyword .nilWord, _⟩ :: rest => .ok (["nil"], rest)
  | ts => .error (c.error .expectedType ts)

def typing : Parse Typing := fun c ts => do
  let c := c.within .typing
  match ts with
  | [] => .error (c.error .expectedType ts)
  | t :: _ => do
    let (names, rest) ← readTypeNames c ts
    return (⟨names, t.pos⟩, rest)

/-- A colon and type names, which may be left out. -/
def typing? : Parse (Option Typing) := fun c ts =>
  if startsWithMark .colon ts then do
    let (t, rest) ← typing c ts.tail
    return (some t, rest)
  else .ok (none, ts)

def param : Parse Param := fun c ts =>
  match ts with
  | [] => .error (c.error .expectedName ts)
  | t :: _ => do
    let (name, rest) ← readName c ts
    let (typing, rest) ← typing? c rest
    return (⟨name, typing, t.pos⟩, rest)

/-- Items separated by commas up to and including `close`, with a turn for each comma. The last one
    may have a comma too. -/
def items {α : Type} (close : Mark) (item : Parse α) (c : Context) :
    (turns : List Token) → List Token → Except SyntaxError (List α × List Token)
  | turns, ts =>
    if startsWithMark close ts then .ok ([], ts.tail)
    else do
      let (value, rest) ← item c ts
      if startsWithMark .comma rest then
        match turns with
        | _ :: turns =>
          let (values, rest) ← items close item c turns rest.tail
          return (value :: values, rest)
        | [] => .error (c.error (.expectedOneOf [.mark .comma, .mark close]) rest)
      else if startsWithMark close rest then return ([value], rest.tail)
      else .error (c.error (.expectedOneOf [.mark .comma, .mark close]) rest)

def list {α : Type} (close : Mark) (item : Parse α) : Parse (List α) := fun c ts =>
  items close item c ts ts

/-- The last token taken on the way from `before` to `after`. -/
def lastTaken? (before after : List Token) : Option Token :=
  (before.take (before.length - after.length)).getLast?

/-- The semicolons after a statement. They may be left out after a closing brace, and before one or
    the end of the file. -/
def terminator (c : Context) (before after : List Token) : Except SyntaxError (List Token) :=
  if startsWithMark .semicolon after then .ok (skipSemicolons after)
  else if startsWithMark .rightBrace after || startsWith .eof after ||
      (lastTaken? before after).any (fun t => isKind (.mark .rightBrace) t.kind) then .ok after
  else .error (c.error (.expected (.mark .semicolon)) after)

variable (below : Below)

def expression : Parse Expr := fun c ts => below.assignment (c.within .expression) ts

/-- Statements up to and including a closing brace, with a turn for each. -/
def blockStatements (c : Context) :
    (turns : List Token) → List Token → Except SyntaxError (List Stmt × List Token)
  | turns, ts =>
    if startsWithMark .rightBrace ts then .ok ([], ts.tail)
    else if startsWith .eof ts || ts.isEmpty then
      .error (c.error (.expected (.mark .rightBrace)) ts)
    else
      match turns with
      | [] => .error (c.error (.expected (.mark .rightBrace)) ts)
      | _ :: turns => do
        let (s, rest) ← below.statement c ts
        let rest ← terminator c ts rest
        let (ss, rest) ← blockStatements c turns rest
        return (s :: ss, rest)

def block : Parse (List Stmt) := fun c ts => do
  let c := c.within .block
  let rest ← consume (.mark .leftBrace) c ts
  let rest := skipSemicolons rest
  blockStatements below c rest rest

/-- What follows a function's name: parameters, the type it returns and its body. A bare expression
    as a body is returned. -/
def functionRest (name : Option String) (pos : Position) : Parse FunctionDecl := fun c ts => do
  let rest ← consume (.mark .leftParen) c ts
  let (params, rest) ← list .rightParen param c rest
  let (returns, rest) ← typing? c rest
  let c := c.enter .function
  if startsWithMark .leftBrace rest then
    let (body, rest) ← block below c rest
    return (⟨name, params, returns, body, pos⟩, rest)
  else
    let (e, rest) ← expression below c rest
    return (⟨name, params, returns, [.returnValue e.pos (some e)], pos⟩, rest)

/-- The members of a class up to and including the closing brace, with a turn for each. A name that
    a parenthesis follows is a method, anything else a property. -/
def classMembers (c : Context) :
    (turns : List Token) → List Token →
      Except SyntaxError (List Param × List FunctionDecl × List Token)
  | turns, ts =>
    let ts := skipSemicolons ts
    if startsWithMark .rightBrace ts then .ok ([], [], ts.tail)
    else if startsWithMark .leftParen ts.tail then do
      let inner := c.within .method
      let (name, rest) ← readName inner ts
      let pos := (ts.head?.map (·.pos)).getD (.start "")
      let (method, rest) ← functionRest below (some name) pos inner rest
      match turns with
      | [] => .error (c.error (.expected (.mark .rightBrace)) rest)
      | _ :: turns =>
        let (properties, methods, rest) ← classMembers c turns rest
        return (properties, method :: methods, rest)
    else do
      let (property, rest) ← param (c.within .property) ts
      match turns with
      | [] => .error (c.error (.expected (.mark .rightBrace)) rest)
      | _ :: turns =>
        let (properties, methods, rest) ← classMembers c turns rest
        return (property :: properties, methods, rest)

def classRest (name : Option String) (pos : Position) : Parse ClassDecl := fun c ts => do
  let rest ← consume (.mark .leftBrace) c ts
  let (properties, methods, rest) ← classMembers below c rest rest
  return (⟨name, properties, methods, pos⟩, rest)

/-- The name `namespace` is a word where a brace, or a name and a brace, follows. -/
def startsNamespace : List Token → Bool
  | ⟨.name word, _⟩ :: rest =>
    word = "namespace" &&
      (startsWithMark .leftBrace rest || startsWithName rest && startsWithMark .leftBrace rest.tail)
  | _ => false

def namespaceRest (name : Option String) (pos : Position) : Parse NamespaceDecl := fun c ts => do
  let (body, rest) ← block below (c.enter .namespaceDef) ts
  return (⟨name, body, pos⟩, rest)

end Grammar

end TinyScript
