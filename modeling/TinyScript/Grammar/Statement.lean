/-
  TinyScript.Grammar.Statement — the rules of statements, and whole programs.

  Statements, assignments and prefix expressions each take one of the levels of nesting that are
  left. A program may use `maxNesting` of them.
-/

import TinyScript.Grammar.Expression

namespace TinyScript.Grammar

open TinyScript.Text

section

variable (below : Below)

def qualifier? : Token.Kind → Option Qualifier
  | .keyword .letWord => some .letDecl
  | .keyword .constWord => some .constDecl
  | .keyword .varWord => some .varDecl
  | _ => none

/-- Targets in brackets and the value that is taken apart. -/
def destructuring (q : Qualifier) (exported : Bool) (pos : Position) : Parse Stmt := fun c ts => do
  let (targets, rest) ← list .rightBracket param c ts
  let rest ← consume (.assign .set) c rest
  let (e, rest) ← expression below c rest
  return (.destructure pos q targets e exported, rest)

/-- A name with its type and its first value, which a constant must have. -/
def declaredName (q : Qualifier) (exported : Bool) (pos : Position) : Parse Stmt := fun c ts => do
  let (name, rest) ← readName c ts
  let (typing, rest) ← typing? c rest
  if startsWith (.assign .set) rest then
    let (e, rest) ← expression below c rest.tail
    return (.declare pos q name typing (some (e.withName name)) exported, rest)
  else if q = .constDecl then .error (c.error (.missingInitializer name) rest)
  else return (.declare pos q name typing none exported, rest)

/-- A declaration, if the tokens start one. The statement is at `pos`. -/
def declaration? (exported : Bool) (pos : Position) (c : Context) (ts : List Token) :
    Except SyntaxError (Option (Stmt × List Token)) :=
  match ts with
  | [] => .ok none
  | ⟨kind, here⟩ :: rest =>
    match qualifier? kind with
    | some q =>
      if startsWithMark .leftBracket rest then
        some <$> destructuring below q exported pos (c.within .destructuring) rest.tail
      else some <$> declaredName below q exported pos (c.within .declaration) rest
    | none =>
      if !startsWithName rest then .ok none
      else
        match kind with
        | .keyword .funcWord => do
          let c := c.within .function
          let (name, rest) ← readName c rest
          let (d, rest) ← functionRest below (some name) here c rest
          return some (.function pos d exported, rest)
        | .keyword .classWord => do
          let c := c.within .classDef
          let (name, rest) ← readName c rest
          let (d, rest) ← classRest below (some name) here c rest
          return some (.classDef pos d exported, rest)
        | .name _ =>
          if startsNamespace ts then do
            let c := c.within .namespaceDef
            let (name, rest) ← readName c rest
            let (d, rest) ← namespaceRest below (some name) here c rest
            return some (.namespaceDef pos d exported, rest)
          else .ok none
        | _ => .ok none

/-- What follows the word `else`: another `if`, where `again` reads one, or a block. -/
def elseRest (again : Option (Position → Parse Stmt)) : Parse Stmt := fun c ts =>
  match ts with
  | [] => .error (c.error (.expected (.mark .leftBrace)) ts)
  | t :: rest =>
    match again, isKind (.keyword .ifWord) t.kind with
    | some again, true => again t.pos c rest
    | _, _ => do
      let (body, rest) ← block below c ts
      return (.block t.pos body, rest)

/-- What follows the word `if`. -/
def ifBranch (again : Option (Position → Parse Stmt)) (pos : Position) : Parse Stmt :=
    fun c ts => do
  let c := c.within .ifElse
  let (condition, rest) ← expression below c ts
  let c := c.enter .block
  let (body, rest) ← block below c rest
  if startsWith (.keyword .elseWord) rest then
    let (other, rest) ← elseRest below again c rest.tail
    return (.ifElse pos condition body (some other), rest)
  else return (.ifElse pos condition body none, rest)

/-- What follows the word `if`, with a turn for each further condition after `else`. -/
def ifRest : (turns : List Token) → Position → Parse Stmt
  | [] => ifBranch below none
  | _ :: turns => ifBranch below (some (ifRest turns))

def whileRest (pos : Position) : Parse Stmt := fun c ts => do
  let c := c.within .whileLoop
  let (condition, rest) ← expression below c ts
  let (body, rest) ← block below (c.enter .loop) rest
  return (.whileLoop pos condition body, rest)

def forRest (pos : Position) : Parse Stmt := fun c ts => do
  let c := c.within .forLoop
  let (item, rest) ← readName c ts
  let rest ← consume (.keyword .inWord) c rest
  let (iterable, rest) ← expression below c rest
  let (body, rest) ← block below (c.enter .loop) rest
  return (.forLoop pos item iterable body, rest)

/-- Whether a returned value is left out before these tokens. -/
def endsReturn (ts : List Token) : Bool :=
  ts.isEmpty || startsWithMark .semicolon ts || startsWithMark .rightBrace ts || startsWith .eof ts

/-- A statement that starts with the word `return`. -/
def returnStatement (pos : Position) : Parse Stmt := fun c ts =>
  let c := c.within .returnValue
  if !c.inFunction then .error (c.error .returnOutsideFunction ts)
  else if endsReturn ts.tail then .ok (.returnValue pos none, ts.tail)
  else do
    let (e, rest) ← expression below c ts.tail
    return (.returnValue pos (some e), rest)

def statementBody : Parse Stmt := fun c ts =>
  let c := c.within .statement
  match ts with
  | [] => .error (c.error .expectedExpression ts)
  | ⟨kind, pos⟩ :: rest =>
    match kind with
    | .keyword .exportWord =>
      if !c.atTopLevel then .error (c.error .exportNotTopLevel ts)
      else do
        match ← declaration? below true pos c rest with
        | some found => return found
        | none => .error (c.error .expectedDeclaration rest)
    | .keyword .ifWord => ifRest below rest pos c rest
    | .keyword .whileWord => whileRest below pos c rest
    | .keyword .forWord => forRest below pos c rest
    | .keyword .returnWord => returnStatement below pos c ts
    | .keyword .breakWord =>
      if c.inLoop then .ok (.breakLoop pos, rest)
      else .error (c.error (.outsideLoop .breakWord) ts)
    | .keyword .continueWord =>
      if c.inLoop then .ok (.continueLoop pos, rest)
      else .error (c.error (.outsideLoop .continueWord) ts)
    | _ => do
      match ← declaration? below false pos c ts with
      | some found => return found
      | none =>
        let (e, rest) ← expression below c ts
        return (.expr pos e, rest)

/-- Statements up to the end of the file or of the tokens, with a turn for each. -/
def programStatements (c : Context) :
    (turns : List Token) → List Token → Except SyntaxError Program
  | turns, ts =>
    if startsWith .eof ts || ts.isEmpty then .ok []
    else
      match turns with
      | [] => .ok []
      | _ :: turns => do
        let (s, rest) ← below.statement c ts
        let rest ← terminator c ts rest
        let ss ← programStatements c turns rest
        return s :: ss

end

/-- Statements, assignments and prefix expressions that may be open at once. -/
def maxNesting : Nat := 512

def tooDeep {α : Type} : Parse α := fun c ts => .error (c.error .nestedTooDeeply ts)

/-- The rules that count, with `n` levels left. -/
def withLevels : Nat → Below
  | 0 => ⟨tooDeep, tooDeep, tooDeep⟩
  | n + 1 =>
    let below := withLevels n
    ⟨statementBody below, assignmentBody below, unaryBody below⟩

/-- The program that a token list writes. -/
def program (ts : List Token) : Except SyntaxError Program :=
  let c : Context := ⟨[.program], []⟩
  let ts := skipSemicolons ts
  programStatements (withLevels maxNesting) c ts ts

end TinyScript.Grammar
