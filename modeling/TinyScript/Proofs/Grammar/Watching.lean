/-
  TinyScript.Proofs.Grammar.Watching — the rules of the grammar, watched.

  Here a rule has its tokens before it and goes through them one by one: it looks at those that are
  left, takes the first, or asks for one by its place. What it looks at and what it takes is
  written down, and a rule that asks for a place past the end of a list comes to nothing (`Sight`).
  Apart from that the rules are those of the grammar, one for one.
-/

import TinyScript.Grammar.Statement

namespace TinyScript.Grammar

open TinyScript.Text

structure Sight (α : Type) where
  /-- The tokens that were left, each time that the rule looked or had taken one. -/
  seen : List (List Token)
  /-- The tokens that it took. -/
  taken : List Token
  /-- What it came to, unless it asked for a place past the end. -/
  result : Option (Except SyntaxError (α × List Token))

def Watch (α : Type) := List Token → Sight α

namespace Watch

protected def bind {α β : Type} (w : Watch α) (k : α → Watch β) : Watch β := fun ts =>
  match (w ts).result with
  | some (.ok (a, rest)) =>
    ⟨(w ts).seen ++ (k a rest).seen, (w ts).taken ++ (k a rest).taken, (k a rest).result⟩
  | some (.error e) => ⟨(w ts).seen, (w ts).taken, some (.error e)⟩
  | none => ⟨(w ts).seen, (w ts).taken, none⟩

instance : Monad Watch where
  pure a := fun ts => ⟨[], [], some (.ok (a, ts))⟩
  bind := Watch.bind

/-! ## Tokens -/

def look {α : Type} (f : List Token → α) : Watch α := fun ts => ⟨[ts], [], some (.ok (f ts, ts))⟩

def first : Watch Token := fun ts => ⟨[ts], [], ts.head?.map fun t => .ok (t, ts)⟩

def take : Watch Token := fun ts =>
  match ts with
  | t :: rest => ⟨[ts, rest], [t], some (.ok (t, rest))⟩
  | [] => ⟨[ts], [], none⟩

def fail {α : Type} (cause : Cause) (c : Context) : Watch α := fun ts =>
  ⟨[ts], [], some (.error (c.error cause ts))⟩

/-- The last token taken since `before`, by its place. There cannot be more tokens left than there
    were, and the place has to be there. -/
def lastTaken? (before : List Token) : Watch (Option Token) := fun ts =>
  ⟨[ts], [],
    if before.length < ts.length then none
    else if before.length = ts.length then some (.ok (none, ts))
    else before[before.length - ts.length - 1]?.map fun t => .ok (some t, ts)⟩

def semicolons : (turns : List Token) → Watch Unit
  | [] => return ()
  | _ :: turns => do
    if ← look (startsWithMark .semicolon) then
      let _ ← take
      semicolons turns

def skipSemicolons : Watch Unit := do
  let ts ← look id
  semicolons ts

def consume (k : Token.Kind) (c : Context) : Watch Unit := do
  if ← look (startsWith k) then
    let _ ← take
  else fail (.expected k) c

def name? : Token.Kind → Option String
  | .name s => some s
  | _ => none

def readName (c : Context) : Watch String := do
  match (← look List.head?).bind (name? ·.kind) with
  | some s =>
    let _ ← take
    return s
  | none => fail .expectedName c

def readName? : Watch (Option String) := do
  match (← look List.head?).bind (name? ·.kind) with
  | some s =>
    let _ ← take
    return some s
  | none => return none

/-! ## Types and lists -/

def typeName? : Token.Kind → Option String
  | .name s => some s
  | .keyword .nilWord => some "nil"
  | _ => none

def readTypeNames (c : Context) (turns : List Token) : Watch (List String) := do
  match (← look List.head?).bind (typeName? ·.kind) with
  | some s =>
    let _ ← take
    if ← look (startsWithMark .pipe) then
      let _ ← take
      match turns with
      | _ :: turns =>
        let names ← readTypeNames c turns
        return s :: names
      | [] => fail .expectedType c
    else return [s]
  | none => fail .expectedType c

def typing (c : Context) : Watch Typing := do
  let c := c.within .typing
  match ← look List.head? with
  | none => fail .expectedType c
  | some t =>
    let ts ← look id
    let names ← readTypeNames c ts
    return ⟨names, t.pos⟩

def typing? (c : Context) : Watch (Option Typing) := do
  if ← look (startsWithMark .colon) then
    let _ ← take
    let t ← typing c
    return some t
  else return none

def param (c : Context) : Watch Param := do
  match ← look List.head? with
  | none => fail .expectedName c
  | some t =>
    let name ← readName c
    let typing ← typing? c
    return ⟨name, typing, t.pos⟩

def items {α : Type} (close : Mark) (item : Context → Watch α) (c : Context)
    (turns : List Token) : Watch (List α) := do
  if ← look (startsWithMark close) then
    let _ ← take
    return []
  else
    let value ← item c
    if ← look (startsWithMark .comma) then
      match turns with
      | _ :: turns =>
        let _ ← take
        let values ← items close item c turns
        return value :: values
      | [] => fail (.expectedOneOf [.mark .comma, .mark close]) c
    else if ← look (startsWithMark close) then
      let _ ← take
      return [value]
    else fail (.expectedOneOf [.mark .comma, .mark close]) c

def list {α : Type} (close : Mark) (item : Context → Watch α) (c : Context) : Watch (List α) := do
  let ts ← look id
  items close item c ts

def terminator (c : Context) (before : List Token) : Watch Unit := do
  if ← look (startsWithMark .semicolon) then skipSemicolons
  else
    let last ← lastTaken? before
    if (← look fun ts => startsWithMark .rightBrace ts || startsWith .eof ts) ||
        last.any fun t => isKind (.mark .rightBrace) t.kind then
      return ()
    else fail (.expected (.mark .semicolon)) c

/-! ## Bodies -/

structure Below where
  statement : Context → Watch Stmt
  assignment : Context → Watch Expr
  unary : Context → Watch Expr

section

variable (below : Below)

def expression (c : Context) : Watch Expr := below.assignment (c.within .expression)

def blockStatements (c : Context) (turns : List Token) : Watch (List Stmt) := do
  if ← look (startsWithMark .rightBrace) then
    let _ ← take
    return []
  else if ← look fun ts => startsWith .eof ts || ts.isEmpty then
    fail (.expected (.mark .rightBrace)) c
  else
    match turns with
    | [] => fail (.expected (.mark .rightBrace)) c
    | _ :: turns =>
      let before ← look id
      let s ← below.statement c
      terminator c before
      let ss ← blockStatements c turns
      return s :: ss

def block (c : Context) : Watch (List Stmt) := do
  let c := c.within .block
  consume (.mark .leftBrace) c
  skipSemicolons
  let ts ← look id
  blockStatements below c ts

def functionRest (name : Option String) (pos : Position) (c : Context) : Watch FunctionDecl := do
  consume (.mark .leftParen) c
  let params ← list .rightParen param c
  let returns ← typing? c
  let c := c.enter .function
  if ← look (startsWithMark .leftBrace) then
    let body ← block below c
    return ⟨name, params, returns, body, pos⟩
  else
    let e ← expression below c
    return ⟨name, params, returns, [.returnValue e.pos (some e)], pos⟩

def classMembers (c : Context) (turns : List Token) :
    Watch (List Param × List FunctionDecl) := do
  skipSemicolons
  if ← look (startsWithMark .rightBrace) then
    let _ ← take
    return ([], [])
  else if ← look fun ts => startsWithMark .leftParen ts.tail then
    let inner := c.within .method
    let t ← first
    let name ← readName inner
    let method ← functionRest below (some name) t.pos inner
    match turns with
    | [] => fail (.expected (.mark .rightBrace)) c
    | _ :: turns =>
      let (properties, methods) ← classMembers c turns
      return (properties, method :: methods)
  else
    let property ← param (c.within .property)
    match turns with
    | [] => fail (.expected (.mark .rightBrace)) c
    | _ :: turns =>
      let (properties, methods) ← classMembers c turns
      return (property :: properties, methods)

def classRest (name : Option String) (pos : Position) (c : Context) : Watch ClassDecl := do
  consume (.mark .leftBrace) c
  let ts ← look id
  let (properties, methods) ← classMembers below c ts
  return ⟨name, properties, methods, pos⟩

def namespaceRest (name : Option String) (pos : Position) (c : Context) :
    Watch NamespaceDecl := do
  let body ← block below (c.enter .namespaceDef)
  return ⟨name, body, pos⟩

/-! ## Expressions -/

def key? : Token.Kind → Option String
  | .name s | .string s => some s
  | _ => none

def field (c : Context) : Watch (String × Expr) := do
  match (← look List.head?).bind (key? ·.kind) with
  | some key =>
    let _ ← take
    consume (.mark .colon) c
    let e ← expression below c
    return (key, e)
  | none => fail .expectedName c

def primary (c : Context) : Watch Expr := do
  let c := c.within .primary
  match ← look List.head? with
  | none => fail .expectedExpression c
  | some ⟨kind, pos⟩ =>
    match kind with
    | .number x =>
      let _ ← take
      return .literal pos (.number x)
    | .string s =>
      let _ ← take
      return .literal pos (.string s)
    | .keyword .trueWord =>
      let _ ← take
      return .literal pos (.boolean true)
    | .keyword .falseWord =>
      let _ ← take
      return .literal pos (.boolean false)
    | .keyword .nilWord =>
      let _ ← take
      return .literal pos .nil
    | .name s =>
      if ← look startsNamespace then
        let _ ← take
        let name ← readName?
        let d ← namespaceRest below name pos (c.within .namespaceDef)
        return .namespaceDef pos d
      else
        let _ ← take
        return .name pos s
    | .mark .leftParen =>
      let _ ← take
      let e ← expression below c
      consume (.mark .rightParen) c
      return .group pos e
    | .mark .leftBracket =>
      let _ ← take
      let es ← list .rightBracket (expression below) (c.within .array)
      return .array pos es
    | .mark .leftBrace =>
      let _ ← take
      let fs ← list .rightBrace (field below) (c.within .object)
      return .object pos fs
    | .keyword .funcWord =>
      let _ ← take
      let name ← readName?
      let d ← functionRest below name pos (c.within .function)
      return .function pos d
    | .keyword .classWord =>
      let _ ← take
      let name ← readName?
      let d ← classRest below name pos (c.within .classDef)
      return .classDef pos d
    | .keyword .importWord =>
      let _ ← take
      let c := c.within .importFrom
      consume (.mark .leftParen) c
      let e ← expression below c
      consume (.mark .rightParen) c
      return .importFrom pos e
    | _ => fail .expectedExpression c

def postfixes (c : Context) : (turns : List Token) → Expr → Watch Expr
  | [], e => return e
  | _ :: turns, e => do
    match (← look List.head?).map Token.kind with
    | some (.mark .leftParen) =>
      let _ ← take
      let args ← list .rightParen (expression below) (c.within .call)
      postfixes c turns (.call e.pos e args)
    | some (.mark .dot) =>
      let _ ← take
      let name ← readName c
      postfixes c turns (.member e.pos e name)
    | some (.mark .leftBracket) =>
      let _ ← take
      let inner := c.within .index
      let key ← expression below inner
      consume (.mark .rightBracket) inner
      postfixes c turns (.index e.pos e key)
    | _ => return e

def call (c : Context) : Watch Expr := do
  let e ← primary below c
  let ts ← look id
  postfixes below c ts e

def power (c : Context) : Watch Expr := do
  let base ← call below c
  if ← look (startsWithMark .starStar) then
    let _ ← take
    let exponent ← below.unary c
    return .binary base.pos .power base exponent
  else return base

def unaryBody (c : Context) : Watch Expr := do
  match (← look List.head?).bind (prefixOp? ·.kind) with
  | some op =>
    let t ← first
    let _ ← take
    let e ← below.unary (c.within .unary)
    return .unary t.pos op e
  | none => power below c

def binaryChain (operators : Operators) (operand : Context → Watch Expr) (c : Context) :
    (turns : List Token) → Expr → Watch Expr
  | [], left => return left
  | _ :: turns, left => do
    match (← look List.head?).bind (operators ·.kind) with
    | some op =>
      let _ ← take
      let right ← operand c
      binaryChain operators operand c turns (.binary left.pos op left right)
    | none => return left

def binaryLevel (operators : Operators) (operand : Context → Watch Expr) (c : Context) :
    Watch Expr := do
  let left ← operand c
  let ts ← look id
  binaryChain operators operand c ts left

def binaryExpr : Context → Watch Expr := operatorLevels.foldr binaryLevel below.unary

def sign? : Token.Kind → Option AssignSign
  | .assign sign => some sign
  | _ => none

def assignmentBody (c : Context) : Watch Expr := do
  let target ← binaryExpr below c
  match (← look List.head?).bind (sign? ·.kind) with
  | some sign =>
    let c := c.within .assignment
    if target.isTarget then
      let _ ← take
      let value ← below.assignment c
      return .assign target.pos sign target value
    else fail .invalidTarget c
  | none => return target

/-! ## Statements -/

def destructuring (q : Qualifier) (exported : Bool) (pos : Position) (c : Context) :
    Watch Stmt := do
  let targets ← list .rightBracket param c
  consume (.assign .set) c
  let e ← expression below c
  return .destructure pos q targets e exported

def declaredName (q : Qualifier) (exported : Bool) (pos : Position) (c : Context) :
    Watch Stmt := do
  let name ← readName c
  let typing ← typing? c
  if ← look (startsWith (.assign .set)) then
    let _ ← take
    let e ← expression below c
    return .declare pos q name typing (some (e.withName name)) exported
  else if q = .constDecl then fail (.missingInitializer name) c
  else return .declare pos q name typing none exported

def declared? (ts : List Token) : Option Token.Kind :=
  match ts with
  | [] => none
  | t :: rest => if startsWithName rest then some t.kind else none

def declaration? (exported : Bool) (pos : Position) (c : Context) : Watch (Option Stmt) := do
  match (← look List.head?).bind (qualifier? ·.kind) with
  | some q =>
    let _ ← take
    if ← look (startsWithMark .leftBracket) then
      let _ ← take
      let s ← destructuring below q exported pos (c.within .destructuring)
      return some s
    else
      let s ← declaredName below q exported pos (c.within .declaration)
      return some s
  | none =>
    match ← look declared? with
    | some (.keyword .funcWord) =>
      let c := c.within .function
      let t ← first
      let _ ← take
      let name ← readName c
      let d ← functionRest below (some name) t.pos c
      return some (.function pos d exported)
    | some (.keyword .classWord) =>
      let c := c.within .classDef
      let t ← first
      let _ ← take
      let name ← readName c
      let d ← classRest below (some name) t.pos c
      return some (.classDef pos d exported)
    | some (.name _) =>
      if ← look startsNamespace then
        let c := c.within .namespaceDef
        let t ← first
        let _ ← take
        let name ← readName c
        let d ← namespaceRest below (some name) t.pos c
        return some (.namespaceDef pos d exported)
      else return none
    | _ => return none

def elseRest (again : Option (Position → Context → Watch Stmt)) (c : Context) : Watch Stmt := do
  match ← look List.head? with
  | none => fail (.expected (.mark .leftBrace)) c
  | some t =>
    match again, isKind (.keyword .ifWord) t.kind with
    | some again, true =>
      let _ ← take
      again t.pos c
    | _, _ =>
      let body ← block below c
      return .block t.pos body

def ifBranch (again : Option (Position → Context → Watch Stmt)) (pos : Position) (c : Context) :
    Watch Stmt := do
  let c := c.within .ifElse
  let condition ← expression below c
  let c := c.enter .block
  let body ← block below c
  if ← look (startsWith (.keyword .elseWord)) then
    let _ ← take
    let other ← elseRest below again c
    return .ifElse pos condition body (some other)
  else return .ifElse pos condition body none

def ifRest : (turns : List Token) → Position → Context → Watch Stmt
  | [] => ifBranch below none
  | _ :: turns => ifBranch below (some (ifRest turns))

def whileRest (pos : Position) (c : Context) : Watch Stmt := do
  let c := c.within .whileLoop
  let condition ← expression below c
  let body ← block below (c.enter .loop)
  return .whileLoop pos condition body

def forRest (pos : Position) (c : Context) : Watch Stmt := do
  let c := c.within .forLoop
  let item ← readName c
  consume (.keyword .inWord) c
  let iterable ← expression below c
  let body ← block below (c.enter .loop)
  return .forLoop pos item iterable body

def returnStatement (pos : Position) (c : Context) : Watch Stmt := do
  let c := c.within .returnValue
  if !c.inFunction then fail .returnOutsideFunction c
  else
    let _ ← take
    if ← look endsReturn then return .returnValue pos none
    else
      let e ← expression below c
      return .returnValue pos (some e)

def statementBody (c : Context) : Watch Stmt := do
  let c := c.within .statement
  match ← look List.head? with
  | none => fail .expectedExpression c
  | some ⟨kind, pos⟩ =>
    match kind with
    | .keyword .exportWord =>
      if !c.atTopLevel then fail .exportNotTopLevel c
      else
        let _ ← take
        match ← declaration? below true pos c with
        | some s => return s
        | none => fail .expectedDeclaration c
    | .keyword .ifWord =>
      let _ ← take
      let ts ← look id
      ifRest below ts pos c
    | .keyword .whileWord =>
      let _ ← take
      whileRest below pos c
    | .keyword .forWord =>
      let _ ← take
      forRest below pos c
    | .keyword .returnWord => returnStatement below pos c
    | .keyword .breakWord =>
      if c.inLoop then
        let _ ← take
        return .breakLoop pos
      else fail (.outsideLoop .breakWord) c
    | .keyword .continueWord =>
      if c.inLoop then
        let _ ← take
        return .continueLoop pos
      else fail (.outsideLoop .continueWord) c
    | _ =>
      match ← declaration? below false pos c with
      | some s => return s
      | none =>
        let e ← expression below c
        return .expr pos e

def programStatements (c : Context) (turns : List Token) : Watch Program := do
  if ← look fun ts => startsWith .eof ts || ts.isEmpty then return []
  else
    match turns with
    | [] => return []
    | _ :: turns =>
      let before ← look id
      let s ← below.statement c
      terminator c before
      let ss ← programStatements c turns
      return s :: ss

end

def withLevels : Nat → Below
  | 0 => ⟨fail .nestedTooDeeply, fail .nestedTooDeeply, fail .nestedTooDeeply⟩
  | n + 1 =>
    let below := withLevels n
    ⟨statementBody below, assignmentBody below, unaryBody below⟩

def program : Watch Program := do
  let c : Context := ⟨[.program], []⟩
  skipSemicolons
  let ts ← look id
  programStatements (withLevels maxNesting) c ts

end Watch

end TinyScript.Grammar
