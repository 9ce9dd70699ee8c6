/-
  TinyScript.Grammar.Expression — the rules of expressions.

  From the loosest to the tightest: assignment, which groups to the right; the binary operators,
  which group to the left; prefix operators; powers, whose exponent is a prefix expression; calls,
  members and elements; and the primary expressions. A left operand gives its position to what is
  built on it.
-/

import TinyScript.Grammar.Basic

namespace TinyScript.Grammar

open TinyScript.Text

variable (below : Below)

/-- A key, a colon and a value. -/
def field : Parse (String × Expr) := fun c ts =>
  let value := fun (key : String) (rest : List Token) => do
    let rest ← consume (.mark .colon) c rest
    let (e, rest) ← expression below c rest
    return ((key, e), rest)
  match ts with
  | ⟨.name key, _⟩ :: rest => value key rest
  | ⟨.string key, _⟩ :: rest => value key rest
  | _ => .error (c.error .expectedName ts)

def primary : Parse Expr := fun c ts =>
  let c := c.within .primary
  match ts with
  | [] => .error (c.error .expectedExpression ts)
  | ⟨kind, pos⟩ :: rest =>
    match kind with
    | .number x => .ok (.literal pos (.number x), rest)
    | .string s => .ok (.literal pos (.string s), rest)
    | .keyword .trueWord => .ok (.literal pos (.boolean true), rest)
    | .keyword .falseWord => .ok (.literal pos (.boolean false), rest)
    | .keyword .nilWord => .ok (.literal pos .nil, rest)
    | .name s =>
      if startsNamespace ts then do
        let (name, rest) := readName? rest
        let (d, rest) ← namespaceRest below name pos (c.within .namespaceDef) rest
        return (.namespaceDef pos d, rest)
      else .ok (.name pos s, rest)
    | .mark .leftParen => do
      let (e, rest) ← expression below c rest
      let rest ← consume (.mark .rightParen) c rest
      return (.group pos e, rest)
    | .mark .leftBracket => do
      let (es, rest) ← list .rightBracket (expression below) (c.within .array) rest
      return (.array pos es, rest)
    | .mark .leftBrace => do
      let (fs, rest) ← list .rightBrace (field below) (c.within .object) rest
      return (.object pos fs, rest)
    | .keyword .funcWord => do
      let (name, rest) := readName? rest
      let (d, rest) ← functionRest below name pos (c.within .function) rest
      return (.function pos d, rest)
    | .keyword .classWord => do
      let (name, rest) := readName? rest
      let (d, rest) ← classRest below name pos (c.within .classDef) rest
      return (.classDef pos d, rest)
    | .keyword .importWord => do
      let c := c.within .importFrom
      let rest ← consume (.mark .leftParen) c rest
      let (e, rest) ← expression below c rest
      let rest ← consume (.mark .rightParen) c rest
      return (.importFrom pos e, rest)
    | _ => .error (c.error .expectedExpression ts)

/-- Calls, members and elements of `e`, with a turn for each. -/
def postfixes (c : Context) :
    (turns : List Token) → Expr → List Token → Except SyntaxError (Expr × List Token)
  | [], e, ts => .ok (e, ts)
  | _ :: turns, e, ts =>
    match ts with
    | ⟨.mark .leftParen, _⟩ :: rest => do
      let (args, rest) ← list .rightParen (expression below) (c.within .call) rest
      postfixes c turns (.call e.pos e args) rest
    | ⟨.mark .dot, _⟩ :: rest => do
      let (name, rest) ← readName c rest
      postfixes c turns (.member e.pos e name) rest
    | ⟨.mark .leftBracket, _⟩ :: rest => do
      let inner := c.within .index
      let (key, rest) ← expression below inner rest
      let rest ← consume (.mark .rightBracket) inner rest
      postfixes c turns (.index e.pos e key) rest
    | _ => .ok (e, ts)

def call : Parse Expr := fun c ts => do
  let (e, rest) ← primary below c ts
  postfixes below c rest e rest

def power : Parse Expr := fun c ts => do
  let (base, rest) ← call below c ts
  if startsWithMark .starStar rest then
    let (exponent, rest) ← below.unary c rest.tail
    return (.binary base.pos .power base exponent, rest)
  else return (base, rest)

def prefixOp? : Token.Kind → Option UnaryOp
  | .mark .minus => some .negate
  | .mark .plus => some .plus
  | .mark .bang => some .not
  | _ => none

/-- A prefix operator and its operand, or a power. -/
def unaryBody : Parse Expr := fun c ts =>
  match ts with
  | ⟨kind, pos⟩ :: rest =>
    match prefixOp? kind with
    | some op => do
      let (e, rest) ← below.unary (c.within .unary) rest
      return (.unary pos op e, rest)
    | none => power below c ts
  | [] => power below c ts

/-- The operator that a token writes, among those of one level of precedence. -/
abbrev Operators := Token.Kind → Option BinaryOp

/-- Operators and operands that follow `left`, with a turn for each operator. -/
def binaryChain (operators : Operators) (operand : Parse Expr) (c : Context) :
    (turns : List Token) → Expr → List Token → Except SyntaxError (Expr × List Token)
  | [], left, ts => .ok (left, ts)
  | _ :: turns, left, ts =>
    match ts with
    | t :: rest =>
      match operators t.kind with
      | some op => do
        let (right, rest) ← operand c rest
        binaryChain operators operand c turns (.binary left.pos op left right) rest
      | none => .ok (left, ts)
    | [] => .ok (left, ts)

/-- One level of binary operators over the operands of the next tighter level. -/
def binaryLevel (operators : Operators) (operand : Parse Expr) : Parse Expr := fun c ts => do
  let (left, rest) ← operand c ts
  binaryChain operators operand c rest left rest

def coalesceOps : Operators
  | .mark .questionQuestion => some .coalesce
  | _ => none

def orOps : Operators
  | .mark .orOr => some .or
  | _ => none

def andOps : Operators
  | .mark .andAnd => some .and
  | _ => none

def equalityOps : Operators
  | .mark .equalEqual => some .equal
  | .mark .bangEqual => some .notEqual
  | _ => none

def relationalOps : Operators
  | .mark .less => some .less
  | .mark .lessEqual => some .lessEqual
  | .mark .greater => some .greater
  | .mark .greaterEqual => some .greaterEqual
  | _ => none

def additiveOps : Operators
  | .mark .plus => some .add
  | .mark .minus => some .subtract
  | _ => none

def multiplicativeOps : Operators
  | .mark .star => some .multiply
  | .mark .slash => some .divide
  | .mark .percent => some .modulo
  | _ => none

/-- The levels of binary operators, the loosest first. -/
def operatorLevels : List Operators :=
  [coalesceOps, orOps, andOps, equalityOps, relationalOps, additiveOps, multiplicativeOps]

/-- All binary operators over prefix expressions. -/
def binaryExpr : Parse Expr := operatorLevels.foldr binaryLevel below.unary

/-- A target, an assignment sign and a value, or just an expression. -/
def assignmentBody : Parse Expr := fun c ts => do
  let (target, rest) ← binaryExpr below c ts
  match rest with
  | ⟨.assign sign, _⟩ :: after =>
    let c := c.within .assignment
    if target.isTarget then
      let (value, rest) ← below.assignment c after
      return (.assign target.pos sign target value, rest)
    else .error (c.error .invalidTarget rest)
  | _ => return (target, rest)

end TinyScript.Grammar
