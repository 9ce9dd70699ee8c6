/-
  TinyScript.Proofs.Grammar.Derivation — the grammar of the language.

  Each relation is a rule of the grammar and each of its constructors a production:
  `Expression w ts rest e` says that `e` is written by the tokens of `ts` before `rest`. What comes
  after a tree matters in two places only. A statement needs no semicolon before a closing brace or
  the end of the file, and the name `namespace` is a word where a body follows.

  Where two productions fit, these count: a statement that starts like a declaration is one, and a
  function body that starts with a brace is a block.

  The grammar asks for at least one target of a destructuring. With `w` set to `true` it may be
  without targets.
-/

import TinyScript.Tree

namespace TinyScript

open TinyScript.Text

/-! ## Operators -/

def UnaryOp.mark : UnaryOp → Mark
  | negate => .minus
  | plus => .plus
  | not => .bang

def BinaryOp.mark : BinaryOp → Mark
  | equal => .equalEqual
  | notEqual => .bangEqual
  | less => .less
  | lessEqual => .lessEqual
  | greater => .greater
  | greaterEqual => .greaterEqual
  | add => .plus
  | subtract => .minus
  | multiply => .star
  | divide => .slash
  | modulo => .percent
  | power => .starStar
  | and => .andAnd
  | or => .orOr
  | coalesce => .questionQuestion

/-- How tightly an operator binds. Between the operators that group to the left and `**` are the
    operators that stand before their operand, at 7. -/
def BinaryOp.level : BinaryOp → Nat
  | coalesce => 0
  | or => 1
  | and => 2
  | equal | notEqual => 3
  | less | lessEqual | greater | greaterEqual => 4
  | add | subtract => 5
  | multiply | divide | modulo => 6
  | power => 8

def Qualifier.word : Qualifier → Keyword
  | letDecl => .letWord
  | constDecl => .constWord
  | varDecl => .varWord

namespace Derivation

/-! ## Where statements stand -/

/-- What may stand at a place in the program. -/
structure Place where
  /-- `export`. -/
  exports : Bool
  /-- `return`. -/
  returns : Bool
  /-- `break` and `continue`. -/
  loops : Bool
  deriving DecidableEq, Repr

namespace Place

def file : Place := ⟨true, false, false⟩

def function : Place := ⟨false, true, false⟩

def space : Place := ⟨false, false, false⟩

def loop (p : Place) : Place := ⟨false, p.returns, true⟩

def branch (p : Place) : Place := ⟨false, p.returns, p.loops⟩

end Place

/-! ## Names, types and lists -/

inductive BodyFollows : List Token → Prop
  | brace {ts : List Token} {p : Position} : BodyFollows (⟨.mark .leftBrace, p⟩ :: ts)
  | name {ts : List Token} {s : String} {p q : Position} :
    BodyFollows (⟨.name s, p⟩ :: ⟨.mark .leftBrace, q⟩ :: ts)

inductive OptionalName : List Token → List Token → Option String → Prop
  | none {ts : List Token} : OptionalName ts ts none
  | some {ts : List Token} {s : String} {p : Position} :
    OptionalName (⟨.name s, p⟩ :: ts) ts (some s)

inductive TypeName : Token.Kind → String → Prop
  | name {s : String} : TypeName (.name s) s
  | nil : TypeName (.keyword .nilWord) "nil"

inductive TypeNames : List Token → List Token → List String → Prop
  | one {k : Token.Kind} {s : String} {p : Position} {rest : List Token} :
    TypeName k s → TypeNames (⟨k, p⟩ :: rest) rest [s]
  | more {k : Token.Kind} {s : String} {p q : Position} {ts rest : List Token}
    {names : List String} : TypeName k s → TypeNames ts rest names →
    TypeNames (⟨k, p⟩ :: ⟨.mark .pipe, q⟩ :: ts) rest (s :: names)

inductive OptionalTyping : List Token → List Token → Option Typing → Prop
  | none {ts : List Token} : OptionalTyping ts ts none
  | some {t : Token} {p : Position} {ts rest : List Token} {names : List String} :
    TypeNames (t :: ts) rest names →
    OptionalTyping (⟨.mark .colon, p⟩ :: t :: ts) rest (some ⟨names, t.pos⟩)

inductive Parameter : List Token → List Token → Param → Prop
  | mk {s : String} {p : Position} {ts rest : List Token} {typing : Option Typing} :
    OptionalTyping ts rest typing → Parameter (⟨.name s, p⟩ :: ts) rest ⟨s, typing, p⟩

/-- Items separated by commas up to and including a closing mark. The last one may have a comma
    too. -/
inductive Items {α : Type} (item : List Token → List Token → α → Prop) :
    List Token → List Token → List α → Mark → Prop
  | nil {close : Mark} {p : Position} {rest : List Token} :
    Items item (⟨.mark close, p⟩ :: rest) rest [] close
  | last {close : Mark} {ts rest : List Token} {p : Position} {a : α} :
    item ts (⟨.mark close, p⟩ :: rest) a → Items item ts rest [a] close
  | more {close : Mark} {ts after rest : List Token} {p : Position} {a : α} {as : List α} :
    item ts (⟨.mark .comma, p⟩ :: after) a → Items item after rest as close →
    Items item ts rest (a :: as) close

/-- A statement from `ts` to `after` needs no more: a semicolon, a closing brace or the end of the
    file follows, or its own last token is a closing brace. -/
inductive Ended : List Token → List Token → Prop
  | semicolon {ts after : List Token} {p : Position} : Ended ts (⟨.mark .semicolon, p⟩ :: after)
  | brace {ts after : List Token} {p : Position} : Ended ts (⟨.mark .rightBrace, p⟩ :: after)
  | eof {ts after : List Token} {p : Position} : Ended ts (⟨.eof, p⟩ :: after)
  | last {taken after : List Token} {p : Position} :
    Ended (taken ++ ⟨.mark .rightBrace, p⟩ :: after) after

inductive StartsDeclaration : List Token → Prop
  | qualifier {q : Qualifier} {p : Position} {ts : List Token} :
    StartsDeclaration (⟨.keyword q.word, p⟩ :: ts)
  | function {s : String} {p q : Position} {ts : List Token} :
    StartsDeclaration (⟨.keyword .funcWord, p⟩ :: ⟨.name s, q⟩ :: ts)
  | classDef {s : String} {p q : Position} {ts : List Token} :
    StartsDeclaration (⟨.keyword .classWord, p⟩ :: ⟨.name s, q⟩ :: ts)
  | namespaceDef {s : String} {p q r : Position} {ts : List Token} :
    StartsDeclaration (⟨.name "namespace", p⟩ :: ⟨.name s, q⟩ :: ⟨.mark .leftBrace, r⟩ :: ts)

/-! ## Expressions and statements -/

mutual

inductive Expression (w : Bool) : List Token → List Token → Expr → Prop
  | plain {ts rest : List Token} {e : Expr} : Operand w 0 ts rest e → Expression w ts rest e
  | assign {ts after rest : List Token} {sign : AssignSign} {p : Position} {target value : Expr} :
    Operand w 0 ts (⟨.assign sign, p⟩ :: after) target → target.isTarget = true →
    Expression w after rest value → Expression w ts rest (.assign target.pos sign target value)

/-- What the operators of a level, from the loosest at 0, have on their left side. -/
inductive Operand (w : Bool) : Nat → List Token → List Token → Expr → Prop
  | unary {ts rest : List Token} {e : Expr} : Unary w ts rest e → Operand w 7 ts rest e
  | tighter {k : Nat} {ts rest : List Token} {e : Expr} :
    Operand w (k + 1) ts rest e → Operand w k ts rest e
  | binary {k : Nat} {op : BinaryOp} {ts after rest : List Token} {p : Position} {l r : Expr} :
    op.level = k → Operand w k ts (⟨.mark op.mark, p⟩ :: after) l →
    Operand w (k + 1) after rest r → Operand w k ts rest (.binary l.pos op l r)

inductive Unary (w : Bool) : List Token → List Token → Expr → Prop
  | sign {op : UnaryOp} {p : Position} {ts rest : List Token} {e : Expr} :
    Unary w ts rest e → Unary w (⟨.mark op.mark, p⟩ :: ts) rest (.unary p op e)
  | power {ts after rest : List Token} {p : Position} {base exponent : Expr} :
    Call w ts (⟨.mark .starStar, p⟩ :: after) base → Unary w after rest exponent →
    Unary w ts rest (.binary base.pos .power base exponent)
  | call {ts rest : List Token} {e : Expr} : Call w ts rest e → Unary w ts rest e

inductive Call (w : Bool) : List Token → List Token → Expr → Prop
  | primary {ts rest : List Token} {e : Expr} : Primary w ts rest e → Call w ts rest e
  | call {ts after rest : List Token} {p : Position} {e : Expr} {args : List Expr} :
    Call w ts (⟨.mark .leftParen, p⟩ :: after) e →
    Items (Expression w) after rest args .rightParen → Call w ts rest (.call e.pos e args)
  | member {ts rest : List Token} {p q : Position} {e : Expr} {s : String} :
    Call w ts (⟨.mark .dot, p⟩ :: ⟨.name s, q⟩ :: rest) e → Call w ts rest (.member e.pos e s)
  | index {ts after rest : List Token} {p q : Position} {e key : Expr} :
    Call w ts (⟨.mark .leftBracket, p⟩ :: after) e →
    Expression w after (⟨.mark .rightBracket, q⟩ :: rest) key →
    Call w ts rest (.index e.pos e key)

inductive Primary (w : Bool) : List Token → List Token → Expr → Prop
  | number {x : Float} {p : Position} {rest : List Token} :
    Primary w (⟨.number x, p⟩ :: rest) rest (.literal p (.number x))
  | string {s : String} {p : Position} {rest : List Token} :
    Primary w (⟨.string s, p⟩ :: rest) rest (.literal p (.string s))
  | true {p : Position} {rest : List Token} :
    Primary w (⟨.keyword .trueWord, p⟩ :: rest) rest (.literal p (.boolean true))
  | false {p : Position} {rest : List Token} :
    Primary w (⟨.keyword .falseWord, p⟩ :: rest) rest (.literal p (.boolean false))
  | nil {p : Position} {rest : List Token} :
    Primary w (⟨.keyword .nilWord, p⟩ :: rest) rest (.literal p .nil)
  | name {s : String} {p : Position} {rest : List Token} :
    ¬ (s = "namespace" ∧ BodyFollows rest) → Primary w (⟨.name s, p⟩ :: rest) rest (.name p s)
  | group {p q : Position} {ts rest : List Token} {e : Expr} :
    Expression w ts (⟨.mark .rightParen, q⟩ :: rest) e →
    Primary w (⟨.mark .leftParen, p⟩ :: ts) rest (.group p e)
  | array {p : Position} {ts rest : List Token} {items : List Expr} :
    Items (Expression w) ts rest items .rightBracket →
    Primary w (⟨.mark .leftBracket, p⟩ :: ts) rest (.array p items)
  | object {p : Position} {ts rest : List Token} {fields : List (String × Expr)} :
    Items (Field w) ts rest fields .rightBrace →
    Primary w (⟨.mark .leftBrace, p⟩ :: ts) rest (.object p fields)
  | function {p : Position} {ts after rest : List Token} {name : Option String}
    {d : FunctionDecl} : OptionalName ts after name → FunctionRest w name p after rest d →
    Primary w (⟨.keyword .funcWord, p⟩ :: ts) rest (.function p d)
  | classDef {p q : Position} {ts after rest : List Token} {name : Option String}
    {properties : List Param} {methods : List FunctionDecl} :
    OptionalName ts (⟨.mark .leftBrace, q⟩ :: after) name →
    Members w after rest properties methods →
    Primary w (⟨.keyword .classWord, p⟩ :: ts) rest (.classDef p ⟨name, properties, methods, p⟩)
  | importFrom {p q r : Position} {ts rest : List Token} {e : Expr} :
    Expression w ts (⟨.mark .rightParen, r⟩ :: rest) e →
    Primary w (⟨.keyword .importWord, p⟩ :: ⟨.mark .leftParen, q⟩ :: ts) rest (.importFrom p e)
  | namespaceDef {p : Position} {ts after rest : List Token} {name : Option String}
    {body : List Stmt} : OptionalName ts after name → Block w .space after rest body →
    Primary w (⟨.name "namespace", p⟩ :: ts) rest (.namespaceDef p ⟨name, body, p⟩)

inductive Field (w : Bool) : List Token → List Token → String × Expr → Prop
  | name {s : String} {p q : Position} {ts rest : List Token} {e : Expr} :
    Expression w ts rest e → Field w (⟨.name s, p⟩ :: ⟨.mark .colon, q⟩ :: ts) rest (s, e)
  | string {s : String} {p q : Position} {ts rest : List Token} {e : Expr} :
    Expression w ts rest e → Field w (⟨.string s, p⟩ :: ⟨.mark .colon, q⟩ :: ts) rest (s, e)

/-- What follows a function's name. A bare expression as a body is returned. -/
inductive FunctionRest (w : Bool) :
    Option String → Position → List Token → List Token → FunctionDecl → Prop
  | block {name : Option String} {pos p : Position} {ts after body rest : List Token}
    {params : List Param} {returns : Option Typing} {ss : List Stmt} :
    Items Parameter ts after params .rightParen → OptionalTyping after body returns →
    Block w .function body rest ss →
    FunctionRest w name pos (⟨.mark .leftParen, p⟩ :: ts) rest ⟨name, params, returns, ss, pos⟩
  | value {name : Option String} {pos p : Position} {ts after body rest : List Token}
    {params : List Param} {returns : Option Typing} {e : Expr} :
    Items Parameter ts after params .rightParen → OptionalTyping after body returns →
    (∀ q more, body ≠ ⟨.mark .leftBrace, q⟩ :: more) → Expression w body rest e →
    FunctionRest w name pos (⟨.mark .leftParen, p⟩ :: ts) rest
      ⟨name, params, returns, [.returnValue e.pos (some e)], pos⟩

inductive Members (w : Bool) :
    List Token → List Token → List Param → List FunctionDecl → Prop
  | nil {p : Position} {rest : List Token} : Members w (⟨.mark .rightBrace, p⟩ :: rest) rest [] []
  | semicolon {p : Position} {ts rest : List Token} {properties : List Param}
    {methods : List FunctionDecl} : Members w ts rest properties methods →
    Members w (⟨.mark .semicolon, p⟩ :: ts) rest properties methods
  | method {s : String} {p : Position} {ts after rest : List Token} {d : FunctionDecl}
    {properties : List Param} {methods : List FunctionDecl} :
    FunctionRest w (some s) p ts after d → Members w after rest properties methods →
    Members w (⟨.name s, p⟩ :: ts) rest properties (d :: methods)
  | property {ts after rest : List Token} {x : Param} {properties : List Param}
    {methods : List FunctionDecl} : Parameter ts after x →
    Members w after rest properties methods → Members w ts rest (x :: properties) methods

inductive Block (w : Bool) : Place → List Token → List Token → List Stmt → Prop
  | mk {place : Place} {p q : Position} {ts rest : List Token} {ss : List Stmt} :
    Statements w place ts (⟨.mark .rightBrace, q⟩ :: rest) ss →
    Block w place (⟨.mark .leftBrace, p⟩ :: ts) rest ss

/-- Statements one after the other, with any number of semicolons between them. -/
inductive Statements (w : Bool) : Place → List Token → List Token → List Stmt → Prop
  | nil {place : Place} {ts : List Token} : Statements w place ts ts []
  | semicolon {place : Place} {p : Position} {ts rest : List Token} {ss : List Stmt} :
    Statements w place ts rest ss → Statements w place (⟨.mark .semicolon, p⟩ :: ts) rest ss
  | cons {place : Place} {ts after rest : List Token} {s : Stmt} {ss : List Stmt} :
    Statement w place ts after s → Ended ts after → Statements w place after rest ss →
    Statements w place ts rest (s :: ss)

inductive Statement (w : Bool) : Place → List Token → List Token → Stmt → Prop
  | declaration {place : Place} {k : Token.Kind} {p : Position} {ts rest : List Token} {s : Stmt} :
    Declaration w false p (⟨k, p⟩ :: ts) rest s → Statement w place (⟨k, p⟩ :: ts) rest s
  | exported {place : Place} {p : Position} {ts rest : List Token} {s : Stmt} :
    place.exports = true → Declaration w true p ts rest s →
    Statement w place (⟨.keyword .exportWord, p⟩ :: ts) rest s
  | ifElse {place : Place} {p : Position} {ts rest : List Token} {s : Stmt} :
    IfRest w place p ts rest s → Statement w place (⟨.keyword .ifWord, p⟩ :: ts) rest s
  | whileLoop {place : Place} {p : Position} {ts after rest : List Token} {e : Expr}
    {body : List Stmt} : Expression w ts after e → Block w place.loop after rest body →
    Statement w place (⟨.keyword .whileWord, p⟩ :: ts) rest (.whileLoop p e body)
  | forLoop {place : Place} {p q r : Position} {item : String} {ts after rest : List Token}
    {e : Expr} {body : List Stmt} : Expression w ts after e → Block w place.loop after rest body →
    Statement w place
      (⟨.keyword .forWord, p⟩ :: ⟨.name item, q⟩ :: ⟨.keyword .inWord, r⟩ :: ts) rest
      (.forLoop p item e body)
  | returnNothing {place : Place} {p : Position} {rest : List Token} : place.returns = true →
    Statement w place (⟨.keyword .returnWord, p⟩ :: rest) rest (.returnValue p none)
  | returnValue {place : Place} {p : Position} {ts rest : List Token} {e : Expr} :
    place.returns = true → Expression w ts rest e →
    Statement w place (⟨.keyword .returnWord, p⟩ :: ts) rest (.returnValue p (some e))
  | breakLoop {place : Place} {p : Position} {rest : List Token} : place.loops = true →
    Statement w place (⟨.keyword .breakWord, p⟩ :: rest) rest (.breakLoop p)
  | continueLoop {place : Place} {p : Position} {rest : List Token} : place.loops = true →
    Statement w place (⟨.keyword .continueWord, p⟩ :: rest) rest (.continueLoop p)
  | expr {place : Place} {k : Token.Kind} {p : Position} {ts rest : List Token} {e : Expr} :
    ¬ StartsDeclaration (⟨k, p⟩ :: ts) → Expression w (⟨k, p⟩ :: ts) rest e →
    Statement w place (⟨k, p⟩ :: ts) rest (.expr p e)

/-- A declaration in a statement at `pos`. A function, class or namespace without a name that is the
    whole of a declared value takes the declared name. -/
inductive Declaration (w : Bool) :
    (exported : Bool) → (pos : Position) → List Token → List Token → Stmt → Prop
  | empty {exported : Bool} {pos p n : Position} {q : Qualifier} {s : String}
    {ts rest : List Token} {typing : Option Typing} : q ≠ .constDecl →
    OptionalTyping ts rest typing →
    Declaration w exported pos (⟨.keyword q.word, p⟩ :: ⟨.name s, n⟩ :: ts) rest
      (.declare pos q s typing none exported)
  | value {exported : Bool} {pos p n a : Position} {q : Qualifier} {s : String}
    {ts after rest : List Token} {typing : Option Typing} {e : Expr} :
    OptionalTyping ts (⟨.assign .set, a⟩ :: after) typing → Expression w after rest e →
    Declaration w exported pos (⟨.keyword q.word, p⟩ :: ⟨.name s, n⟩ :: ts) rest
      (.declare pos q s typing (some (e.withName s)) exported)
  | destructure {exported : Bool} {pos p b a : Position} {q : Qualifier}
    {ts after rest : List Token} {targets : List Param} {e : Expr} :
    Items Parameter ts (⟨.assign .set, a⟩ :: after) targets .rightBracket →
    (targets = [] → w = true) → Expression w after rest e →
    Declaration w exported pos (⟨.keyword q.word, p⟩ :: ⟨.mark .leftBracket, b⟩ :: ts) rest
      (.destructure pos q targets e exported)
  | function {exported : Bool} {pos p n : Position} {s : String} {ts rest : List Token}
    {d : FunctionDecl} : FunctionRest w (some s) p ts rest d →
    Declaration w exported pos (⟨.keyword .funcWord, p⟩ :: ⟨.name s, n⟩ :: ts) rest
      (.function pos d exported)
  | classDef {exported : Bool} {pos p n q : Position} {s : String} {ts rest : List Token}
    {properties : List Param} {methods : List FunctionDecl} :
    Members w ts rest properties methods →
    Declaration w exported pos
      (⟨.keyword .classWord, p⟩ :: ⟨.name s, n⟩ :: ⟨.mark .leftBrace, q⟩ :: ts) rest
      (.classDef pos ⟨some s, properties, methods, p⟩ exported)
  | namespaceDef {exported : Bool} {pos p n : Position} {s : String} {ts rest : List Token}
    {body : List Stmt} : Block w .space ts rest body →
    Declaration w exported pos (⟨.name "namespace", p⟩ :: ⟨.name s, n⟩ :: ts) rest
      (.namespaceDef pos ⟨some s, body, p⟩ exported)

inductive IfRest (w : Bool) : Place → Position → List Token → List Token → Stmt → Prop
  | plain {place : Place} {pos : Position} {ts after rest : List Token} {e : Expr}
    {body : List Stmt} : Expression w ts after e → Block w place.branch after rest body →
    IfRest w place pos ts rest (.ifElse pos e body none)
  | block {place : Place} {pos p : Position} {t : Token} {ts after other rest : List Token}
    {e : Expr} {body ss : List Stmt} : Expression w ts after e →
    Block w place.branch after (⟨.keyword .elseWord, p⟩ :: t :: other) body →
    Block w place.branch (t :: other) rest ss →
    IfRest w place pos ts rest (.ifElse pos e body (some (.block t.pos ss)))
  | ifElse {place : Place} {pos p q : Position} {ts after other rest : List Token} {e : Expr}
    {body : List Stmt} {s : Stmt} : Expression w ts after e →
    Block w place.branch after (⟨.keyword .elseWord, p⟩ :: ⟨.keyword .ifWord, q⟩ :: other) body →
    IfRest w place q other rest s →
    IfRest w place pos ts rest (.ifElse pos e body (some s))

end

/-- The tokens before the end of the file write the program, and all of them where none ends it. -/
def Derives (w : Bool) (ts : List Token) (p : Program) : Prop :=
  ∃ used rest, ts = used ++ rest ∧ (∀ t ∈ used, t.kind ≠ .eof) ∧
    (rest = [] ∨ ∃ q after, rest = ⟨.eof, q⟩ :: after) ∧ Statements w .file ts rest p

end Derivation

end TinyScript
