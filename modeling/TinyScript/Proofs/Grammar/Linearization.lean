/-
  TinyScript.Proofs.Grammar.Linearization — trees as they are written.

  `kinds` writes a tree as tokens: every statement has a semicolon, every function body is a block,
  the properties of a class stand before its methods, and there are no parentheses but those of
  groups. A tree is well formed if the grammar reads these tokens as that tree and no other.
  `levels` is how many of the rules that count, statements, assignments and prefix expressions, are
  open at once while it is read. `unplaced` forgets the positions.
-/

import TinyScript.Proofs.Grammar.Derivation

namespace TinyScript

open TinyScript.Text TinyScript.Derivation

variable {s : Stmt}

/-! ## Ranks -/

def BinaryOp.rank (op : BinaryOp) : Nat := if op = .power then 8 else op.level + 1

theorem BinaryOp.rank_le (op : BinaryOp) : op.rank ≤ 8 := by
  cases op <;> decide

theorem BinaryOp.rank_pos (op : BinaryOp) : 0 < op.rank := by
  cases op <;> decide

theorem BinaryOp.eq_power_of_le_rank {op : BinaryOp} (h : 8 ≤ op.rank) : op = .power := by
  revert h
  cases op <;> decide

def BinaryOp.leftRank (op : BinaryOp) : Nat := if op = .power then 9 else op.rank

def BinaryOp.rightRank (op : BinaryOp) : Nat := if op = .power then 8 else op.rank + 1

namespace Expr

/-- How tightly an expression holds together: 0 for an assignment, 1 to 7 for the operators that
    group to the left, 8 for prefix operators and powers, and 9 for what needs no parentheses. -/
def rank : Expr → Nat
  | assign .. => 0
  | binary _ op .. => op.rank
  | unary .. => 8
  | _ => 9

theorem rank_of_isTarget {e : Expr} (h : e.isTarget = true) : e.rank = 9 := by
  cases e <;> first | rfl | cases h

/-- The levels that are opened on the way to an operand: a prefix expression, unless operators that
    group to the left build it. -/
def operandEntry (e : Expr) : Nat := if e.rank < 8 then 0 else 1

def entry (e : Expr) : Nat := e.operandEntry + 1

def isPrimary : Expr → Bool
  | assign .. | binary .. | unary .. | call .. | member .. | index .. => false
  | _ => true

def head : Expr → Expr
  | assign _ _ t _ => t.head
  | binary _ _ l _ => l.head
  | call _ f _ => f.head
  | member _ e _ => e.head
  | index _ e _ => e.head
  | e => e

def ownName? : Expr → Option (Option String)
  | function _ d => some d.name
  | classDef _ d => some d.name
  | namespaceDef _ d => some d.name
  | _ => none

end Expr

namespace Stmt

def isBlock : Stmt → Bool
  | block .. => true
  | _ => false

theorem eq_block (h : s.isBlock = true) : ∃ p ss, s = block p ss := by
  cases s with
  | block p ss => exact ⟨p, ss, rfl⟩
  | _ => cases h

def isBranch : Stmt → Bool
  | block .. | ifElse .. => true
  | _ => false

def isDeclaration : Stmt → Bool
  | declare .. | destructure .. | function .. | classDef .. | namespaceDef .. => true
  | _ => false

def isExported : Stmt → Bool
  | declare _ _ _ _ _ exported | destructure _ _ _ _ exported | function _ _ exported
  | classDef _ _ exported | namespaceDef _ _ exported => exported
  | _ => false

theorem isDeclaration_of_isExported (h : s.isExported = true) :
    s.isDeclaration = true := by
  cases s <;> first | rfl | cases h

end Stmt

/-! ## Tokens -/

def separated (m : Mark) : List (List Token.Kind) → List Token.Kind
  | [] => []
  | [ks] => ks
  | ks :: kss => ks ++ .mark m :: separated m kss

def nameKinds (name : Option String) : List Token.Kind := (name.map .name).toList

def typeKind (name : String) : Token.Kind := if name = "nil" then .keyword .nilWord else .name name

def typingKinds : Option Typing → List Token.Kind
  | none => []
  | some t => .mark .colon :: separated .pipe (t.names.map fun name => [typeKind name])

def Param.kinds (p : Param) : List Token.Kind := .name p.name :: typingKinds p.typing

def Literal.kind : Literal → Token.Kind
  | number x => .number x
  | string s => .string s
  | boolean true => .keyword .trueWord
  | boolean false => .keyword .falseWord
  | nil => .keyword .nilWord

def exportKinds (exported : Bool) : List Token.Kind :=
  if exported then [.keyword .exportWord] else []

section

-- The keys of objects that are written as names. The others are written as strings.
variable (named : String → Bool)

def keyKind (key : String) : Token.Kind := if named key then .name key else .string key

mutual

def Expr.kinds : Expr → List Token.Kind
  | .name _ s => [.name s]
  | .literal _ l => [l.kind]
  | .group _ e => .mark .leftParen :: (e.kinds ++ [.mark .rightParen])
  | .array _ items =>
    .mark .leftBracket :: (separated .comma (exprKinds items) ++ [.mark .rightBracket])
  | .object _ fields =>
    .mark .leftBrace :: (separated .comma (fieldKinds fields) ++ [.mark .rightBrace])
  | .binary _ op l r => l.kinds ++ .mark op.mark :: r.kinds
  | .unary _ op e => .mark op.mark :: e.kinds
  | .assign _ sign t v => t.kinds ++ .assign sign :: v.kinds
  | .call _ f args =>
    f.kinds ++ .mark .leftParen :: (separated .comma (exprKinds args) ++ [.mark .rightParen])
  | .member _ e field => e.kinds ++ [.mark .dot, .name field]
  | .index _ e k => e.kinds ++ .mark .leftBracket :: (k.kinds ++ [.mark .rightBracket])
  | .function _ d => .keyword .funcWord :: (nameKinds d.name ++ d.kinds)
  | .classDef _ d => .keyword .classWord :: (nameKinds d.name ++ d.kinds)
  | .namespaceDef _ d => .name "namespace" :: (nameKinds d.name ++ d.kinds)
  | .importFrom _ e =>
    .keyword .importWord :: .mark .leftParen :: (e.kinds ++ [.mark .rightParen])

def exprKinds : List Expr → List (List Token.Kind)
  | [] => []
  | e :: es => e.kinds :: exprKinds es

def fieldKinds : List (String × Expr) → List (List Token.Kind)
  | [] => []
  | (key, e) :: fs => (keyKind named key :: .mark .colon :: e.kinds) :: fieldKinds fs

def Stmt.kinds : Stmt → List Token.Kind
  | .expr _ e => e.kinds
  | .declare _ q name typing none _ => .keyword q.word :: .name name :: typingKinds typing
  | .declare _ q name typing (some e) _ =>
    .keyword q.word :: .name name :: (typingKinds typing ++ .assign .set :: e.kinds)
  | .destructure _ q targets e _ =>
    .keyword q.word :: .mark .leftBracket :: (separated .comma (targets.map Param.kinds) ++
      .mark .rightBracket :: .assign .set :: e.kinds)
  | .function _ d _ => .keyword .funcWord :: (nameKinds d.name ++ d.kinds)
  | .classDef _ d _ => .keyword .classWord :: (nameKinds d.name ++ d.kinds)
  | .namespaceDef _ d _ => .name "namespace" :: (nameKinds d.name ++ d.kinds)
  | .ifElse _ c body none =>
    .keyword .ifWord ::
      (c.kinds ++ .mark .leftBrace :: (statementKinds body ++ [.mark .rightBrace]))
  | .ifElse _ c body (some other) =>
    .keyword .ifWord :: (c.kinds ++ .mark .leftBrace :: (statementKinds body ++
      .mark .rightBrace :: .keyword .elseWord :: other.kinds))
  | .whileLoop _ c body =>
    .keyword .whileWord ::
      (c.kinds ++ .mark .leftBrace :: (statementKinds body ++ [.mark .rightBrace]))
  | .forLoop _ item e body =>
    .keyword .forWord :: .name item :: .keyword .inWord ::
      (e.kinds ++ .mark .leftBrace :: (statementKinds body ++ [.mark .rightBrace]))
  | .block _ body => .mark .leftBrace :: (statementKinds body ++ [.mark .rightBrace])
  | .returnValue _ none => [.keyword .returnWord]
  | .returnValue _ (some e) => .keyword .returnWord :: e.kinds
  | .breakLoop _ => [.keyword .breakWord]
  | .continueLoop _ => [.keyword .continueWord]

def statementKinds : List Stmt → List Token.Kind
  | [] => []
  | s :: ss => exportKinds s.isExported ++ (s.kinds ++ .mark .semicolon :: statementKinds ss)

def FunctionDecl.kinds : FunctionDecl → List Token.Kind
  | ⟨_, params, returns, body, _⟩ =>
    .mark .leftParen :: (separated .comma (params.map Param.kinds) ++
      .mark .rightParen :: (typingKinds returns ++
        .mark .leftBrace :: (statementKinds body ++ [.mark .rightBrace])))

def methodKinds : List FunctionDecl → List Token.Kind
  | [] => []
  | d :: ds => nameKinds d.name ++ (d.kinds ++ methodKinds ds)

def ClassDecl.kinds : ClassDecl → List Token.Kind
  | ⟨_, properties, methods, _⟩ =>
    .mark .leftBrace ::
      (properties.flatMap Param.kinds ++ (methodKinds methods ++ [.mark .rightBrace]))

def NamespaceDecl.kinds : NamespaceDecl → List Token.Kind
  | ⟨_, body, _⟩ => .mark .leftBrace :: (statementKinds body ++ [.mark .rightBrace])

end

end

theorem Stmt.kinds_eq_if {named : String → Bool} (hblock : s.isBlock = false)
    (hbranch : s.isBranch = true) : s.kinds named = .keyword .ifWord :: (s.kinds named).tail := by
  cases s with
  | ifElse _ _ _ other => cases other <;> rfl
  | block => cases hblock
  | _ => cases hbranch

/-! ## Levels -/

mutual

def Expr.levels : Expr → Nat
  | .name .. | .literal .. => 0
  | .group _ e => e.levels + e.entry
  | .array _ items => exprLevels items
  | .object _ fields => fieldLevels fields
  | .binary _ op l r =>
    -- The base of a power is no prefix expression.
    if op = .power then max l.levels (r.levels + r.operandEntry)
    else max (l.levels + l.operandEntry) (r.levels + r.operandEntry)
  | .unary _ _ e => e.levels + e.operandEntry
  | .assign _ _ t v => max (t.levels + t.operandEntry) (v.levels + v.entry)
  | .call _ f args => max f.levels (exprLevels args)
  | .member _ e _ => e.levels
  | .index _ e k => max e.levels (k.levels + k.entry)
  | .function _ d => d.levels
  | .classDef _ d => d.levels
  | .namespaceDef _ d => d.levels
  | .importFrom _ e => e.levels + e.entry

def exprLevels : List Expr → Nat
  | [] => 0
  | e :: es => max (e.levels + e.entry) (exprLevels es)

def fieldLevels : List (String × Expr) → Nat
  | [] => 0
  | (_, e) :: fs => max (e.levels + e.entry) (fieldLevels fs)

/-- The levels that are open at once below the rule of statements. A further condition after `else`
    opens none. -/
def Stmt.levels : Stmt → Nat
  | .expr _ e => e.levels + e.entry
  | .declare _ _ _ _ none _ => 0
  | .declare _ _ _ _ (some e) _ => e.levels + e.entry
  | .destructure _ _ _ e _ => e.levels + e.entry
  | .function _ d _ => d.levels
  | .classDef _ d _ => d.levels
  | .namespaceDef _ d _ => d.levels
  | .ifElse _ c body none => max (c.levels + c.entry) (statementLevels body)
  | .ifElse _ c body (some other) =>
    max (c.levels + c.entry) (max (statementLevels body) other.levels)
  | .whileLoop _ c body => max (c.levels + c.entry) (statementLevels body)
  | .forLoop _ _ e body => max (e.levels + e.entry) (statementLevels body)
  | .block _ body => statementLevels body
  | .returnValue _ none => 0
  | .returnValue _ (some e) => e.levels + e.entry
  | .breakLoop _ | .continueLoop _ => 0

def statementLevels : List Stmt → Nat
  | [] => 0
  | s :: ss => max (s.levels + 1) (statementLevels ss)

def FunctionDecl.levels : FunctionDecl → Nat
  | ⟨_, _, _, body, _⟩ => statementLevels body

def methodLevels : List FunctionDecl → Nat
  | [] => 0
  | d :: ds => max d.levels (methodLevels ds)

def ClassDecl.levels : ClassDecl → Nat
  | ⟨_, _, methods, _⟩ => methodLevels methods

def NamespaceDecl.levels : NamespaceDecl → Nat
  | ⟨_, body, _⟩ => statementLevels body

end

/-! ## Well-formed trees -/

def typingWellFormed : Option Typing → Bool
  | none => true
  | some t => !t.names.isEmpty

def Param.wellFormed (p : Param) : Bool := typingWellFormed p.typing

mutual

def Expr.wellFormed : Expr → Bool
  | .name _ s => s ≠ "namespace"
  | .literal .. => true
  | .group _ e => e.wellFormed
  | .array _ items => exprsWellFormed items
  | .object _ fields => fieldsWellFormed fields
  | .binary _ op l r =>
    op.leftRank ≤ l.rank && op.rightRank ≤ r.rank && l.wellFormed && r.wellFormed
  | .unary _ _ e => 8 ≤ e.rank && e.wellFormed
  | .assign _ _ t v => t.isTarget && t.wellFormed && v.wellFormed
  | .call _ f args => 9 ≤ f.rank && f.wellFormed && exprsWellFormed args
  | .member _ e _ => 9 ≤ e.rank && e.wellFormed
  | .index _ e k => 9 ≤ e.rank && e.wellFormed && k.wellFormed
  | .function _ d => d.wellFormed
  | .classDef _ d => d.wellFormed
  | .namespaceDef _ d => d.wellFormed
  | .importFrom _ e => e.wellFormed

def exprsWellFormed : List Expr → Bool
  | [] => true
  | e :: es => e.wellFormed && exprsWellFormed es

def fieldsWellFormed : List (String × Expr) → Bool
  | [] => true
  | (_, e) :: fs => e.wellFormed && fieldsWellFormed fs

def Stmt.wellFormed (place : Place) : Stmt → Bool
  -- A function, class or namespace that has a name is a declaration at the start of a statement.
  | .expr _ e => e.head.ownName?.join.isNone && e.wellFormed
  | .declare _ q _ typing none _ => q ≠ .constDecl && typingWellFormed typing
  -- One that has none would take the declared name.
  | .declare _ _ _ typing (some e) _ =>
    typingWellFormed typing && e.ownName? ≠ some none && e.wellFormed
  | .destructure _ _ targets e _ => targets.all Param.wellFormed && e.wellFormed
  | .function _ d _ => d.name.isSome && d.wellFormed
  | .classDef _ d _ => d.name.isSome && d.wellFormed
  | .namespaceDef _ d _ => d.name.isSome && d.wellFormed
  | .ifElse _ c body none => c.wellFormed && statementsWellFormed place.branch body
  | .ifElse _ c body (some other) =>
    c.wellFormed && statementsWellFormed place.branch body && other.isBranch &&
      other.wellFormed place
  | .whileLoop _ c body => c.wellFormed && statementsWellFormed place.loop body
  | .forLoop _ _ e body => e.wellFormed && statementsWellFormed place.loop body
  | .block _ body => statementsWellFormed place.branch body
  | .returnValue _ none => place.returns
  | .returnValue _ (some e) => place.returns && e.wellFormed
  | .breakLoop _ | .continueLoop _ => place.loops

def statementsWellFormed (place : Place) : List Stmt → Bool
  | [] => true
  | s :: ss =>
    !s.isBlock && (!s.isExported || place.exports) && s.wellFormed place &&
      statementsWellFormed place ss

def FunctionDecl.wellFormed : FunctionDecl → Bool
  | ⟨_, params, returns, body, _⟩ =>
    params.all Param.wellFormed && typingWellFormed returns && statementsWellFormed .function body

def methodsWellFormed : List FunctionDecl → Bool
  | [] => true
  | d :: ds => d.name.isSome && d.wellFormed && methodsWellFormed ds

def ClassDecl.wellFormed : ClassDecl → Bool
  | ⟨_, properties, methods, _⟩ => properties.all Param.wellFormed && methodsWellFormed methods

def NamespaceDecl.wellFormed : NamespaceDecl → Bool
  | ⟨_, body, _⟩ => statementsWellFormed .space body

end

/-! ## Trees without positions -/

def Typing.unplaced (t : Typing) : Typing := ⟨t.names, default⟩

def Param.unplaced (p : Param) : Param := ⟨p.name, p.typing.map Typing.unplaced, default⟩

mutual

def Expr.unplaced : Expr → Expr
  | .name _ s => .name default s
  | .literal _ l => .literal default l
  | .group _ e => .group default e.unplaced
  | .array _ items => .array default (unplacedExprs items)
  | .object _ fields => .object default (unplacedFields fields)
  | .binary _ op l r => .binary default op l.unplaced r.unplaced
  | .unary _ op e => .unary default op e.unplaced
  | .assign _ sign t v => .assign default sign t.unplaced v.unplaced
  | .call _ f args => .call default f.unplaced (unplacedExprs args)
  | .member _ e field => .member default e.unplaced field
  | .index _ e k => .index default e.unplaced k.unplaced
  | .function _ d => .function default d.unplaced
  | .classDef _ d => .classDef default d.unplaced
  | .namespaceDef _ d => .namespaceDef default d.unplaced
  | .importFrom _ e => .importFrom default e.unplaced

def unplacedExprs : List Expr → List Expr
  | [] => []
  | e :: es => e.unplaced :: unplacedExprs es

def unplacedFields : List (String × Expr) → List (String × Expr)
  | [] => []
  | (key, e) :: fs => (key, e.unplaced) :: unplacedFields fs

def Stmt.unplaced : Stmt → Stmt
  | .expr _ e => .expr default e.unplaced
  | .declare _ q name typing none exported =>
    .declare default q name (typing.map Typing.unplaced) none exported
  | .declare _ q name typing (some e) exported =>
    .declare default q name (typing.map Typing.unplaced) (some e.unplaced) exported
  | .destructure _ q targets e exported =>
    .destructure default q (targets.map Param.unplaced) e.unplaced exported
  | .function _ d exported => .function default d.unplaced exported
  | .classDef _ d exported => .classDef default d.unplaced exported
  | .namespaceDef _ d exported => .namespaceDef default d.unplaced exported
  | .ifElse _ c body none => .ifElse default c.unplaced (unplacedStatements body) none
  | .ifElse _ c body (some other) =>
    .ifElse default c.unplaced (unplacedStatements body) (some other.unplaced)
  | .whileLoop _ c body => .whileLoop default c.unplaced (unplacedStatements body)
  | .forLoop _ item e body => .forLoop default item e.unplaced (unplacedStatements body)
  | .block _ body => .block default (unplacedStatements body)
  | .returnValue _ none => .returnValue default none
  | .returnValue _ (some e) => .returnValue default (some e.unplaced)
  | .breakLoop _ => .breakLoop default
  | .continueLoop _ => .continueLoop default

def unplacedStatements : List Stmt → List Stmt
  | [] => []
  | s :: ss => s.unplaced :: unplacedStatements ss

def FunctionDecl.unplaced : FunctionDecl → FunctionDecl
  | ⟨name, params, returns, body, _⟩ =>
    ⟨name, params.map Param.unplaced, returns.map Typing.unplaced, unplacedStatements body, default⟩

def unplacedMethods : List FunctionDecl → List FunctionDecl
  | [] => []
  | d :: ds => d.unplaced :: unplacedMethods ds

def ClassDecl.unplaced : ClassDecl → ClassDecl
  | ⟨name, properties, methods, _⟩ =>
    ⟨name, properties.map Param.unplaced, unplacedMethods methods, default⟩

def NamespaceDecl.unplaced : NamespaceDecl → NamespaceDecl
  | ⟨name, body, _⟩ => ⟨name, unplacedStatements body, default⟩

end

theorem Expr.isTarget_unplaced (e : Expr) : e.unplaced.isTarget = e.isTarget := by
  cases e <;> rfl

theorem Expr.unplaced_withName (s : String) (e : Expr) :
    (e.withName s).unplaced = e.unplaced.withName s := by
  cases e with
  | function _ d | classDef _ d | namespaceDef _ d =>
    cases d
    rfl
  | _ => rfl

theorem Expr.withName_eq_self {e : Expr} (h : e.ownName? ≠ some none) (s : String) :
    e.withName s = e := by
  cases e with
  | function _ d | classDef _ d | namespaceDef _ d =>
    obtain ⟨_ | name, _⟩ := d
    · cases h rfl
    · rfl
  | _ => rfl

/-! ## Lists of trees -/

theorem statementsWellFormed_cons {place : Place} {ss : List Stmt} :
    statementsWellFormed place (s :: ss) = true ↔
      s.isBlock = false ∧ (s.isExported = true → place.exports = true) ∧
        s.wellFormed place = true ∧ statementsWellFormed place ss = true := by
  cases hexported : s.isExported <;> simp [statementsWellFormed, hexported, and_assoc]

section

variable {named : String → Bool} {n : Nat}

theorem exprKinds_eq_map : ∀ es : List Expr, exprKinds named es = es.map (Expr.kinds named)
  | [] => rfl
  | _ :: es => congrArg (_ :: ·) (exprKinds_eq_map es)

theorem exprLevels_le : ∀ {es : List Expr}, exprLevels es ≤ n ↔ ∀ e ∈ es, e.levels + e.entry ≤ n
  | [] => by simp [exprLevels]
  | _ :: es => by simp only [exprLevels, Nat.max_le, exprLevels_le, List.forall_mem_cons]

theorem exprsWellFormed_iff :
    ∀ {es : List Expr}, exprsWellFormed es = true ↔ ∀ e ∈ es, e.wellFormed = true
  | [] => by simp [exprsWellFormed]
  | _ :: es => by simp [exprsWellFormed, exprsWellFormed_iff]

theorem unplacedExprs_eq_map : ∀ es : List Expr, unplacedExprs es = es.map Expr.unplaced
  | [] => rfl
  | _ :: es => congrArg (_ :: ·) (unplacedExprs_eq_map es)

def fieldKind (named : String → Bool) (f : String × Expr) : List Token.Kind :=
  keyKind named f.1 :: .mark .colon :: f.2.kinds named

def unplacedField (f : String × Expr) : String × Expr := (f.1, f.2.unplaced)

theorem fieldKinds_eq_map :
    ∀ fs : List (String × Expr), fieldKinds named fs = fs.map (fieldKind named)
  | [] => rfl
  | (_, _) :: fs => congrArg (_ :: ·) (fieldKinds_eq_map fs)

theorem fieldLevels_le :
    ∀ {fs : List (String × Expr)}, fieldLevels fs ≤ n ↔ ∀ f ∈ fs, f.2.levels + f.2.entry ≤ n
  | [] => by simp [fieldLevels]
  | (_, _) :: fs => by simp only [fieldLevels, Nat.max_le, fieldLevels_le, List.forall_mem_cons]

theorem fieldsWellFormed_iff :
    ∀ {fs : List (String × Expr)}, fieldsWellFormed fs = true ↔ ∀ f ∈ fs, f.2.wellFormed = true
  | [] => by simp [fieldsWellFormed]
  | (_, _) :: fs => by simp [fieldsWellFormed, fieldsWellFormed_iff]

theorem unplacedFields_eq_map :
    ∀ fs : List (String × Expr), unplacedFields fs = fs.map unplacedField
  | [] => rfl
  | (_, _) :: fs => congrArg (_ :: ·) (unplacedFields_eq_map fs)

end

end TinyScript
