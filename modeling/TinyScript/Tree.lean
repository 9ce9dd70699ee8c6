/-
  TinyScript.Tree — programs as trees.

  Every statement and expression has the position of the first token it was read from. A function
  whose body is a bare expression is one that returns it.
-/

import TinyScript.Token

namespace TinyScript

open TinyScript.Text

/-- The types a value may have, as written after a colon: one name or several alternatives. -/
structure Typing where
  names : List String
  pos : Position
  deriving DecidableEq, Repr

/-- A parameter, a declared property or the target of a destructuring declaration. -/
structure Param where
  name : String
  typing : Option Typing
  pos : Position
  deriving DecidableEq, Repr

inductive Qualifier where
  | letDecl | constDecl | varDecl
  deriving DecidableEq, Repr

inductive Literal where
  | number (value : Float)
  | string (text : String)
  | boolean (value : Bool)
  | nil
  deriving Repr

inductive UnaryOp where
  | negate | plus | not
  deriving DecidableEq, Repr

inductive BinaryOp where
  | equal | notEqual | less | lessEqual | greater | greaterEqual
  | add | subtract | multiply | divide | modulo | power
  | and | or | coalesce
  deriving DecidableEq, Repr

/-- The operator that an assignment sign applies before it stores. -/
def AssignSign.operator? : AssignSign → Option BinaryOp
  | .set => none
  | .add => some .add
  | .subtract => some .subtract
  | .multiply => some .multiply
  | .divide => some .divide
  | .modulo => some .modulo
  | .power => some .power

mutual

inductive Expr where
  | name (pos : Position) (text : String)
  | literal (pos : Position) (value : Literal)
  | group (pos : Position) (inner : Expr)
  | array (pos : Position) (items : List Expr)
  | object (pos : Position) (fields : List (String × Expr))
  | binary (pos : Position) (op : BinaryOp) (left right : Expr)
  | unary (pos : Position) (op : UnaryOp) (operand : Expr)
  | assign (pos : Position) (sign : AssignSign) (target value : Expr)
  | call (pos : Position) (callee : Expr) (args : List Expr)
  | member (pos : Position) (object : Expr) (field : String)
  | index (pos : Position) (object key : Expr)
  | function (pos : Position) (decl : FunctionDecl)
  | classDef (pos : Position) (decl : ClassDecl)
  | namespaceDef (pos : Position) (decl : NamespaceDecl)
  | importFrom (pos : Position) (path : Expr)

inductive Stmt where
  | expr (pos : Position) (value : Expr)
  | declare (pos : Position) (qualifier : Qualifier) (name : String) (typing : Option Typing)
      (init : Option Expr) (exported : Bool)
  | destructure (pos : Position) (qualifier : Qualifier) (targets : List Param) (value : Expr)
      (exported : Bool)
  | function (pos : Position) (decl : FunctionDecl) (exported : Bool)
  | classDef (pos : Position) (decl : ClassDecl) (exported : Bool)
  | namespaceDef (pos : Position) (decl : NamespaceDecl) (exported : Bool)
  | ifElse (pos : Position) (condition : Expr) (body : List Stmt) (otherwise : Option Stmt)
  | whileLoop (pos : Position) (condition : Expr) (body : List Stmt)
  | forLoop (pos : Position) (item : String) (iterable : Expr) (body : List Stmt)
  | block (pos : Position) (body : List Stmt)
  | returnValue (pos : Position) (value : Option Expr)
  | breakLoop (pos : Position)
  | continueLoop (pos : Position)

structure FunctionDecl where
  name : Option String
  params : List Param
  returns : Option Typing
  body : List Stmt
  pos : Position

structure ClassDecl where
  name : Option String
  properties : List Param
  methods : List FunctionDecl
  pos : Position

structure NamespaceDecl where
  name : Option String
  body : List Stmt
  pos : Position

end

instance : Inhabited Expr := ⟨.literal default .nil⟩

instance : Inhabited Stmt := ⟨.breakLoop default⟩

/-- A whole file. -/
abbrev Program := List Stmt

/-- What a declaration without a name is called. -/
def shownName (name : Option String) : String := name.getD "<anonymous>"

def FunctionDecl.shownName (d : FunctionDecl) : String := TinyScript.shownName d.name

def ClassDecl.shownName (d : ClassDecl) : String := TinyScript.shownName d.name

def NamespaceDecl.shownName (d : NamespaceDecl) : String := TinyScript.shownName d.name

namespace Expr

def pos : Expr → Position
  | name p .. | literal p .. | group p .. | array p .. | object p .. | binary p .. | unary p ..
  | assign p .. | call p .. | member p .. | index p .. | function p .. | classDef p ..
  | namespaceDef p .. | importFrom p .. => p

/-- Only names, members and elements can be assigned to. -/
def isTarget : Expr → Bool
  | name .. | member .. | index .. => true
  | _ => false

/-- A function, class or namespace without a name that is the whole of a declared value takes the
    declared name. -/
def withName (n : String) : Expr → Expr
  | function p d => function p { d with name := some (d.name.getD n) }
  | classDef p d => classDef p { d with name := some (d.name.getD n) }
  | namespaceDef p d => namespaceDef p { d with name := some (d.name.getD n) }
  | e => e

end Expr

namespace Stmt

def pos : Stmt → Position
  | expr p .. | declare p .. | destructure p .. | function p .. | classDef p .. | namespaceDef p ..
  | ifElse p .. | whileLoop p .. | forLoop p .. | block p .. | returnValue p .. | breakLoop p
  | continueLoop p => p

/-- The names that a statement itself declares, in order, each with whether it is exported. -/
def declared : Stmt → List (String × Bool)
  | declare _ _ name _ _ exported => [(name, exported)]
  | destructure _ _ targets _ exported => targets.map fun t => (t.name, exported)
  | function _ d exported => [(d.shownName, exported)]
  | classDef _ d exported => [(d.shownName, exported)]
  | namespaceDef _ d exported => [(d.shownName, exported)]
  | _ => []

end Stmt

end TinyScript
