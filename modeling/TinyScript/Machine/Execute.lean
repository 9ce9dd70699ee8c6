/-
  TinyScript.Machine.Execute — statements.

  Blocks, loop bodies and functions run in scopes of their own. A loop over values goes through
  what they were when it started, each in a new scope.
-/

import TinyScript.Machine.Evaluate

namespace TinyScript

open TinyScript.Text

namespace Store

/-- Binds a declared name as its qualifier says. -/
def bindAs (s : Store) (scope : ScopeId) (q : Qualifier) (name : String) (v : Value) :
    Except Failure Change :=
  match q with
  | .varDecl => s.declareVar scope name v
  | .letDecl => s.declare scope name v false
  | .constDecl => s.declare scope name v true

end Store

namespace Machine

/-- Binds a value in the current scope, which ends the statement. -/
def bindStatement (m : Machine) (pos : Position) (name : String) (v : Value) : Machine :=
  m.changeAt pos (m.store.declare m.scope name v false) (·.flow (.normal v))

/-- Binds a declared value, which ends the statement. -/
def bindDeclared (m : Machine) (pos : Position) (q : Qualifier) (name : String) (v : Value) :
    Machine :=
  m.changeAt pos (m.store.bindAs m.scope q name v) (·.flow (.normal v))

/-- Checks and binds the targets of a destructuring one after the other. A target that fails
    leaves those before it bound. -/
def bindTargets (m : Machine) (q : Qualifier) (whole : Value) : List (Param × Value) → Machine
  | [] => m.flow (.normal whole)
  | (t, v) :: rest =>
    m.proceed (m.store.checkIf m.scope v t.typing t.pos) fun _ =>
      m.changeAt t.pos (m.store.bindAs m.scope q t.name v) (·.bindTargets q whole rest)

/-- Runs the body of a loop with the next value. -/
def loopOver (m : Machine) (pos : Position) (item : String) (body : List Stmt)
    (iterable : Value) : List Value → Machine
  | [] => m.flow (.normal .nil)
  | v :: todo =>
    let m := (m.push (.flow (.itemBody pos item body iterable todo))).enterScope m.scope .block
    m.changeAt pos (m.store.declare m.scope item v false) (·.sequence .nil body)

/-- Starts to execute a statement. -/
def execute (m : Machine) : Stmt → Machine
  | .expr _ e => m.evalFor .statement e
  | .declare pos q name typing (some e) _ => m.evalFor (.declare pos q name typing) e
  | .declare pos q name _ none _ => m.bindDeclared pos q name .nil
  | .destructure _ q targets value _ => m.evalFor (.destructure value.pos q targets) value
  | .function pos d _ =>
    let (v, m) := m.functionValue d
    m.bindStatement pos d.shownName v
  | .classDef pos d _ =>
    let (v, m) := m.classValue d
    m.bindStatement pos d.shownName v
  | .namespaceDef pos d _ => (m.push (.value (.bindName pos d.shownName))).enterNamespace d
  | .ifElse _ condition body otherwise => m.evalFor (.branch body otherwise) condition
  | .whileLoop _ condition body => m.evalFor (.loopTest condition body) condition
  | .forLoop pos item iterable body => m.evalFor (.loopItems pos iterable.pos item body) iterable
  | .block _ body => m.enterBlock body
  | .returnValue _ (some e) => m.evalFor .returned e
  | .returnValue _ none => m.flow (.returned .nil)
  | .breakLoop _ => m.flow .broke
  | .continueLoop _ => m.flow .continued

/-- The condition of an if statement is known. -/
def branch (m : Machine) (condition : Value) (body : List Stmt) (otherwise : Option Stmt) :
    Machine :=
  if condition.isTruthy then m.enterBlock body
  else
    match otherwise with
    | some s => m.exec s
    | none => m.flow (.normal .nil)

/-- The condition of a while loop is known. -/
def loopTest (m : Machine) (test : Value) (condition : Expr) (body : List Stmt) : Machine :=
  if test.isTruthy then (m.push (.flow (.loopBody condition body))).enterBlock body
  else m.flow (.normal .nil)

end Machine

end TinyScript
