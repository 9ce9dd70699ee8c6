/-
  TinyScript.Machine.Evaluate — expressions.

  Operands, arguments and elements are evaluated from left to right. An assignment evaluates the
  owner and key of its target first, then reads what is there if it has an operator, and then
  evaluates the value.
-/

import TinyScript.Machine.Builtin
import TinyScript.Machine.Import

namespace TinyScript

open TinyScript.Text

namespace Machine

def functionValue (m : Machine) (d : FunctionDecl) : Value × Machine :=
  let (closure, m) := m.capture
  m.making (·.newFunction ⟨d, closure, none⟩)

/-- A class with its methods. Of methods with one name the last counts. -/
def classValue (m : Machine) (d : ClassDecl) : Value × Machine :=
  let (closure, m) := m.capture
  let method := fun (f : FunctionDecl) => (f.shownName, (⟨f, closure, none⟩ : Function))
  let methods := Table.ofList (d.methods.map method)
  let definition : Class := ⟨d.shownName, methods, d.properties, some closure, true⟩
  let (r, m) := m.making (·.alloc (.classDef definition))
  (.type (.classRef r), m)

/-- Evaluates the elements of an array that are left. -/
def evalItems (m : Machine) (done : List Value) : List Expr → Machine
  | [] => m.giveNew (·.newArray done.reverse.toArray)
  | e :: todo => m.evalFor (.item done todo) e

/-- Evaluates the fields of an object that are left. -/
def evalFields (m : Machine) (done : Table Value) : List (String × Expr) → Machine
  | [] => m.giveNew (·.newObject m.objectClass done)
  | (name, e) :: todo => m.evalFor (.field done name todo) e

def evalArguments (m : Machine) (pos : Position) (callee : Value) (done : List Value) :
    List Expr → Machine
  | [] => m.call callee done.reverse pos
  | e :: todo => m.evalFor (.argument pos callee done todo) e

/-- Evaluates the value of an assignment for the frame that stores it. -/
def evalAssigned (m : Machine) (frame : ValueFrame) (pos : Position) (sign : AssignSign)
    (current : Unit → Except Failure (Value × Store)) (value : Expr) : Machine :=
  match sign.operator? with
  | none => m.evalFor frame value
  | some op =>
    m.proceedAt pos (current ()) fun (v, s) =>
      ({ m with store := s }.push (.value frame)).evalFor (.right pos op v) value

def lookup (m : Machine) (name : String) : Except Failure (Value × Store) :=
  match m.store.lookup? m.scope name with
  | some v => .ok (v, m.store)
  | none => .error (.undefinedName name)

def assign (m : Machine) (pos : Position) (sign : AssignSign) (target value : Expr) : Machine :=
  match target with
  | .name _ n => m.evalAssigned (.storeName pos n) pos sign (fun _ => m.lookup n) value
  | .member _ owner n => m.evalFor (.memberOwner pos sign n value) owner
  | .index _ owner key => m.evalFor (.elementOwner pos sign key value) owner
  | _ => m.fail pos (.readOnlyProperty target.text "")

/-- Starts to evaluate an expression. -/
def evaluate (m : Machine) : Expr → Machine
  | .name pos n => m.proceedAt pos (m.lookup n) fun (v, _) => m.give v
  | .literal _ l => m.give (.ofLiteral l)
  | .group _ e => m.eval e
  | .array _ items => m.evalItems [] items
  | .object _ fields => m.evalFields ∅ fields
  | .binary pos op l r => m.evalFor (.left pos op r) l
  | .unary pos op e => m.evalFor (.operand pos op) e
  | .assign pos sign target value => m.assign pos sign target value
  | .call pos callee args => m.evalFor (.callee pos args) callee
  | .member pos owner name => m.evalFor (.member pos name) owner
  | .index pos owner key => m.evalFor (.indexed pos key) owner
  | .function _ d =>
    let (v, m) := m.functionValue d
    m.give v
  | .classDef _ d =>
    let (v, m) := m.classValue d
    m.give v
  | .namespaceDef _ d => m.enterNamespace d
  | .importFrom pos path => m.evalFor (.importPath pos) path

/-- The left side of an operator is known. -/
def afterLeft (m : Machine) (pos : Position) (op : BinaryOp) (right : Expr) (l : Value) : Machine :=
  match op with
  | .and => if l.isTruthy then m.evalFor (.truth l) right else m.give (.boolean false)
  | .or => if l.isTruthy then m.give (.boolean true) else m.evalFor (.truth l) right
  | .coalesce => if l.isNil then m.eval right else m.give l
  | _ => m.evalFor (.right pos op l) right

end Machine

end TinyScript
