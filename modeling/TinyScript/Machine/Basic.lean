/-
  TinyScript.Machine.Basic — the states of a run.

  A machine has a control, which says what is done next, and a stack of frames, each of which
  waits for a result of what is above it. A run is a sequence of steps from state to state, so
  whatever holds of every state is proved step by step. Whatever the machine needs from outside it
  asks for.

  Frames say what they hold, because a scope is kept while a value in use refers to it.
-/

import TinyScript.Store.Access
import TinyScript.Store.Collect

namespace TinyScript

open TinyScript.Text

/-- What a run asks of its host. -/
inductive Request where
  /-- Show a line. -/
  | print (line : String)
  /-- Show a text and read a line, unless there is none. -/
  | prompt (text : String)
  /-- Find the one path of an existing file or directory. -/
  | locate (path : String)
  /-- Read a file. -/
  | read (path : String)
  deriving DecidableEq, Repr

/-- What the host answers. Files that cannot be had come with a reason. -/
def Request.Reply : Request → Type
  | .print _ => Unit
  | .prompt _ => Option String
  | .locate _ | .read _ => Except String String

/-- How a part of a run ends. -/
inductive Result where
  | value (value : Value)
  | flow (flow : Flow)
  | text (text : String)
  | fault (fault : Fault)

inductive Control where
  | eval (expr : Expr)
  | exec (stmt : Stmt)
  /-- Writes a value as text; `path` are the containers that it stands in. -/
  | render (value : Value) (nested : Bool) (path : List Ref) (pos : Position)
  | print (line : String)
  | prompt (text : String)
  /-- Starts a program from a file of that name. -/
  | enter (file : String) (program : Program)
  /-- Finds the file to import. -/
  | locate (path : String) (pos : Position)
  /-- Reads the file to import. -/
  | load (path : String) (pos : Position)
  | give (result : Result)

/-- What a list of texts is written for. -/
inductive TextUse where
  | print
  | prompt
  | join (separator : String)
  deriving DecidableEq, Repr

/-- Frames that wait for a value. -/
inductive ValueFrame where
  | item (done : List Value) (todo : List Expr)
  | field (done : Table Value) (name : String) (todo : List (String × Expr))
  | left (pos : Position) (op : BinaryOp) (right : Expr)
  | right (pos : Position) (op : BinaryOp) (left : Value)
  /-- The right side of a logical operator whose left side did not decide. -/
  | truth (left : Value)
  /-- The method that stands for an operator. -/
  | operator (op : BinaryOp) (left right : Value)
  | operand (pos : Position) (op : UnaryOp)
  /-- Passes the value on. -/
  | hold (values : List Value)
  | storeName (pos : Position) (name : String)
  | memberOwner (pos : Position) (sign : AssignSign) (name : String) (value : Expr)
  | storeMember (pos : Position) (owner : Value) (name : String)
  | elementOwner (pos : Position) (sign : AssignSign) (key value : Expr)
  | elementKey (pos : Position) (sign : AssignSign) (owner : Value) (value : Expr)
  | storeElement (pos : Position) (owner key : Value)
  | callee (pos : Position) (args : List Expr)
  | argument (pos : Position) (callee : Value) (done : List Value) (todo : List Expr)
  | member (pos : Position) (name : String)
  | indexed (pos : Position) (key : Expr)
  | key (pos : Position) (owner : Value)
  | importPath (pos : Position)
  /-- An expression that is a statement. -/
  | statement
  | declare (pos : Position) (qualifier : Qualifier) (name : String) (typing : Option Typing)
  | destructure (pos : Position) (qualifier : Qualifier) (targets : List Param)
  | branch (body : List Stmt) (otherwise : Option Stmt)
  | loopTest (condition : Expr) (body : List Stmt)
  | loopItems (pos itemsPos : Position) (item : String) (body : List Stmt)
  | returned
  /-- Binds a namespace to its name. -/
  | bindName (pos : Position) (name : String)
  /-- The end of `init`: the object is the value. -/
  | construct (object : Value) (held : List Value)
  /-- The end of a `str` method of a class. -/
  | strResult (className : String) (pos : Position)
  /-- The end of a module: the namespace of what it declares is the value. -/
  | exports (name : String) (body : List Stmt)

/-- Frames that wait for the end of a statement. -/
inductive FlowFrame where
  | sequence (last : Value) (todo : List Stmt)
  /-- Statements at the top of a file, whose last value is the result. -/
  | program (last : Value) (todo : List Stmt)
  | loopBody (condition : Expr) (body : List Stmt)
  | itemBody (pos : Position) (item : String) (body : List Stmt) (iterable : Value)
      (todo : List Value)
  | functionBody
  | namespaceBody (name : String) (body : List Stmt)

/-- Frames that wait for a text. -/
inductive TextFrame where
  /-- Parts of a container, each with what stands before it. -/
  | parts (opening closing : String) (held : List Value) (done : List String) (label : String)
      (todo : List (String × Value)) (path : List Ref) (pos : Position)
  | texts (use : TextUse) (held : List Value) (done : List String) (todo : List Value)
      (pos : Position)

/-- Frames that act on any end, faults included. -/
inductive ExitFrame where
  /-- Leaves the current scope for the one before. -/
  | scope (previous : ScopeId)
  | call (function : Function) (held : List Value) (pos : Position)
  | module (path : String)
  | run (located : Bool)
  | session (previous : ScopeId)

inductive Frame where
  | value (frame : ValueFrame)
  | flow (frame : FlowFrame)
  | text (frame : TextFrame)
  | exit (frame : ExitFrame)

/-! ## What is held -/

def Flow.refs : Flow → List Ref
  | .normal v | .returned v => v.refs
  | .broke | .continued => []

def Result.refs : Result → List Ref
  | .value v => v.refs
  | .flow f => f.refs
  | .text _ | .fault _ => []

def Control.refs : Control → List Ref
  | .render v .. => v.refs
  | .give r => r.refs
  | _ => []

def ValueFrame.refs : ValueFrame → List Ref
  | .item done _ => valueRefs done
  | .field done _ _ => valueRefs done.values
  | .right _ _ v | .truth v | .storeMember _ v _ | .elementKey _ _ v _ | .key _ v => v.refs
  | .operator _ v w | .storeElement _ v w => v.refs ++ w.refs
  | .hold vs => valueRefs vs
  | .argument _ f done _ => f.refs ++ valueRefs done
  | .construct object held => object.refs ++ valueRefs held
  | _ => []

def FlowFrame.refs : FlowFrame → List Ref
  | .sequence last _ | .program last _ => last.refs
  | .itemBody _ _ _ iterable todo => iterable.refs ++ valueRefs todo
  | _ => []

def TextFrame.refs : TextFrame → List Ref
  | .parts _ _ held .. => valueRefs held
  | .texts _ held .. => valueRefs held

def ExitFrame.refs : ExitFrame → List Ref
  | .call f held _ => f.refs ++ valueRefs held
  | _ => []

def Frame.refs : Frame → List Ref
  | .value f => f.refs
  | .flow f => f.refs
  | .text f => f.refs
  | .exit f => f.refs

/-! ## States -/

/-- What stays from one run to the next. -/
structure Interpreter where
  store : Store
  /-- The namespaces of the modules that were imported, by path. -/
  modules : Table Ref
  /-- The lease of the scope that sessions run in. -/
  session : Option Ref
  /-- The class of object literals. -/
  objectClass : Ref
  maxDepth : Nat
  /-- Whether scopes that nothing reaches any more are freed. -/
  reclaims : Bool
  deriving Inhabited

structure Machine extends Interpreter where
  /-- What the host holds. -/
  kept : List Ref
  control : Control
  stack : List Frame
  scope : ScopeId
  /-- Functions of the script that run. -/
  depth : Nat
  /-- Files that run, the first one first. -/
  loading : List String

inductive Step where
  | next (machine : Machine)
  | ask (request : Request) (resume : request.Reply → Machine)
  | done (machine : Machine) (result : Result)

namespace Machine

/-- Everything that refers to cells from outside the store. -/
def held (m : Machine) : List Ref :=
  m.objectClass :: m.session.toList ++ m.modules.values ++ m.kept ++ m.control.refs
    ++ m.stack.flatMap Frame.refs

def giving (m : Machine) (r : Result) : Machine := { m with control := .give r }

def give (m : Machine) (v : Value) : Machine := m.giving (.value v)

def flow (m : Machine) (f : Flow) : Machine := m.giving (.flow f)

def text (m : Machine) (t : String) : Machine := m.giving (.text t)

def fault (m : Machine) (f : Fault) : Machine := m.giving (.fault f)

def fail (m : Machine) (pos : Position) (f : Failure) : Machine := m.fault (.runtime f pos)

/-- Goes on with a result of the store, or with its fault. -/
def proceed {α : Type} (m : Machine) (r : Except Fault α) (next : α → Machine) : Machine :=
  match r with
  | .ok a => next a
  | .error f => m.fault f

/-- As `proceed`, for a failure at a position. -/
def proceedAt {α : Type} (m : Machine) (pos : Position) (r : Except Failure α)
    (next : α → Machine) : Machine :=
  match r with
  | .ok a => next a
  | .error f => m.fail pos f

/-- Makes a change of the store. -/
def changed (m : Machine) (c : Change) : Machine := { m with store := m.store.apply c }

/-- Goes on with a change of the store made, or with its fault. -/
@[inline]
def change (m : Machine) (r : Except Fault Change) (next : Machine → Machine) : Machine :=
  match r with
  | .ok c => next (m.changed c)
  | .error f => m.fault f

/-- As `change`, for a failure at a position. -/
@[inline]
def changeAt (m : Machine) (pos : Position) (r : Except Failure Change) (next : Machine → Machine) :
    Machine :=
  match r with
  | .ok c => next (m.changed c)
  | .error f => m.fail pos f

def push (m : Machine) (f : Frame) : Machine := { m with stack := f :: m.stack }

def eval (m : Machine) (e : Expr) : Machine := { m with control := .eval e }

/-- Evaluates an expression for a frame. -/
def evalFor (m : Machine) (f : ValueFrame) (e : Expr) : Machine := (m.push (.value f)).eval e

def exec (m : Machine) (s : Stmt) : Machine := { m with control := .exec s }

/-- Makes something in the store. -/
@[inline]
def making {α : Type} (m : Machine) (f : Store → α × Store) : α × Machine :=
  let (a, s) := f m.store
  (a, { m with store := s })

/-- Gives a value that is made in the store. -/
@[inline]
def giveNew (m : Machine) (f : Store → Value × Store) : Machine :=
  let (v, m) := m.making f
  m.give v

/-- Gives a value that was made in a store. -/
def giveIn (m : Machine) (r : Value × Store) : Machine := { m with store := r.2 }.give r.1

/-! ## Scopes -/

/-- Runs on in a new scope under `parent`, which is left again when what runs in it ends. -/
def enterScope (m : Machine) (parent : ScopeId) (kind : ScopeKind) : Machine :=
  let (id, s) := m.store.push parent kind
  { m with store := s, scope := id, stack := .exit (.scope m.scope) :: m.stack }

/-- Executes statements until one does not end normally. -/
def sequence (m : Machine) (last : Value) : List Stmt → Machine
  | [] => m.flow (.normal last)
  | s :: todo => (m.push (.flow (.sequence last todo))).exec s

/-- Executes the statements of a file. -/
def program (m : Machine) (last : Value) : List Stmt → Machine
  | [] => m.give last
  | s :: todo => (m.push (.flow (.program last todo))).exec s

def enterBlock (m : Machine) (body : List Stmt) : Machine :=
  (m.enterScope m.scope .block).sequence .nil body

/-- A lease of the current scope. -/
def capture (m : Machine) : Ref × Machine :=
  m.making (·.capture m.scope)

end Machine

end TinyScript
