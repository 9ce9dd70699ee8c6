/-
  TinyScript.Machine.Call — calling functions of the script and making objects.

  A function runs in a scope of its own under the scope it was made in, so that neither its body
  nor its typings see the caller's names. Faults of a typing or a binding come before the body.
-/

import TinyScript.Machine.Basic

namespace TinyScript

open TinyScript.Text

namespace Store

/-- Checks each argument against the typing of its parameter. -/
def checkArguments (s : Store) (scope : ScopeId) (params : List Param) (args : List Value)
    (pos : Position) : Except Fault Unit :=
  (params.zip args).forM fun (p, v) => s.checkIf scope v p.typing pos

end Store

namespace Machine

/-- Binds parameters and starts the body. -/
def bindArguments (m : Machine) (body : List Stmt) : List (Param × Value) → Machine
  | [] => m.sequence .nil body
  | (p, v) :: rest =>
    m.changeAt p.pos (m.store.declare m.scope p.name v false) fun m => m.bindArguments body rest

/-- Binds `this`, if the function is a method, and the parameters, and starts the body. -/
def startBody (m : Machine) (f : Function) (args : List Value) (pos : Position) : Machine :=
  let params := f.decl.params.zip args
  match f.this with
  | some this =>
    m.changeAt pos (m.store.declare m.scope "this" this true) fun m =>
      m.bindArguments f.decl.body params
  | none => m.bindArguments f.decl.body params

/-- Calls a function of the script while the values in `held` are held. -/
def callFunction (m : Machine) (f : Function) (held args : List Value) (pos : Position) :
    Machine :=
  let params := f.decl.params
  if args.length ≠ params.length then
    m.fail pos (.arityMismatch f.decl.shownName params.length args.length)
  else if m.maxDepth ≤ m.depth then m.fail pos .callDepthExceeded
  else
    let home := m.store.leasedScope f.closure
    m.proceed (m.store.checkArguments home params args pos) fun _ =>
      let m := { m with depth := m.depth + 1 }
      let m := (m.push (.exit (.call f held pos))).enterScope home .function
      (m.push (.flow .functionBody)).startBody f args pos

/-- Makes an object of a class and runs its `init`. -/
def construct (m : Machine) (classRef : Ref) (args : List Value) (pos : Position) : Machine :=
  match m.store.class? classRef with
  | none => m.fail pos (.notCallable "")
  | some c =>
    let fields := Table.ofList (c.properties.map fun p => (p.name, Value.nil))
    let (object, m) := m.making (·.newObject classRef fields)
    match c.methods.get? "init" with
    | some init =>
      let held := [Value.type (.classRef classRef)]
      (m.push (.value (.construct object held))).callFunction { init with this := some object } []
        args pos
    | none =>
      if args.isEmpty then m.give object
      else m.fail pos (.arityMismatch c.name 0 args.length)

end Machine

end TinyScript
