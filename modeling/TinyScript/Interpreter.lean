/-
  TinyScript.Interpreter — running programs.

  A program runs in a module scope of its own, or in the scope of the session, which stays. The
  host holds values between runs; `kept` says which cells it refers to.
-/

import TinyScript.Library
import TinyScript.Machine.Step

namespace TinyScript

open TinyScript.Text

namespace Interpreter

/-- A machine that has nothing on its stack. -/
def ready (i : Interpreter) (kept : List Ref) (control : Control) : Machine :=
  { i with
    kept := kept
    control := control
    stack := []
    scope := Store.global
    depth := 0
    loading := [] }

/-- Runs a program in a fresh scope. -/
def start (i : Interpreter) (kept : List Ref) (source file : String) : Except Fault Machine := do
  let program ← parseSource source file
  return i.ready kept (.enter file program)

/-- The scope of the session, made and leased when it is first needed. -/
def sessionScope (m : Machine) : ScopeId × Machine :=
  match m.session with
  | some lease => (m.store.leasedScope lease, m)
  | none =>
    let (id, s) := m.store.push Store.global .module
    let (lease, s) := s.capture id
    (id, { m with store := s, session := some lease })

/-- Runs a program in the scope of the session. -/
def startSession (i : Interpreter) (kept : List Ref) (source file : String) :
    Except Fault Machine := do
  let program ← parseSource source file
  let (id, m) := sessionScope (i.ready kept (.give (.value .nil)))
  let m := m.push (.exit (.session m.scope))
  return { m with scope := id }.program .nil program

/-- The position of what the host asks for. -/
def hostPosition : Position := Position.start "<host>"

/-- Writes a value as text. -/
def startRender (i : Interpreter) (kept : List Ref) (v : Value) : Machine :=
  i.ready (v.refs ++ kept) (.render v false [] hostPosition)

end Interpreter

/-- Steps a machine to its end, at most `fuel` steps far. The host answers what it asks. -/
@[specialize]
def drive {μ : Type → Type} [Monad μ] (answer : (r : Request) → μ r.Reply) :
    (fuel : Nat) → Machine → μ (Option (Interpreter × Result))
  | 0, _ => pure none
  | n + 1, m =>
    match m.step with
    | .next m => drive answer n m
    | .ask r resume => answer r >>= fun reply => drive answer n (resume reply)
    | .done m result => pure (some (m.toInterpreter, result))

end TinyScript
