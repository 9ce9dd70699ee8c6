/-
  TinyScript.Notebook — an interpreter used step by step.

  A notebook runs programs one after the other on one interpreter. It keeps values by name, has
  files of its own, answers prompts from a list and collects what was printed.
-/

import TinyScript.Files
import TinyScript.Interpreter

namespace TinyScript

/-- The host of a notebook. -/
structure Desk where
  files : Files
  /-- What prompts are answered with. -/
  answers : List String
  log : Array String
  prompts : Array String

namespace Desk

/-- A desk with nothing printed or asked yet. -/
def cleared (d : Desk) : Desk := { d with log := #[], prompts := #[] }

def reason {α : Type} : Except FileProblem α → Except String α
  | .ok a => .ok a
  | .error p => .error p.text

def answer : (r : Request) → StateM Desk r.Reply
  | .print line => modify fun d => { d with log := d.log.push line }
  | .prompt text => modifyGet fun d =>
    (d.answers.head?, { d with answers := d.answers.tail, prompts := d.prompts.push text })
  | .locate path => return reason ((← get).files.locatePath path)
  | .read path => return reason ((← get).files.read path)

end Desk

structure Notebook where
  interpreter : Interpreter
  desk : Desk
  kept : Table Value

inductive Task where
  | run (source file : String) (keep : Option String)
  | session (source file : String) (keep : Option String)
  | show (name : String)
  | drop (name : String)
  | write (path : String) (content : ByteArray)
  | remove (path : String)

inductive Outcome where
  | done
  /-- A value by the shown name of its type, and its text. -/
  | shown (type text : String)
  | failed (fault : Fault)
  /-- There is a value, but writing it failed. -/
  | unwritten (fault : Fault)
  | outOfFuel

structure Report where
  outcome : Outcome
  log : List String
  prompts : List String
  /-- Scopes after the task. -/
  scopes : Nat

namespace Notebook

def create (libraries : List Library) (maxDepth : Nat) (files : Files) (answers : List String) :
    Except LibraryError Notebook := do
  let i ← Interpreter.create libraries maxDepth
  return ⟨i, ⟨files, answers, #[], #[]⟩, ∅⟩

def keptRefs (n : Notebook) : List Ref := valueRefs n.kept.values

/-- Drives a machine at the notebook's desk. -/
def finish (fuel : Nat) (n : Notebook) (m : Machine) : Notebook × Option Result :=
  let (end?, desk) := (drive Desk.answer fuel m).run n.desk
  match end? with
  | some (i, r) => ({ n with interpreter := i, desk := desk }, some r)
  | none => ({ n with desk := desk }, none)

/-- Writes a value. -/
def display (fuel : Nat) (n : Notebook) (v : Value) : Notebook × Outcome :=
  let type := n.interpreter.store.shownType v
  match n.finish fuel (n.interpreter.startRender n.keptRefs v) with
  | (n, some (.text t)) => (n, .shown type t)
  | (n, some (.fault f)) => (n, .unwritten f)
  | (n, _) => (n, .outOfFuel)

/-- Runs a program and writes its value, which is then kept if it has a name. -/
def evaluate (fuel : Nat) (n : Notebook) (start : Except Fault Machine) (keep : Option String) :
    Notebook × Outcome :=
  match start with
  | .error f => (n, .failed f)
  | .ok m =>
    match n.finish fuel m with
    | (n, some (.value v)) =>
      let (n, outcome) := n.display fuel v
      match keep with
      | some name => ({ n with kept := n.kept.put name v }, outcome)
      | none => (n, outcome)
    | (n, some (.fault f)) => (n, .failed f)
    | (n, _) => (n, .outOfFuel)

def work (fuel : Nat) (n : Notebook) : Task → Notebook × Outcome
  | .run source file keep =>
    n.evaluate fuel (n.interpreter.start n.keptRefs source file) keep
  | .session source file keep =>
    n.evaluate fuel (n.interpreter.startSession n.keptRefs source file) keep
  | .show name => n.display fuel ((n.kept.get? name).getD .nil)
  | .drop name => ({ n with kept := n.kept.drop name }, .done)
  | .write path content =>
    ({ n with desk := { n.desk with files := n.desk.files.write path content } }, .done)
  | .remove path => ({ n with desk := { n.desk with files := n.desk.files.remove path } }, .done)

/-- Does a task and reports on it. -/
def perform (fuel : Nat) (n : Notebook) (t : Task) : Notebook × Report :=
  let (n, outcome) := { n with desk := n.desk.cleared }.work fuel t
  (n, ⟨outcome, n.desk.log.toList, n.desk.prompts.toList, n.interpreter.store.liveCount⟩)

def performAll (fuel : Nat) (n : Notebook) : List Task → List Report
  | [] => []
  | t :: ts =>
    let (n, report) := n.perform fuel t
    report :: n.performAll fuel ts

end Notebook

end TinyScript
