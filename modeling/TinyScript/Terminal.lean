/-
  TinyScript.Terminal — where the command line reads and writes.

  A terminal writes text, reads lines and reads files. The console is one in memory, with all of
  its input given at the start.
-/

import TinyScript.Files
import TinyScript.Machine.Basic

namespace TinyScript

structure Terminal (μ : Type → Type) where
  write : String → μ Unit
  /-- The next line with its end. It is empty when there is no more input. -/
  readLine : μ (Except String String)
  locate : String → μ (Except String String)
  read : String → μ (Except String String)

/-- A line without the characters that end it. -/
def withoutLineEnd (line : String) : String :=
  String.ofList ((line.toList.reverse.dropWhile fun c => c = '\r' || c = '\n').reverse)

/-- The terminal as the host of a run. -/
def Terminal.answer {μ : Type → Type} [Monad μ] (t : Terminal μ) : (r : Request) → μ r.Reply
  | .print line => t.write (line ++ "\n")
  | .prompt text => do
    t.write text
    match ← t.readLine with
    | .ok "" | .error _ => return none
    | .ok line => return some (withoutLineEnd line)
  | .locate path => t.locate path
  | .read path => t.read path

structure Console where
  files : Files
  /-- What is still to be read. -/
  input : List Char
  output : String

namespace Console

/-- Cuts the first line off. -/
def splitLine : List Char → List Char × List Char
  | [] => ([], [])
  | '\n' :: cs => (['\n'], cs)
  | c :: cs =>
    let (line, rest) := splitLine cs
    (c :: line, rest)

def fileAnswer (find : Files → Except FileProblem String) :
    StateM Console (Except String String) :=
  return match find (← get).files with
    | .ok text => .ok text
    | .error problem => .error problem.text

def terminal : Terminal (StateM Console) where
  write text := modify fun c => { c with output := c.output ++ text }
  readLine := modifyGet fun c =>
    let (line, rest) := splitLine c.input
    (.ok (String.ofList line), { c with input := rest })
  locate path := fileAnswer fun f => f.locatePath path
  read path := fileAnswer fun f => f.read path

end Console

end TinyScript
