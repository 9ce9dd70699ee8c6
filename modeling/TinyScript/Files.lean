/-
  TinyScript.Files — a tree of files in memory.

  A tree holds directories and files by the names that lead to them from its root; the root itself
  always exists. A path is followed name by name, from the root if it starts with a slash and from
  the working directory otherwise.
-/

import TinyScript.Fault
import TinyScript.Path

namespace TinyScript

/-- Why a file cannot be had. -/
inductive FileProblem where
  | missing | notDirectory | isDirectory | nameTooLong | notText | zeroByte
  deriving DecidableEq, Repr

def FileProblem.text : FileProblem → String
  | missing => "No such file or directory (os error 2)"
  | notDirectory => "Not a directory (os error 20)"
  | isDirectory => "Is a directory (os error 21)"
  | nameTooLong => "File name too long (os error 36)"
  | notText => "stream did not contain valid UTF-8"
  | zeroByte => "file name contained an unexpected NUL byte"

-- Contents are compared as the core library does, whatever else is imported.
attribute [local instance (high)] ByteArray.instDecidableEq

inductive FileNode where
  | directory
  | file (content : ByteArray)
  deriving DecidableEq

structure Files where
  /-- The names that lead to the working directory. -/
  home : List String
  nodes : List (List String × FileNode)

/-- The longest name that a file can have, in bytes. -/
def maxNameBytes : Nat := 255

namespace Files

/-- The places on the way to where `names` lead, the last one included. -/
def places (names : List String) : List (List String) :=
  (List.range names.length).map fun n => names.take (n + 1)

/-- A tree with nothing in it but the directories down to the working directory. -/
def empty (home : String) : Files :=
  let names := Path.names home
  ⟨names, (places names).map fun d => (d, .directory)⟩

def node? (f : Files) (names : List String) : Option FileNode :=
  match names with
  | [] => some .directory
  | _ => f.nodes.lookup names

def put (f : Files) (names : List String) (n : FileNode) : Files :=
  { f with nodes := (names, n) :: f.nodes.filter (·.1 ≠ names) }

/-- Where a path starts from. -/
def origin (f : Files) (path : String) : List String := if Path.isAbsolute path then [] else f.home

/-- The names that lead to where a path means, whether something is there or not. -/
def target (f : Files) (path : String) : List String :=
  (Path.names path).foldl
    (fun names name =>
      if name = "." then names else if name = ".." then names.dropLast else names ++ [name])
    (f.origin path)

/-- Writes a file and makes the directories above it that are missing. -/
def write (f : Files) (path : String) (content : ByteArray) : Files :=
  let names := f.target path
  let above := (places names.dropLast).filter fun d => (f.node? d).isNone
  (above.foldl (fun f d => f.put d .directory) f).put names (.file content)

def remove (f : Files) (path : String) : Files :=
  { f with nodes := f.nodes.filter (·.1 ≠ f.target path) }

/-- Takes one step from where `names` lead to. -/
def enter (f : Files) (names : List String) (name : String) : Except FileProblem (List String) :=
  if f.node? names ≠ some .directory then .error .notDirectory
  else if name = "" ∨ name = "." then .ok names
  else if name = ".." then .ok names.dropLast
  else if name.utf8ByteSize > maxNameBytes then .error .nameTooLong
  else if (f.node? (names ++ [name])).isSome then .ok (names ++ [name])
  else .error .missing

/-- The names that lead to what a path means. -/
def locate (f : Files) (path : String) : Except FileProblem (List String) :=
  if path.toList.contains '\x00' then .error .zeroByte
  else if path.isEmpty then .error .missing
  else (Text.splitText "/" path).foldlM f.enter (f.origin path)

/-- The one path that leads to what a path means. -/
def locatePath (f : Files) (path : String) : Except FileProblem String := do
  return "/" ++ String.intercalate "/" (← f.locate path)

def read (f : Files) (path : String) : Except FileProblem String := do
  match f.node? (← f.locate path) with
  | some (.file content) =>
    match String.fromUTF8? content with
    | some text => return text
    | none => .error .notText
  | _ => .error .isDirectory

/-- The one path of the file that `path` means in the file `importer`. -/
def resolve (f : Files) (importer path : String) : Except Failure String :=
  let joined := Path.join (Path.parent importer) path
  match f.locatePath joined with
  | .ok found => .ok found
  | .error p => .error (.cannotImport joined p.text)

end Files

end TinyScript
