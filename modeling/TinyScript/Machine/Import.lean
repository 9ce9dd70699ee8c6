/-
  TinyScript.Machine.Import — modules and what they export.

  A module is a file that runs once, in a scope under the global one. Importing it again, by
  whatever path, gives the same namespace. A file that is still running cannot be imported.
-/

import TinyScript.Grammar.Statement
import TinyScript.Machine.Basic
import TinyScript.Path

namespace TinyScript

open TinyScript.Text

/-- The program of a source text. -/
def parseSource (source file : String) : Except Fault Program :=
  match Token.tokenize source file with
  | .error e => .error (.lexical e)
  | .ok tokens =>
    match Grammar.program tokens with
    | .error e => .error (.grammar e)
    | .ok p => .ok p

/-- The names that a body exports, each once: those marked so, or all if none is. -/
def exportedNames (body : List Stmt) : List String :=
  let declared := body.flatMap Stmt.declared
  let marked := declared.filter (·.2)
  let chosen := if marked.isEmpty then declared else marked
  (chosen.map (·.1)).foldl (fun names n => if names.contains n then names else names ++ [n]) []

namespace Store

/-- Makes a symbol for each name that is bound. -/
def makeSymbols (s : Store) (scope : ScopeId) : List String → List Ref × Store
  | [] => ([], s)
  | name :: rest =>
    match s.binding? scope name with
    | some b =>
      let (r, s) := s.alloc (.symbol name b.value b.constant)
      let (symbols, s) := s.makeSymbols scope rest
      (r :: symbols, s)
    | none => s.makeSymbols scope rest

/-- The namespace of what a body declared in a scope. -/
def makeSpace (s : Store) (scope : ScopeId) (name : String) (body : List Stmt) : Value × Store :=
  let (symbols, s) := s.makeSymbols scope (exportedNames body)
  let (r, s) := s.alloc (.namespaceDef name symbols)
  (.namespaceRef r, s)

end Store

namespace Machine

/-- The files from the first one that is `path` back to it. -/
def cycle? (loading : List String) (path : String) : Option (List String) :=
  match loading.dropWhile (· ≠ path) with
  | [] => none
  | chain => some (chain ++ [path])

/-- Runs a body in a scope of its own and gives the namespace of what it declares. -/
def enterNamespace (m : Machine) (d : NamespaceDecl) : Machine :=
  let m := m.enterScope m.scope .module
  (m.push (.flow (.namespaceBody d.shownName d.body))).sequence .nil d.body

/-- Looks for the file that an import at `pos` means. -/
def importFrom (m : Machine) (pos : Position) (path : String) : Machine :=
  { m with control := .locate (Path.join (Path.parent pos.file) path) pos }

/-- Goes on with the file that was found. -/
def importLocated (m : Machine) (pos : Position) (path : String) : Machine :=
  match m.modules.get? path with
  | some r => m.give (.namespaceRef r)
  | none =>
    match cycle? m.loading path with
    | some chain => m.fail pos (.circularImport (String.intercalate " -> " chain))
    | none => { m with control := .load path pos }

/-- Runs the file that was read. -/
def enterModule (m : Machine) (path source : String) : Machine :=
  m.proceed (parseSource source path) fun program =>
    let m := { m with loading := m.loading ++ [path] }
    let m := (m.push (.exit (.module path))).enterScope Store.global .module
    (m.push (.value (.exports (Path.stem path) program))).program .nil program

/-- Runs the program of a file, of which the path is known if it exists. -/
def enterProgram (m : Machine) (path : Option String) (program : Program) : Machine :=
  let m := { m with loading := m.loading ++ path.toList }
  let m := (m.push (.exit (.run path.isSome))).enterScope Store.global .module
  m.program .nil program

end Machine

end TinyScript
