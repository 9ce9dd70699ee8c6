/-
  TinyScript.Library — what a host adds to the language.

  A library is a global constant: an object with constants and functions of the host. Its name has
  to be a name of the language that is not taken.
-/

import TinyScript.Grammar.Statement
import TinyScript.Machine.Builtin

namespace TinyScript

inductive Provided where
  | constant (value : Made)
  /-- A function that takes `arity` arguments, or any number. It keeps what the host keeps. -/
  | function (arity : Option Nat) (run : HostFunction)

/-- A member of a library as something that the host makes. All that is known to it is what the host
    keeps. -/
def Provided.made (name : String) : Provided → Made
  | .constant value => value
  | .function arity run => .function name arity (.known 0) run

structure Library where
  name : String
  members : List (String × Provided)

/-- Why libraries cannot be added. -/
inductive LibraryError where
  | invalidName (name : String)
  | duplicateName (name : String)
  deriving DecidableEq, Repr

def LibraryError.message : LibraryError → String
  | invalidName n => "Invalid library name '" ++ n ++ "'"
  | duplicateName n => "'" ++ n ++ "' is already defined in the global scope"

/-- A text that reads as a single name. -/
def isName (text : String) : Bool :=
  match Token.tokenize text "<init>" with
  | .ok [⟨.name _, _⟩, ⟨.eof, _⟩] => true
  | _ => false

namespace Store

/-- Binds a global constant. -/
def bindGlobal (s : Store) (name : String) (v : Value) : Store :=
  s.bind Store.global name ⟨v, true⟩

def addNative (s : Store) (n : Native) : Store :=
  let (v, s) := s.newNative n
  s.bindGlobal n.name v

/-- The built-in functions and types. Nil is a word of its own, so its type has no name. -/
def addBuiltins (s : Store) : Store :=
  let natives : List Native := [.print, .input, .typeof, .str, .len, .range]
  let s := natives.foldl addNative s
  (BuiltinType.all.filter (· ≠ .nil)).foldl
    (fun s t => s.bindGlobal t.name (.type (.builtin t))) s

/-- The fields of a library. A later member of the same name counts. -/
def provideAll (s : Store) (objectClass : Ref) (keeps : Value) :
    List (String × Provided) → Table Value → Table Value × Store
  | [], fields => (fields, s)
  | (name, p) :: rest, fields =>
    let (v, s) := s.place objectClass [keeps] (p.made name)
    s.provideAll objectClass keeps rest (fields.put name v)

def addLibrary (s : Store) (objectClass : Ref) (keeps : Value) (l : Library) :
    Except LibraryError Store :=
  if !isName l.name then .error (.invalidName l.name)
  else if (s.binding? Store.global l.name).isSome then .error (.duplicateName l.name)
  else
    let (fields, s) := s.provideAll objectClass keeps l.members ∅
    let (v, s) := s.newObject objectClass fields
    .ok (s.bindGlobal l.name v)

end Store

/-- The number of functions that may run at once, unless it is set. -/
def defaultMaxDepth : Nat := 128

/-- An interpreter with the built-ins and the libraries. The first library that cannot be added
    is reported. What the host keeps is an array that all functions of libraries share. -/
def Interpreter.create (libraries : List Library) (maxDepth : Nat) :
    Except LibraryError Interpreter := do
  let (objectClass, s) := Store.empty.alloc (.classDef .plain)
  let (keeps, s) := s.addBuiltins.newArray #[]
  let s ← libraries.foldlM (fun s l => s.addLibrary objectClass keeps l) s
  return ⟨s, ∅, none, objectClass, maxDepth, true⟩

end TinyScript
