/-
  TinyScript.CommandLine — the command line.

  It runs a file, lists its tokens, prints its tree, or reads programs line by line, each of which
  runs in the scope of one session.
-/

import TinyScript.Interpreter
import TinyScript.Terminal
import TinyScript.Text.Blank
import TinyScript.Token.Listing

namespace TinyScript

open TinyScript.Text

namespace CommandLine

def version : String := "es 0.1.0"

inductive Command where
  | run (file : String)
  | tokens (file : String)
  | tree (file : String)
  | interactive
  | version
  deriving DecidableEq, Repr

structure Options where
  command : Command
  maxDepth : Nat
  deriving DecidableEq, Repr

/-- How the command line ends: its code, and what it says if it failed. -/
structure Ending where
  code : Nat
  complaint : String
  deriving DecidableEq, Repr

/-! ## Arguments -/

/-- What was read of the arguments so far. -/
structure Reading where
  words : List String
  maxDepth : Option Nat

/-- A whole number that fits into 64 bits. -/
def readDepth? (s : String) : Option Nat :=
  let digits := match s.toList with
    | '+' :: cs => cs
    | cs => cs
  if digits.isEmpty || !digits.all Number.isDigit then none
  else
    let n := Number.natOfDigits digits
    if n < UInt64.size then some n else none

def isVerbose (s : String) : Bool :=
  s == "--verbose" || match s.toList with
    | '-' :: 'v' :: vs => vs.all (· == 'v')
    | _ => false

def depthSign : String := "--max-call-depth="

/-- Goes through the arguments. None means that only the version is asked for. -/
def readArguments (r : Reading) : List String → Except String (Option Reading)
  | [] => .ok (some r)
  | "--" :: rest => .ok (some { r with words := r.words ++ rest })
  | "--max-call-depth" :: n :: rest =>
    match readDepth? n with
    | some n => readArguments { r with maxDepth := some n } rest
    | none => .error ("invalid value '" ++ n ++ "' for '--max-call-depth'")
  | arg :: rest =>
    if isVerbose arg then readArguments r rest
    else if r.words.isEmpty && (arg == "--version" || arg == "-V") then .ok none
    else if arg.startsWith depthSign then
      let n := (arg.drop depthSign.length).toString
      match readDepth? n with
      | some n => readArguments { r with maxDepth := some n } rest
      | none => .error ("invalid value '" ++ n ++ "' for '--max-call-depth'")
    else if arg.startsWith "-" && arg != "-" then .error ("unexpected argument '" ++ arg ++ "'")
    else readArguments { r with words := r.words ++ [arg] } rest

def commandOf : List String → Except String Command
  | [] => .ok .interactive
  | ["repl"] => .ok .interactive
  | ["run", file] => .ok (.run file)
  | ["tokens", file] => .ok (.tokens file)
  | ["ast", file] => .ok (.tree file)
  | ["run"] | ["tokens"] | ["ast"] => .error "a file is required"
  | word :: _ => .error ("unexpected argument '" ++ word ++ "'")

def parseArguments (args : List String) : Except String Options := do
  match ← readArguments ⟨[], none⟩ args with
  | none => return ⟨.version, defaultMaxDepth⟩
  | some r => return ⟨← commandOf r.words, r.maxDepth.getD defaultMaxDepth⟩

/-! ## Commands -/

variable {μ : Type → Type} [Monad μ]

/-- More steps than a process can take. -/
def endless : Nat := 1000000000000000000

/-- Reads a file that an argument names. -/
def readSource (t : Terminal μ) (file : String) : μ (Except String String) := do
  match ← t.read file with
  | .ok source => return .ok source
  | .error reason => return .error ("Cannot read '" ++ file ++ "': " ++ reason)

/-- Runs a file. Its value is not shown. -/
def runFile (t : Terminal μ) (maxDepth : Nat) (file : String) : μ (Except String Unit) := do
  match ← readSource t file with
  | .error complaint => return .error complaint
  | .ok source =>
    match Interpreter.create [] maxDepth with
    | .error e => return .error e.message
    | .ok i =>
      match i.start [] source file with
      | .error f => return .error f.text
      | .ok m =>
        match ← drive t.answer endless m with
        | some (_, .fault f) => return .error f.text
        | _ => return .ok ()

/-- Shows the value of a line, unless it is nil. -/
def showValue (t : Terminal μ) (i : Interpreter) (v : Value) : μ Interpreter := do
  if v.isNil then return i
  match ← drive t.answer endless (i.startRender [] v) with
  | some (i, .text text) =>
    t.write (text ++ "\n")
    return i
  | some (i, .fault f) =>
    t.write (f.text ++ "\n")
    return i
  | some (i, _) => return i
  | none => return i

/-- Runs a line in the session. -/
def runLine (t : Terminal μ) (i : Interpreter) (line : String) : μ Interpreter := do
  let source := String.ofList (trim line.toList)
  match i.startSession [] source "<repl>" with
  | .error f =>
    t.write (f.text ++ "\n")
    return i
  | .ok m =>
    match ← drive t.answer endless m with
    | some (i, .value v) => showValue t i v
    | some (i, .fault f) =>
      t.write (f.text ++ "\n")
      return i
    | some (i, _) => return i
    | none => return i

/-- Runs line after line, at most `n`. -/
def interact (t : Terminal μ) : (n : Nat) → Interpreter → μ (Except String Unit)
  | 0, _ => return .ok ()
  | n + 1, i => do
    t.write "> "
    match ← t.readLine with
    | .error reason => return .error reason
    | .ok "" => return .ok ()
    | .ok line => interact t n (← runLine t i line)

def runInteractive (t : Terminal μ) (maxDepth : Nat) : μ (Except String Unit) := do
  t.write (version ++ "\nEOF to exit. (Ctrl+D on *nix, Ctrl+Z on Windows)\n")
  match Interpreter.create [] maxDepth with
  | .error e => return .error e.message
  | .ok i => interact t endless i

def listTokens (t : Terminal μ) (file : String) : μ (Except String Unit) := do
  match ← readSource t file with
  | .error complaint => return .error complaint
  | .ok source =>
    match Token.tokenize source file with
    | .error e => return .error (Fault.lexical e).text
    | .ok tokens =>
      t.write (Token.listing tokens)
      return .ok ()

def printTree (t : Terminal μ) (file : String) : μ (Except String Unit) := do
  match ← readSource t file with
  | .error complaint => return .error complaint
  | .ok source =>
    match parseSource source file with
    | .error f => return .error f.text
    | .ok program =>
      t.write (programText program ++ "\n")
      return .ok ()

def perform (t : Terminal μ) (o : Options) : μ (Except String Unit) :=
  match o.command with
  | .run file => runFile t o.maxDepth file
  | .tokens file => listTokens t file
  | .tree file => printTree t file
  | .interactive => runInteractive t o.maxDepth
  | .version => do
    t.write (version ++ "\n")
    return .ok ()

/-- Does what the arguments say. -/
def run (t : Terminal μ) (args : List String) : μ Ending := do
  match parseArguments args with
  | .error complaint => return ⟨2, "error: " ++ complaint ++ "\n"⟩
  | .ok options =>
    match ← perform t options with
    | .ok () => return ⟨0, ""⟩
    | .error complaint => return ⟨1, complaint ++ "\n"⟩

end CommandLine

end TinyScript
