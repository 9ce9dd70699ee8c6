/-
  TinyScript.Main — the command line at a real terminal.
-/

import TinyScript.CommandLine

namespace TinyScript

/-- Why the system refused a file. -/
def refusal (e : IO.Error) : String :=
  match e with
  | .noFileOrDirectory .. => FileProblem.missing.text
  | .inappropriateType _ code _ =>
    if code = 20 then FileProblem.notDirectory.text else FileProblem.isDirectory.text
  | .invalidArgument .. => FileProblem.nameTooLong.text
  | e => toString e

/-- What an action gives, or why it failed. -/
def attempt (action : IO String) : IO (Except String String) := do
  try
    return .ok (← action)
  catch e => return .error (refusal e)

def readText (path : String) : IO (Except String String) := do
  try
    match String.fromUTF8? (← IO.FS.readBinFile path) with
    | some text => return .ok text
    | none => return .error FileProblem.notText.text
  catch e => return .error (refusal e)

def systemTerminal : Terminal IO where
  write text := do
    let out ← IO.getStdout
    out.putStr text
    out.flush
  readLine := attempt do (← IO.getStdin).getLine
  locate path := attempt do return (← IO.FS.realPath path).toString
  read path := readText path

end TinyScript

def main (args : List String) : IO UInt32 := do
  let ending ← TinyScript.CommandLine.run TinyScript.systemTerminal args
  IO.eprint ending.complaint
  return ending.code.toUInt32
