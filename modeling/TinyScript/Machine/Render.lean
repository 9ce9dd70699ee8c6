/-
  TinyScript.Machine.Render — values as text.

  A class may say by its `str` method how its objects are written. Plain objects and arrays are
  written with what they contain, taken when their turn comes; a container inside itself is
  written as dots.
-/

import TinyScript.Machine.Call
import TinyScript.Number.Layout

namespace TinyScript

open TinyScript.Text

namespace Store

/-- The name of a function. -/
def functionName (s : Store) (r : Ref) : String :=
  match s.cell? r with
  | some (.function f) => f.decl.shownName
  | some (.native n) => n.name
  | _ => ""

def spaceText (s : Store) (r : Ref) : String :=
  let (name, symbols) := s.space r
  let identifiers := symbols.filterMap fun symbol => (s.symbol? symbol).map (·.1)
  "<Namespace " ++ name ++ ": " ++ String.intercalate ", " identifiers ++ ">"

/-- The text of a value that has no parts. Strings are quoted inside of containers. -/
def plainText? (s : Store) (nested : Bool) : Value → Option String
  | .number x => some (Number.scriptText x)
  | .string t => some (if nested then "'" ++ t ++ "'" else t)
  | .boolean b => some (if b then "true" else "false")
  | .nil => some "nil"
  | .function r => some ("<Func: " ++ s.functionName r ++ ">")
  | .type t => some ("<Type: " ++ s.typeName t ++ ">")
  | .symbol r => some ("<Symbol: " ++ ((s.symbol? r).map (·.1)).getD "" ++ ">")
  | .namespaceRef r => some (s.spaceText r)
  | .array _ | .object _ => none

/-- The fields of an object in the order of their names, with what stands before each. -/
def labelledFields (s : Store) (r : Ref) : List (String × Value) :=
  (s.fields r).toList.map fun (name, v) => (name ++ ": ", v)

end Store

namespace Machine

/-- Writes the parts of a container that are left. -/
def renderParts (m : Machine) (opening closing : String) (held : List Value) (done : List String)
    (path : List Ref) (pos : Position) : List (String × Value) → Machine
  | [] => m.text (opening ++ String.intercalate ", " done.reverse ++ closing)
  | (label, v) :: todo =>
    let m := m.push (.text (.parts opening closing held done label todo path pos))
    { m with control := .render v true path pos }

/-- Writes an object that has no `str` method. -/
def renderObject (m : Machine) (r : Ref) (path : List Ref) (pos : Position) : Machine :=
  match m.store.classOf? r with
  | some (_, c) =>
    if c.isUser then m.text ("<instance of " ++ c.name ++ ">")
    else if path.contains r then m.text "\x7b...\x7d"
    else
      let fields := m.store.labelledFields r
      m.renderParts "\x7b" "\x7d" (fields.map (·.2)) [] (r :: path) pos fields
  | none => m.text ""

def render (m : Machine) (v : Value) (nested : Bool) (path : List Ref) (pos : Position) :
    Machine :=
  match v with
  | .array r =>
    if path.contains r then m.text "[...]"
    else
      let items := (m.store.items r).toList
      m.renderParts "[" "]" items [] (r :: path) pos (items.map fun v => ("", v))
  | .object r =>
    match m.store.boundMethod? v "str", m.store.classOf? r with
    | some f, some (_, c) =>
      (m.push (.value (.strResult c.name pos))).callFunction f [] [] pos
    | _, _ => m.renderObject r path pos
  | _ => m.text ((m.store.plainText? nested v).getD "")

/-- Uses a list of texts. -/
def useTexts (m : Machine) (texts : List String) : TextUse → Machine
  | .print => { m with control := .print (String.intercalate " " texts) }
  | .prompt => { m with control := .prompt (String.join texts) }
  | .join separator => m.give (.string (String.intercalate separator texts))

/-- Writes values one by one for a use. -/
def renderTexts (m : Machine) (use : TextUse) (held : List Value) (done : List String)
    (pos : Position) : List Value → Machine
  | [] => m.useTexts done.reverse use
  | v :: todo =>
    let m := m.push (.text (.texts use held done todo pos))
    { m with control := .render v false [] pos }

end Machine

end TinyScript
