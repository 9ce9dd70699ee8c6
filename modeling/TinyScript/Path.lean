/-
  TinyScript.Path — paths as texts.

  A path is names between slashes. Empty names and single dots mean nothing, except for a dot that
  a path starts with. Nothing here looks at files.
-/

import TinyScript.Text.Search

namespace TinyScript.Path

open TinyScript.Text

/-- The part of a path in front of its names: a slash, a dot that it starts with, or nothing. -/
def lead : List Char → List Char
  | '/' :: _ => ['/']
  | ['.'] | '.' :: '/' :: _ => ['.']
  | _ => []

/-- The last name of a reversed path with the slash in front of it, and the rest. -/
def takeName (reversed : List Char) : List Char × List Char :=
  (reversed.takeWhile (· ≠ '/'), (reversed.dropWhile (· ≠ '/')).drop 1)

/-- Takes names that mean nothing away from the end of a reversed path. -/
def dropIdleNames : Nat → List Char → List Char
  | n + 1, reversed =>
    match reversed, takeName reversed with
    | [], _ => []
    | _ :: _, (name, rest) => if name = [] ∨ name = ['.'] then dropIdleNames n rest else reversed
  | 0, reversed => reversed

def isAbsolute (path : String) : Bool := path.toList.head? = some '/'

/-- The directory that a path stands in, written as the path writes it. -/
def parent (path : String) : String :=
  let chars := path.toList
  let front := lead chars
  let body := (chars.drop front.length).reverse
  match dropIdleNames body.length body with
  | [] => ""
  | names =>
    let above := (takeName names).2
    String.ofList (front ++ (dropIdleNames above.length above).reverse)

/-- A path as it is meant in a directory. -/
def join (directory path : String) : String :=
  if isAbsolute path || directory.isEmpty then path
  else if directory.toList.getLast? = some '/' then directory ++ path
  else directory ++ "/" ++ path

/-- The names of a path, empty ones left out. -/
def names (path : String) : List String :=
  (splitText "/" path).filter (· ≠ "")

/-- The last name of a path without its extension. A dot that the name starts with is no
    extension. -/
def stem (path : String) : String :=
  let name := ((names path).getLast?).getD ""
  let afterDot := name.toList.reverse.dropWhile (· ≠ '.')
  match afterDot.drop 1 with
  | [] => name
  | kept => String.ofList kept.reverse

end TinyScript.Path
