/-
  TinyScript.Host — functions of the host.

  A function of the host is not written in the script, and there is no saying how it is written.
  What it can do to values is what counts: look at them and at what they hold, compare them, make
  new ones, change arrays and objects as a script may, keep values between calls, give one back or
  fail. It knows values by their places in a list, so that it cannot make up references. It sees
  neither scopes nor how often something is referred to, and it does not call functions.
-/

import TinyScript.Value

namespace TinyScript

/-- What the host sees of a value at a look. What the value holds is known to it from then on:
    the elements of an array, the class and the fields of an object in the order of their names,
    what a function is bound to, the symbols of a namespace, the value of a symbol. -/
inductive Seen where
  | literal (literal : Literal)
  | array (length : Nat)
  | object (fields : List String)
  | function (name : String) (bound : Bool)
  | type (builtin : BuiltinType)
  | classDef (name : String) (properties methods : List String)
  | namespaceDef (name : String) (length : Nat)
  | symbol (identifier : String) (constant : Bool)

/-- A change of an array or an object, by the places of the values. -/
inductive HostEdit where
  /-- Sets an element or a field, as an assignment of the script does. -/
  | set (owner key value : Nat)
  | append (array value : Nat)
  | dropLast (array : Nat)

mutual

/-- What the host makes. -/
inductive Made where
  | value (literal : Literal)
  | type (builtin : BuiltinType)
  /-- A value that is known. -/
  | known (place : Nat)
  | array (items : List Made)
  | object (names : List String) (values : List Made)
  /-- A class without methods, whose properties have no types. -/
  | classDef (name : String) (properties : List String)
  /-- A function that keeps something. What it does is told for each number of arguments, and what
      it keeps is known to it before them. -/
  | function (name : String) (arity : Option Nat) (keeps : Made) (run : Nat → HostCode)

/-- What a function of the host does, one thing after the other. -/
inductive HostCode where
  | give (place : Nat)
  | fail (message : String)
  | look (place : Nat) (next : Seen → HostCode)
  /-- Tells whether two values are the same, as `==` does. -/
  | compare (left right : Nat) (next : Bool → HostCode)
  /-- Makes a value, which is known from then on. -/
  | make (made : Made) (next : HostCode)
  /-- Makes a change, and tells whether it could be made. -/
  | change (edit : HostEdit) (next : Bool → HostCode)

end

instance : Inhabited Made := ⟨.value .nil⟩

/-- A function of the host, by the number of its arguments. What it keeps is known to it at place 0,
    and its arguments behind it. -/
abbrev HostFunction := Nat → HostCode

namespace HostFunction

/-- All arguments as an array. -/
def list : HostFunction := fun n =>
  .make (.array ((List.range n).map fun i => .known (i + 1))) (.give (n + 1))

/-- The number of arguments. -/
def count : HostFunction := fun n => .make (.value (.number n.toFloat)) (.give (n + 1))

/-- The first argument, or nil. -/
def first : HostFunction
  | 0 => .make (.value .nil) (.give 1)
  | _ + 1 => .give 1

/-- The larger of two numbers; what is not a number counts for nothing. -/
def larger : HostFunction
  | 2 => .look 1 fun a => .look 2 fun b =>
    match a, b with
    | .literal (.number a), .literal (.number b) =>
      let x := if a.isNaN then b else if b.isNaN then a else if a < b then b else a
      .make (.value (.number x)) (.give 3)
    | _, _ => .fail "max expects numbers"
  | _ => .fail "max expects numbers"

def failing (message : String) : HostFunction := fun _ => .fail message

end HostFunction

end TinyScript
