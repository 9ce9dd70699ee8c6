/-
  TinyScript.Machine.Builtin — the functions and methods that every script has.

  Calling a built-in type converts its argument. A bound method of a built-in value keeps the value
  it belongs to.
-/

import TinyScript.Host.Perform
import TinyScript.Machine.Operator
import TinyScript.Number.Reading
import TinyScript.Text.Case
import TinyScript.Text.Search

namespace TinyScript

open TinyScript.Text

/-- The longest range that is made. -/
def maxRange : Nat := 4194304

/-- How many numbers from `start`, `step` apart, lie before `finish`. -/
inductive RangeCount where
  | finite (count : Nat)
  | infinite
  deriving DecidableEq, Repr

def rangeCount (start finish step : Float) : RangeCount :=
  let quotient := (finish - start) / step
  match Number.magnitude quotient with
  | .finite _ _ => .finite (Number.ceiling quotient).toNat
  | _ => if Number.isNegative quotient then .finite 0 else .infinite

/-- Ways to write a range. -/
def rangeBounds : List Value → Except Failure (Float × Float × Float)
  | [.number finish] => .ok (0, finish, 1)
  | [.number start, .number finish] => .ok (start, finish, 1)
  | [.number start, .number finish, .number step] => .ok (start, finish, step)
  | [_] | [_, _] | [_, _, _] => .error (.invalidArgument "range" "bounds and step must be numbers")
  | args => .error (.arityMismatch "range" 3 args.length)

def tooLong (count : String) : Failure :=
  .invalidArgument "range"
    ("a range of " ++ count ++ " numbers is longer than " ++ toString maxRange)

/-- The numbers of a range. -/
def rangeItems (args : List Value) : Except Failure (Array Value) := do
  let (start, finish, step) ← rangeBounds args
  if !(start.isFinite && finish.isFinite && step.isFinite) then
    .error (.invalidArgument "range" "bounds and step must be finite")
  else if step == 0 then .error (.invalidArgument "range" "step must not be 0")
  else
    match rangeCount start finish step with
    | .infinite => .error (tooLong (Number.scriptText Number.infinity))
    | .finite n =>
      if n > maxRange then .error (tooLong (Number.scriptText (Number.ofBinary n 0)))
      else return (Array.range n).map fun i => .number (start + i.toFloat * step)

/-- A string, a boolean or nil as a number. -/
def Value.toNumber? : Value → Option Float
  | .number x => some x
  | .boolean b => some (if b then 1 else 0)
  | .nil => some 0
  | .string s => some (Number.ofText s)
  | _ => none

namespace Store

/-- A copy that shares its elements. -/
def clone (s : Store) (v : Value) : Value × Store :=
  match v with
  | .array r => s.newArray (s.items r)
  | .object r =>
    match s.object? r with
    | some (c, fields) => s.newObject c fields
    | none => (v, s)
  | _ => (v, s)

end Store

namespace Machine

def lengthOf (m : Machine) (pos : Position) (v : Value) : Machine :=
  match m.store.length? v with
  | some n => m.give (.number n.toFloat)
  | none =>
    m.fail pos (.invalidArgument "len" ("'" ++ m.store.shownType v ++ "' has no length"))

/-- The text of one value. -/
def stringify (m : Machine) (held : List Value) (pos : Position) (v : Value) : Machine :=
  m.renderTexts (.join "") held [] pos [v]

/-- Calls a built-in type. -/
def cast (m : Machine) (t : BuiltinType) (args : List Value) (pos : Position) : Machine :=
  match args with
  | [v] =>
    match t with
    | .number =>
      match v.toNumber? with
      | some x => m.give (.number x)
      | none =>
        m.fail pos (.invalidArgument "number" ("cannot convert '" ++ m.store.shownType v ++ "'"))
    | .string => m.stringify [v] pos v
    | .boolean => m.give (.boolean v.isTruthy)
    | .any => m.give v
    | _ => m.fail pos (.notCallable ("<Type: " ++ t.name ++ ">"))
  | _ => m.fail pos (.arityMismatch t.name 1 args.length)

/-- Adds an element behind the last one. -/
def append (m : Machine) (receiver arg : Value) : Machine :=
  match receiver with
  | .array r => (m.changed (.append r arg)).give receiver
  | _ => m.give receiver

/-- Takes the last element away. -/
def pop (m : Machine) (receiver : Value) : Machine :=
  match receiver with
  | .array r =>
    let last := (m.store.items r).back?.getD .nil
    (m.changed (.dropLast r)).give last
  | _ => m.give .nil

def contains (m : Machine) (pos : Position) (receiver arg : Value) : Machine :=
  match receiver, arg with
  | .array r, _ => m.give (.boolean ((m.store.items r).any fun v => v.same arg))
  | .string s, .string needle => m.give (.boolean (containsText s needle))
  | _, _ =>
    m.fail pos (.invalidArgument "contains"
      ("cannot search a string for '" ++ m.store.shownType arg ++ "'"))

def join (m : Machine) (pos : Position) (held : List Value) (receiver separator : Value) :
    Machine :=
  match receiver, separator with
  | .array r, .string separator =>
    let items := (m.store.items r).toList
    m.renderTexts (.join separator) (items ++ held) [] pos items
  | _, _ => m.fail pos (.invalidArgument "join" "separator must be a string")

def split (m : Machine) (pos : Position) (receiver separator : Value) : Machine :=
  match receiver, separator with
  | .string s, .string separator =>
    m.giveNew (·.newArray ((splitText separator s).map .string).toArray)
  | _, _ => m.fail pos (.invalidArgument "split" "separator must be a string")

/-- Changes the characters of a string. -/
def mapText (m : Machine) (receiver : Value) (f : List Char → List Char) : Machine :=
  match receiver with
  | .string s => m.give (.string (String.ofList (f s.toList)))
  | v => m.give v

/-- Calls a bound method. `arg` is the argument of those that have one. -/
def callMethod (m : Machine) (method : Method) (receiver : Value) (held : List Value)
    (arg : Value) (pos : Position) : Machine :=
  match method with
  | .str => m.stringify held pos receiver
  | .clone => m.giveNew (·.clone receiver)
  | .len => m.lengthOf pos receiver
  | .add => m.append receiver arg
  | .pop => m.pop receiver
  | .join => m.join pos held receiver arg
  | .contains => m.contains pos receiver arg
  | .upper => m.mapText receiver upper
  | .lower => m.mapText receiver lower
  | .split => m.split pos receiver arg

/-- Gives what a function of the host answers, with the store that it leaves. -/
def giveAnswer (m : Machine) (pos : Position) (r : Except String Value × Store) : Machine :=
  match r.1 with
  | .ok v => { m with store := r.2 }.give v
  | .error message => { m with store := r.2 }.fail pos (.host message)

/-- Runs a native function on as many arguments as it takes. -/
def runNative (m : Machine) (n : Native) (callee : Value) (args : List Value) (pos : Position) :
    Machine :=
  let held := callee :: args
  let arg := args.headD .nil
  match n with
  | .print => m.renderTexts .print held [] pos args
  | .input =>
    if args.length ≤ 1 then m.renderTexts .prompt held [] pos args
    else m.fail pos (.arityMismatch "input" 1 args.length)
  | .typeof => m.give (.type (m.store.typeOf arg))
  | .str => m.stringify held pos arg
  | .len => m.lengthOf pos arg
  | .range => m.proceedAt pos (rangeItems args) fun items => m.giveNew (·.newArray items)
  | .method method receiver => m.callMethod method receiver held arg pos
  | .host _ _ keeps run =>
    m.giveAnswer pos ((run args.length).perform m.objectClass m.store (keeps :: args))

def callNative (m : Machine) (n : Native) (callee : Value) (args : List Value) (pos : Position) :
    Machine :=
  match n.arity? with
  | some arity =>
    if args.length = arity then m.runNative n callee args pos
    else m.fail pos (.arityMismatch n.name arity args.length)
  | none => m.runNative n callee args pos

/-- Calls a value: a function, a class or a built-in type. -/
def call (m : Machine) (callee : Value) (args : List Value) (pos : Position) : Machine :=
  match callee with
  | .function r =>
    match m.store.cell? r with
    | some (.function f) => m.callFunction f [callee] args pos
    | some (.native n) => m.callNative n callee args pos
    | _ => m.fail pos (.notCallable (m.store.shownType callee))
  | .type (.classRef c) => m.construct c args pos
  | .type (.builtin t) => m.cast t args pos
  | _ => m.fail pos (.notCallable (m.store.shownType callee))

end Machine

end TinyScript
