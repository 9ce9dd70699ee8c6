/-
  TinyScript.Store.Access — members, elements and iteration.

  A member of an object is its field or else a method of its class, bound to the object. Elements
  of arrays and strings are counted from the end when the index is negative; reading past the end
  gives nil, and writing right behind the last element adds one.
-/

import TinyScript.Number.Binary
import TinyScript.Store.Change
import TinyScript.Store.Types
import TinyScript.Text.Pieces

namespace TinyScript

open TinyScript.Number TinyScript.Text

/-- The place that an index means among `len` elements. It may lie past the end. -/
def elementPlace? (i : Float) (len : Nat) : Option Nat :=
  match toInt? i with
  | none => none
  | some i =>
    let i := if i < 0 then (len : Int) + i else i
    if 0 ≤ i then some i.toNat else none

def charText (c : Char) : Value := .string (String.singleton c)

namespace Store

def items (s : Store) (r : Ref) : Array Value :=
  match s.cell? r with
  | some (.array items) => items
  | _ => #[]

def newArray (s : Store) (items : Array Value) : Value × Store :=
  let (r, s) := s.alloc (.array items)
  (.array r, s)

def newObject (s : Store) (classRef : Ref) (fields : Table Value) : Value × Store :=
  let (r, s) := s.alloc (.object classRef fields)
  (.object r, s)

def newFunction (s : Store) (f : Function) : Value × Store :=
  let (r, s) := s.alloc (.function f)
  (.function r, s)

def newNative (s : Store) (n : Native) : Value × Store :=
  let (r, s) := s.alloc (.native n)
  (.function r, s)

/-- The method of an object's class, bound to the object. -/
def boundMethod? (s : Store) (v : Value) (name : String) : Option Function :=
  match v with
  | .object r => do
    let (_, c) ← s.classOf? r
    let m ← c.methods.get? name
    return { m with this := some v }
  | _ => none

/-- Identifier, value and constancy of a symbol. -/
def symbol? (s : Store) (r : Ref) : Option (String × Value × Bool) :=
  match s.cell? r with
  | some (.symbol identifier value constant) => some (identifier, value, constant)
  | _ => none

/-- Name and symbols of a namespace. -/
def space (s : Store) (r : Ref) : String × List Ref :=
  match s.cell? r with
  | some (.namespaceDef name symbols) => (name, symbols)
  | _ => ("", [])

/-- What a namespace has under a name. -/
def export? (s : Store) (r : Ref) (name : String) : Option Value :=
  (s.space r).2.findSome? fun symbol =>
    match s.symbol? symbol with
    | some (identifier, value, _) => if identifier = name then some value else none
    | none => none

def fields (s : Store) (r : Ref) : Table Value := ((s.object? r).map (·.2)).getD ∅

/-- What a value has under a name without its built-in methods. -/
def ownMember (s : Store) (v : Value) (name : String) : Except Failure (Option Value × Store) :=
  match v with
  | .object r =>
    match (s.fields r).get? name, s.boundMethod? v name with
    | some field, _ => .ok (some field, s)
    | none, some f =>
      let (f, s) := s.newFunction f
      .ok (some f, s)
    | none, none => .ok (none, s)
  | .namespaceRef r =>
    match s.export? r name with
    | some value => .ok (some value, s)
    | none => .error (.notExported (s.space r).1 name)
  | .type t => .ok (if name = "name" then some (.string (s.typeName t)) else none, s)
  | .symbol r =>
    match s.symbol? r, name with
    | some (identifier, _, _), "name" => .ok (some (.string identifier), s)
    | some (_, value, _), "value" => .ok (some value, s)
    | _, _ => .ok (none, s)
  | _ => .ok (none, s)

def member (s : Store) (v : Value) (name : String) : Except Failure (Value × Store) := do
  match ← s.ownMember v name with
  | (some value, s) => return (value, s)
  | (none, s) =>
    match Method.of? v name with
    | some m => return s.newNative (.method m v)
    | none => .error (.undefinedProperty (s.shownType v) name)

/-- The scope that a lease keeps. -/
def leasedScope (s : Store) (lease : Ref) : ScopeId :=
  match s.cell? lease with
  | some (.lease id _) => id
  | _ => Store.global

/-- Checks a value against the first declared property of that name. -/
def checkProperty (s : Store) (c : Class) (name : String) (value : Value) (pos : Position) :
    Except Fault Unit :=
  match c.properties.find? (·.name == name), c.scope with
  | some property, some lease => s.checkIf (s.leasedScope lease) value property.typing pos
  | _, _ => .ok ()

/-- Sets a field. Only objects have fields, and declared ones keep to their typing. -/
def setMember (s : Store) (target : Value) (name : String) (value : Value) (pos : Position) :
    Except Fault Change :=
  match target with
  | .object r => do
    match s.classOf? r with
    | some (_, c) => s.checkProperty c name value pos
    | none => pure ()
    return .setField r name value
  | _ => .error (.runtime (.readOnlyProperty (s.shownType target) name) pos)

def invalidIndex (s : Store) (target key : Value) : Failure :=
  .invalidIndex (s.shownType target) (s.shownType key)

def element (s : Store) (target key : Value) : Except Failure (Value × Store) :=
  match target, key with
  | .array r, .number i =>
    let items := s.items r
    match elementPlace? i items.size with
    | some i => .ok (items.getD i .nil, s)
    | none => .error (s.invalidIndex target key)
  | .string text, .number i =>
    match elementPlace? i text.length with
    | some i => .ok (((charAt? text i).map charText).getD .nil, s)
    | none => .error (s.invalidIndex target key)
  | .object r, .string name => .ok (((s.fields r).get? name).getD .nil, s)
  | .namespaceRef _, .string name => s.member target name
  | _, _ => .error (s.invalidIndex target key)

def setElement (s : Store) (target key value : Value) (pos : Position) : Except Fault Change :=
  let invalid := Fault.runtime (s.invalidIndex target key) pos
  match target, key with
  | .array r, .number i =>
    let items := s.items r
    match elementPlace? i items.size with
    | some i =>
      if i < items.size then .ok (.setItem r i value)
      else if i = items.size then .ok (.append r value)
      else .error invalid
    | none => .error invalid
  | .object _, .string name => s.setMember target name value pos
  | _, _ => .error invalid

/-- The values that a loop goes through. -/
def elements (s : Store) (v : Value) : Except Failure (List Value) :=
  match v with
  | .array r => .ok (s.items r).toList
  | .string text => .ok (text.toList.map charText)
  | .object r => .ok ((s.fields r).names.map .string)
  | .namespaceRef r => .ok ((s.space r).2.map .symbol)
  | _ => .error (.notIterable (s.shownType v))

/-- The number of elements, where a value has any. -/
def length? (s : Store) (v : Value) : Option Nat :=
  match v with
  | .array r => some (s.items r).size
  | .string text => some text.length
  | .object r => some (s.fields r).size
  | .namespaceRef r => some (s.space r).2.length
  | _ => none

/-- The members of a namespace under the names of the targets. The first one that is missing
    fails. -/
def exportsFor (s : Store) (r : Ref) (targets : List Param) : Except Fault (List Value) :=
  targets.mapM fun t =>
    match s.export? r t.name with
    | some value => .ok value
    | none => .error (.runtime (.notExported (s.space r).1 t.name) t.pos)

/-- What a destructuring declaration takes from a value: the fields or members that are named like
    the targets, or else the first elements. -/
def parts (s : Store) (v : Value) (targets : List Param) (pos : Position) :
    Except Fault (List Value) :=
  match v with
  | .object r => .ok (targets.map fun t => ((s.fields r).get? t.name).getD .nil)
  | .namespaceRef r => s.exportsFor r targets
  | _ => do
    let items ← located pos (s.elements v)
    if items.length < targets.length then
      .error (.runtime (.notEnoughElements targets.length items.length) pos)
    else return items.take targets.length

end Store

end TinyScript
