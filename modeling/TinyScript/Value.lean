/-
  TinyScript.Value — the values a script computes with.

  Numbers, strings, booleans and nil are themselves. Every other value refers to a cell of the
  store and is known by it: two arrays with the same items are different arrays.
-/

import TinyScript.Tree

namespace TinyScript

/-- The identity of a cell of the store. -/
abbrev Ref := Nat

/-- The place of a scope in the store. Places are used again. -/
abbrev ScopeId := Nat

inductive BuiltinType where
  | number | string | boolean | array | object | function | type | symbol | nil | any
  deriving DecidableEq, Repr

namespace BuiltinType

def all : List BuiltinType :=
  [number, string, boolean, array, object, function, type, symbol, nil, any]

/-- The name that a script writes. -/
def name : BuiltinType → String
  | number => "number"
  | string => "string"
  | boolean => "boolean"
  | array => "array"
  | object => "object"
  | function => "function"
  | type => "type"
  | symbol => "symbol"
  | nil => "nil"
  | any => "any"

/-- The name that messages show. -/
def shownName : BuiltinType → String
  | number => "Number"
  | string => "String"
  | boolean => "Boolean"
  | array => "Array"
  | object => "Object"
  | function => "Function"
  | type => "Type"
  | symbol => "Symbol"
  | nil => "Nil"
  | any => "Any"

def ofName? (s : String) : Option BuiltinType := all.find? (·.name == s)

end BuiltinType

/-- A type: a built-in one, or the class in a cell. -/
inductive TypeValue where
  | builtin (kind : BuiltinType)
  | classRef (ref : Ref)
  deriving DecidableEq, Repr

inductive Value where
  | number (value : Float)
  | string (text : String)
  | boolean (value : Bool)
  | nil
  | array (ref : Ref)
  | object (ref : Ref)
  | function (ref : Ref)
  | type (kind : TypeValue)
  | symbol (ref : Ref)
  | namespaceRef (ref : Ref)
  deriving Repr, Inhabited

namespace Value

/-- The cell that a value refers to. -/
def ref? : Value → Option Ref
  | array r | object r | function r | symbol r | namespaceRef r | type (.classRef r) => some r
  | _ => none

def ofLiteral : Literal → Value
  | .number x => .number x
  | .string s => .string s
  | .boolean b => .boolean b
  | .nil => .nil

/-- Nil, false, zero, what is not a number and the empty string count as false. -/
def isTruthy : Value → Bool
  | nil => false
  | boolean b => b
  | number x => !(x == 0 || x.isNaN)
  | string s => !s.isEmpty
  | _ => true

def isNil : Value → Bool
  | nil => true
  | _ => false

/-- Numbers, strings, booleans and nil are equal by what they are, all else by identity. -/
def same : Value → Value → Bool
  | number a, number b => a == b
  | string a, string b => a == b
  | boolean a, boolean b => a == b
  | nil, nil => true
  | array a, array b => a == b
  | object a, object b => a == b
  | function a, function b => a == b
  | type a, type b => a == b
  | symbol a, symbol b => a == b
  | namespaceRef a, namespaceRef b => a == b
  | _, _ => false

end Value

/-- How a statement ends. -/
inductive Flow where
  | normal (value : Value)
  | returned (value : Value)
  | broke
  | continued
  deriving Repr, Inhabited

end TinyScript
