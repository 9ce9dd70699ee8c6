/-
  TinyScript.Store.Cell — what values refer to.

  A cell is an array, an object, a function, a class, a namespace, a symbol or a lease. A lease is
  what keeps a scope: whoever holds it, or a lease below it, may still look the scope's names up.
  The references of a cell are all that it keeps alive.
-/

import TinyScript.Host
import TinyScript.Store.Exchange
import TinyScript.Store.Table

namespace TinyScript

open TinyScript.Text

/-- A function written in the script: what it does and the lease of the scope it was made in. A
    method that is bound to an object has it as `this`. -/
structure Function where
  decl : FunctionDecl
  closure : Ref
  this : Option Value

/-- The methods of built-in values. -/
inductive Method where
  | str | clone | len | add | pop | join | contains | upper | lower | split
  deriving DecidableEq, Repr

/-- A function that is not written in the script. -/
inductive Native where
  | print | input | typeof | str | len | range
  | method (method : Method) (receiver : Value)
  | host (name : String) (arity : Option Nat) (keeps : Value) (run : HostFunction)

/-- What a function holds that is not written in the script: the receiver of a method, or what the
    host keeps in it. -/
def Native.held? : Native → Option Value
  | .method _ receiver => some receiver
  | .host _ _ keeps _ => some keeps
  | _ => none

/-- A class of objects. The one of object literals and host libraries is not the script's own. -/
structure Class where
  name : String
  methods : Table Function
  properties : List Param
  /-- Where the types of properties are looked up. -/
  scope : Option Ref
  isUser : Bool

/-- The class of object literals and libraries. -/
def Class.plain : Class := ⟨"Object", ∅, [], none, false⟩

/-- A class that the host makes. -/
def Class.hosted (name : String) (properties : List String) : Class :=
  ⟨name, ∅, properties.map (⟨·, none, default⟩), none, true⟩

inductive Cell where
  | array (items : Array Value)
  | object (classRef : Ref) (fields : Table Value)
  | function (function : Function)
  | native (native : Native)
  | classDef (definition : Class)
  | namespaceDef (name : String) (symbols : List Ref)
  | symbol (identifier : String) (value : Value) (constant : Bool)
  | lease (scope : ScopeId) (parent : Option Ref)

def Value.refs (v : Value) : List Ref := v.ref?.toList

/-- The references of a list of values. -/
def valueRefs (vs : List Value) : List Ref := vs.filterMap Value.ref?

@[simp]
theorem valueRefs_nil : valueRefs [] = [] := rfl

@[simp]
theorem valueRefs_cons (v : Value) (vs : List Value) :
    valueRefs (v :: vs) = v.refs ++ valueRefs vs := by
  cases h : v.ref? <;> simp [valueRefs, Value.refs, h]

@[simp]
theorem valueRefs_append (vs ws : List Value) :
    valueRefs (vs ++ ws) = valueRefs vs ++ valueRefs ws := by
  simp [valueRefs]

def Function.refs (f : Function) : List Ref := f.closure :: (f.this.bind Value.ref?).toList

def Class.refs (c : Class) : List Ref := mapRefs Function.refs c.methods ++ c.scope.toList

namespace Cell

/-- The references that a collection follows. It does not look into functions that are not the
    script's. -/
def links : Cell → List Ref
  | array items => items.foldr (fun v refs => match v.ref? with
      | some r => r :: refs
      | none => refs) []
  | object c fields => c :: mapRefs Value.refs fields
  | function f => f.refs
  | native _ => []
  | classDef c => c.refs
  | namespaceDef _ symbols => symbols
  | symbol _ v _ => v.refs
  | lease _ parent => parent.toList

/-- All references that the cell keeps. -/
def refs : Cell → List Ref
  | native n => (n.held?.bind Value.ref?).toList
  | c => c.links

/-- The cell with nothing in it, where it can be emptied. -/
def emptied : Cell → Cell
  | array _ => array #[]
  | object c _ => object c ∅
  | c => c

end Cell

namespace Method

def text : Method → String
  | str => "str"
  | clone => "clone"
  | len => "len"
  | add => "add"
  | pop => "pop"
  | join => "join"
  | contains => "contains"
  | upper => "upper"
  | lower => "lower"
  | split => "split"

def arity : Method → Nat
  | add | join | contains | split => 1
  | _ => 0

/-- The method of that name that the value has. -/
def of? (receiver : Value) (name : String) : Option Method :=
  match receiver, name with
  | _, "str" => some .str
  | .array _, "clone" => some .clone
  | .object _, "clone" => some .clone
  | .array _, "len" => some .len
  | .string _, "len" => some .len
  | .array _, "add" => some .add
  | .array _, "pop" => some .pop
  | .array _, "join" => some .join
  | .array _, "contains" => some .contains
  | .string _, "contains" => some .contains
  | .string _, "upper" => some .upper
  | .string _, "lower" => some .lower
  | .string _, "split" => some .split
  | _, _ => none

end Method

namespace Native

def name : Native → String
  | print => "print"
  | input => "input"
  | typeof => "typeof"
  | str => "str"
  | len => "len"
  | range => "range"
  | method m _ => m.text
  | host name .. => name

/-- How many arguments it takes, or none where it decides itself. -/
def arity? : Native → Option Nat
  | print | input | range => none
  | typeof | str | len => some 1
  | method m _ => some m.arity
  | host _ arity .. => arity

end Native

end TinyScript
