/-
  TinyScript.Store.Types — the types of values and what a typing accepts.

  An object of a script's own class has that class as its type. Object literals, libraries and
  namespaces are plain objects. A typing is resolved when it is checked: built-in names stand for
  themselves, and every other name has to be bound to a type there.
-/

import TinyScript.Store.Basic
import TinyScript.Tree.Printer

namespace TinyScript

open TinyScript.Text

/-- Puts a position to a failure. -/
def located {α : Type} (pos : Position) : Except Failure α → Except Fault α
  | .ok a => .ok a
  | .error f => .error (.runtime f pos)

def BuiltinType.accepts : BuiltinType → Value → Bool
  | .any, _ => true
  | .number, .number _ => true
  | .string, .string _ => true
  | .boolean, .boolean _ => true
  | .nil, .nil => true
  | .array, .array _ => true
  | .object, .object _ => true
  | .object, .namespaceRef _ => true
  | .function, .function _ => true
  | .type, .type _ => true
  | .symbol, .symbol _ => true
  | _, _ => false

namespace Store

def class? (s : Store) (r : Ref) : Option Class :=
  match s.cell? r with
  | some (.classDef c) => some c
  | _ => none

/-- The class of an object and its fields. -/
def object? (s : Store) (r : Ref) : Option (Ref × Table Value) :=
  match s.cell? r with
  | some (.object c fields) => some (c, fields)
  | _ => none

/-- The reference to the class of the object at `r`, with the class. -/
def classOf? (s : Store) (r : Ref) : Option (Ref × Class) := do
  let (c, _) ← s.object? r
  let definition ← s.class? c
  return (c, definition)

section

variable {s : Store} {r k : Ref} {c : Class} {fields : Table Value}

theorem class?_eq_some : s.class? r = some c ↔ s.cell? r = some (.classDef c) := by
  unfold class?
  split <;> simp_all

theorem object?_eq_some :
    s.object? r = some (k, fields) ↔ s.cell? r = some (.object k fields) := by
  unfold object?
  split <;> simp_all

theorem classOf?_eq_some : s.classOf? r = some (k, c) ↔
    ∃ fields, s.object? r = some (k, fields) ∧ s.class? k = some c := by
  simp only [classOf?, Option.bind_eq_bind, Option.bind_eq_some_iff, Option.pure_def,
    Option.some.injEq, Prod.mk.injEq, Prod.exists]
  constructor
  · rintro ⟨k, fields, hobject, c, hclass, rfl, rfl⟩
    exact ⟨fields, hobject, hclass⟩
  · rintro ⟨fields, hobject, hclass⟩
    exact ⟨k, fields, hobject, c, hclass, rfl, rfl⟩

end

def typeOf (s : Store) : Value → TypeValue
  | .number _ => .builtin .number
  | .string _ => .builtin .string
  | .boolean _ => .builtin .boolean
  | .nil => .builtin .nil
  | .array _ => .builtin .array
  | .object r =>
    match s.classOf? r with
    | some (c, definition) => if definition.isUser then .classRef c else .builtin .object
    | none => .builtin .object
  | .namespaceRef _ => .builtin .object
  | .function _ => .builtin .function
  | .type _ => .builtin .type
  | .symbol _ => .builtin .symbol

def className (s : Store) (c : Ref) : String := ((s.class? c).map (·.name)).getD ""

/-- The name of a type that a script sees. -/
def typeName (s : Store) : TypeValue → String
  | .builtin t => t.name
  | .classRef c => s.className c

/-- The name of a value's type in messages. -/
def shownType (s : Store) (v : Value) : String :=
  match s.typeOf v with
  | .builtin t => t.shownName
  | .classRef c => s.className c

/-- A class accepts its own objects only. -/
def accepts (s : Store) : TypeValue → Value → Bool
  | .builtin t, v => t.accepts v
  | .classRef c, .object r => (s.object? r).any (·.1 == c)
  | .classRef _, _ => false

/-- The type that a name stands for in a scope. -/
def resolveType (s : Store) (scope : ScopeId) (name : String) : Except Failure TypeValue :=
  match BuiltinType.ofName? name with
  | some t => .ok (.builtin t)
  | none =>
    match s.lookup? scope name with
    | some (.type t) => .ok t
    | some _ => .error (.notAType name)
    | none => .error (.undefinedName name)

/-- Checks a value against a typing whose names are looked up in `scope`. -/
def check (s : Store) (scope : ScopeId) (v : Value) (typing : Typing) (pos : Position) :
    Except Fault Unit := do
  let types ← located typing.pos (typing.names.mapM (s.resolveType scope))
  if types.any (s.accepts · v) then return ()
  else .error (.runtime (.typeMismatch typing.text (s.shownType v)) pos)

/-- As `check`, where there may be no typing. -/
def checkIf (s : Store) (scope : ScopeId) (v : Value) (typing : Option Typing) (pos : Position) :
    Except Fault Unit :=
  match typing with
  | some t => s.check scope v t pos
  | none => .ok ()

end Store

end TinyScript
