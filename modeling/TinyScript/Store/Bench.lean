/-
  TinyScript.Store.Bench — a store worked on step by step.

  A bench names scopes, values and handles and does one operation of the store after the other.
  Named values and handles are held from outside the store. A handle is a lease that is held by
  itself. Scopes may be used in any order, also after they were freed, so the store is settled
  before a scope is captured.
-/

import TinyScript.Number.Layout
import TinyScript.Store.Access
import TinyScript.Store.Collect

namespace TinyScript

/-- How a value is made. Scopes and values are meant by their names on the bench. -/
inductive Recipe where
  | number (value : Float)
  | string (text : String)
  | boolean (value : Bool)
  | nil
  | array (items : List Recipe)
  /-- A function that captures the scope, bound to `this` if there is one. -/
  | closure (scope : String) (this : Option Recipe)
  /-- A class with one method. It and its method capture the scope. -/
  | classIn (scope : String)
  /-- An object of a new class. -/
  | instanceIn (scope : String)
  | object (fields : List (String × Recipe))
  | symbol (value : Recipe)
  | space (members : List (String × Recipe))
  /-- The value of that name itself. -/
  | named (name : String)

instance : Inhabited Recipe := ⟨.nil⟩

inductive Operation where
  | push (parent : String) (kind : ScopeKind) (label : String)
  | declare (scope name : String) (value : Recipe) (constant : Bool)
  | declareVar (scope name : String) (value : Recipe)
  | assign (scope name : String) (value : Recipe)
  | get (scope name : String)
  | keep (scope name label : String)
  | make (label : String) (value : Recipe)
  | append (label : String) (value : Recipe)
  | look (label : String)
  | forget (label : String)
  | capture (scope label : String)
  | drop (label : String)
  | release (scope : String)
  | collect
  | times (count : Nat) (body : List Operation)

instance : Inhabited Operation := ⟨.collect⟩

/-- A value as the bench describes it: an array by its length, all else by a text. -/
inductive Description where
  | array (length : Nat)
  | text (text : String)
  deriving DecidableEq, Repr

inductive Reply where
  | done
  | place (id : ScopeId)
  | stored
  | failed (failure : Failure)
  | binding (found : Option (Description × Bool))
  | value (description : Description)
  deriving DecidableEq, Repr

structure Bench where
  store : Store
  scopes : Table ScopeId
  values : Table Value
  handles : Table Ref

namespace Bench

def empty : Bench := ⟨Store.empty, .ofList [("global", Store.global)], ∅, ∅⟩

/-- What is held from outside the store. -/
def held (b : Bench) : List Ref := valueRefs b.values.values ++ b.handles.values

def scope (b : Bench) (name : String) : ScopeId := (b.scopes.get? name).getD Store.global

/-- A function that does nothing. -/
def idleFunction (closure : Ref) (this : Option Value) : Function :=
  ⟨⟨none, [], none, [], default⟩, closure, this⟩

def sampleClass (closure : Ref) : Class :=
  ⟨"C", .ofList [("m", idleFunction closure none)], [], some closure, true⟩

mutual

/-- Makes a value while `held` is held. -/
def build (b : Bench) (held : List Ref) (s : Store) : Recipe → Value × Store
  | .number x => (.number x, s)
  | .string t => (.string t, s)
  | .boolean v => (.boolean v, s)
  | .nil => (.nil, s)
  | .array items =>
    let (items, s) := b.buildAll held s items
    s.newArray items.toArray
  | .closure scope none =>
    let (closure, s) := (s.settle held).capture (b.scope scope)
    s.newFunction (idleFunction closure none)
  | .closure scope (some this) =>
    let (this, s) := b.build held s this
    let (closure, s) := (s.settle (this.refs ++ held)).capture (b.scope scope)
    s.newFunction (idleFunction closure (some this))
  | .classIn scope =>
    let (closure, s) := (s.settle held).capture (b.scope scope)
    let (r, s) := s.alloc (.classDef (sampleClass closure))
    (.type (.classRef r), s)
  | .instanceIn scope =>
    let (closure, s) := (s.settle held).capture (b.scope scope)
    let (r, s) := s.alloc (.classDef (sampleClass closure))
    s.newObject r ∅
  | .object fields =>
    let (fields, s) := b.buildFields held s fields
    let (r, s) := s.alloc (.classDef .plain)
    s.newObject r (Table.ofList fields)
  | .symbol value =>
    let (value, s) := b.build held s value
    let (r, s) := s.alloc (.symbol "s" value false)
    (.symbol r, s)
  | .space members =>
    let (members, s) := b.buildFields held s members
    let (symbols, s) := members.foldl
      (fun (symbols, s) (name, value) =>
        let (r, s) := s.alloc (.symbol name value false)
        (symbols ++ [r], s))
      (([] : List Ref), s)
    let (r, s) := s.alloc (.namespaceDef "n" symbols)
    (.namespaceRef r, s)
  | .named name => ((b.values.get? name).getD .nil, s)

def buildAll (b : Bench) (held : List Ref) (s : Store) : List Recipe → List Value × Store
  | [] => ([], s)
  | r :: rs =>
    let (v, s) := b.build held s r
    let (vs, s) := b.buildAll (v.refs ++ held) s rs
    (v :: vs, s)

def buildFields (b : Bench) (held : List Ref) (s : Store) :
    List (String × Recipe) → List (String × Value) × Store
  | [] => ([], s)
  | (name, r) :: rs =>
    let (v, s) := b.build held s r
    let (vs, s) := b.buildFields (v.refs ++ held) s rs
    ((name, v) :: vs, s)

end

def describe (s : Store) : Value → Description
  | .number x => .text (Number.scriptText x)
  | .string t => .text ("'" ++ t ++ "'")
  | .boolean v => .text (toString v)
  | .nil => .text "nil"
  | .array r => .array (s.items r).size
  | v => .text (s.shownType v)

/-- Makes a value and puts it into the store by `use`. -/
def storeBy (b : Bench) (value : Recipe) (use : Store → Value → Except Failure Change) :
    Bench × Reply :=
  let (v, s) := b.build b.held b.store value
  match use s v with
  | .ok c => ({ b with store := s.apply c }, .stored)
  | .error f => ({ b with store := s }, .failed f)

mutual

def perform (b : Bench) : Operation → Bench × Reply
  | .push parent kind label =>
    let (id, s) := b.store.push (b.scope parent) kind
    ({ b with store := s, scopes := b.scopes.put label id }, .place id)
  | .declare scope name value constant =>
    b.storeBy value fun s v => s.declare (b.scope scope) name v constant
  | .declareVar scope name value => b.storeBy value fun s v => s.declareVar (b.scope scope) name v
  | .assign scope name value => b.storeBy value fun s v => s.assign (b.scope scope) name v
  | .get scope name =>
    let found := (b.store.binding? (b.scope scope) name).map fun binding =>
      (describe b.store binding.value, binding.constant)
    (b, .binding found)
  | .keep scope name label =>
    match b.store.lookup? (b.scope scope) name with
    | some v => ({ b with values := b.values.put label v }, .done)
    | none => (b, .done)
  | .make label value =>
    let (v, s) := b.build b.held b.store value
    ({ b with store := s, values := b.values.put label v }, .done)
  | .append label value =>
    let (v, s) := b.build b.held b.store value
    match b.values.get? label with
    | some (.array r) => ({ b with store := s.append r v }, .done)
    | _ => ({ b with store := s }, .done)
  | .look label => (b, .value (describe b.store ((b.values.get? label).getD .nil)))
  | .forget label => ({ b with values := b.values.drop label }, .done)
  | .capture scope label =>
    let id := b.scope scope
    let (lease, s) := (b.store.settle b.held).capture id
    ({ b with store := s, handles := b.handles.put label lease }, .place id)
  | .drop label => ({ b with handles := b.handles.drop label }, .done)
  | .release scope => ({ b with store := b.store.release b.held (b.scope scope) }, .done)
  | .collect => ({ b with store := b.store.collect b.held }, .done)
  | .times count body => (Nat.repeat (fun (b, _) => b.performAll body) count (b, .done))

/-- Does the operations in order and gives the last reply. -/
def performAll (b : Bench) : List Operation → Bench × Reply
  | [] => (b, .done)
  | [op] => b.perform op
  | op :: ops => (b.perform op).1.performAll ops

end

/-- Does the operations in order, each with its reply and the number of scopes after it. -/
def run (b : Bench) : List Operation → List (Reply × Nat)
  | [] => []
  | op :: ops =>
    let (b, reply) := b.perform op
    (reply, b.store.liveCount) :: b.run ops

end Bench

end TinyScript
