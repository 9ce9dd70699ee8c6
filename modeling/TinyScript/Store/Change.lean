/-
  TinyScript.Store.Change — what a script changes in the store.

  Whether something may be changed is decided by looking at the store; the change that comes out of
  it cannot fail any more.
-/

import TinyScript.Store.Basic

namespace TinyScript

inductive Change where
  | bind (scope : ScopeId) (name : String) (binding : Binding)
  | setField (object : Ref) (name : String) (value : Value)
  | setItem (array : Ref) (place : Nat) (value : Value)
  /-- Adds an element behind the last one. -/
  | append (array : Ref) (value : Value)
  /-- Takes the last element away. -/
  | dropLast (array : Ref)
  deriving Repr

namespace Cell

def setField (name : String) (v : Value) : Cell → Cell
  | object c fields => object c (fields.put name v)
  | c => c

def setItem (place : Nat) (v : Value) : Cell → Cell
  | array items => array (items.setIfInBounds place v)
  | c => c

def append (v : Value) : Cell → Cell
  | array items => array (items.push v)
  | c => c

def dropLast : Cell → Cell
  | array items => array items.pop
  | c => c

end Cell

namespace Store

def setField (s : Store) (r : Ref) (name : String) (v : Value) : Store :=
  match h : s.cell? r with
  | some (.object _ fields) =>
    s.changeCell r (·.setField name v) v.refs (entryRefs Value.refs fields name) (by
      intro c hc
      cases h.symm.trans hc
      exact .setField _ _ _ _)
  | _ => s

def setItem (s : Store) (r : Ref) (place : Nat) (v : Value) : Store :=
  match h : s.cell? r with
  | some (.array items) =>
    if hp : place < items.size then
      s.changeCell r (·.setItem place v) v.refs items[place].refs (by
        intro c hc
        cases h.symm.trans hc
        simpa [Cell.setItem, Array.setIfInBounds, hp] using Exchange.setItem hp v)
    else s
  | _ => s

def append (s : Store) (r : Ref) (v : Value) : Store :=
  match h : s.cell? r with
  | some (.array _) =>
    s.changeCell r (·.append v) v.refs [] (by
      intro c hc
      cases h.symm.trans hc
      exact .pushItem _ _)
  | _ => s

def dropLast (s : Store) (r : Ref) : Store :=
  match h : s.cell? r with
  | some (.array items) =>
    s.changeCell r (·.dropLast) [] (valueRefs items.back?.toList) (by
      intro c hc
      cases h.symm.trans hc
      exact .popItem _)
  | _ => s

def apply (s : Store) : Change → Store
  | .bind id name b => s.bind id name b
  | .setField r name v => s.setField r name v
  | .setItem r place v => s.setItem r place v
  | .append r v => s.append r v
  | .dropLast r => s.dropLast r

/-! ## Names -/

/-- Binds a name in the scope itself. A constant of the same scope stays. -/
def declare (s : Store) (id : ScopeId) (name : String) (value : Value) (constant : Bool) :
    Except Failure Change :=
  match (s.scope id).bindings.get? name with
  | some ⟨_, true⟩ => .error (.redeclareConstant name)
  | _ => .ok (.bind id name ⟨value, constant⟩)

/-- The nearest scope that is not a block, or the last one of the chain. -/
def hoistTarget (s : Store) (id : ScopeId) : ScopeId :=
  let chain := s.chain id
  ((chain.find? fun i => (s.scope i).kind ≠ .block).orElse fun _ => chain.getLast?).getD id

/-- Binds a name in the nearest scope that is not a block. -/
def declareVar (s : Store) (id : ScopeId) (name : String) (value : Value) : Except Failure Change :=
  s.declare (s.hoistTarget id) name value false

/-- Gives a new value to the nearest binding of a name. -/
def assign (s : Store) (id : ScopeId) (name : String) (value : Value) : Except Failure Change :=
  match s.binder? id name with
  | none => .error (.undefinedName name)
  | some i =>
    match (s.scope i).bindings.get? name with
    | some ⟨_, true⟩ => .error (.assignToConstant name)
    | _ => .ok (.bind i name ⟨value, false⟩)

end Store

end TinyScript
