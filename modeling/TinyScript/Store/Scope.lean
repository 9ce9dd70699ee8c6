/-
  TinyScript.Store.Scope — names bound for a part of a run.

  Scopes form chains through their parents.
-/

import TinyScript.Store.Cell

namespace TinyScript

inductive ScopeKind where
  | global | module | function | block
  deriving DecidableEq, Repr

structure Binding where
  value : Value
  constant : Bool
  deriving Repr

structure Scope where
  bindings : Table Binding
  parent : Option ScopeId
  kind : ScopeKind
  /-- The identity of the scope's lease, which counts only while its cell is there. A place that
      holds no scope has none. -/
  lease : Option Ref
  /-- No longer run in: what is left of it is only kept for those who hold its lease. -/
  released : Bool
  deriving Repr

namespace Scope

def fresh (parent : Option ScopeId) (kind : ScopeKind) (lease : Ref) : Scope :=
  ⟨∅, parent, kind, some lease, false⟩

/-- A place that holds no scope. -/
def vacant : Scope := ⟨∅, none, .block, none, true⟩

def refs (s : Scope) : List Ref := mapRefs (·.value.refs) s.bindings

/-- The scope with a name bound. -/
def bind (s : Scope) (name : String) (b : Binding) : Scope :=
  { s with bindings := s.bindings.put name b }

/-- What the scope refers to under a name. -/
def refsOf (s : Scope) (name : String) : List Ref := entryRefs (·.value.refs) s.bindings name

/-- What comes and goes when a name is bound. -/
theorem exchange_bind (s : Scope) (name : String) (b : Binding) :
    Exchange s.refs (s.bind name b).refs b.value.refs (s.refsOf name) :=
  .insertEntry (fun b : Binding => b.value.refs) s.bindings name b

theorem refs_fresh (parent : Option ScopeId) (kind : ScopeKind) (lease : Ref) :
    (fresh parent kind lease).refs = [] := rfl

end Scope

instance : Inhabited Scope := ⟨Scope.vacant⟩

end TinyScript
