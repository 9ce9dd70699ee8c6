/-
  TinyScript.Store.Settle — which cells live, and leases.

  A cell lives while something refers to it: a value in use, the binding of a scope, or another
  cell. `settle` takes away every cell that nothing refers to, then those that only such cells
  referred to, and so on. Cells that refer to each other in a circle stay.

  Nothing a script sees tells a cell that is gone from one that will go, so the store is settled
  only where it is asked whether someone still holds a lease.
-/

import TinyScript.Store.Basic

namespace TinyScript

namespace Store

/-- Takes idle cells away that are not held, and those that become idle by it. A cell becomes idle
    only once, so that the idle ones and all cells together are enough rounds. -/
def sweep (held : List Ref) : Nat → List Ref → Store → Store
  | n + 1, r :: todo, s =>
    if s.counts.of r = 0 && s.cells.contains r && !held.contains r then
      let (lost, s) := s.eraseCell r
      sweep held n (lost ++ todo) s
    else sweep held n todo s
  | _, _, s => s

/-- Remembers no more than the idle cells. -/
def tidy (s : Store) : Store :=
  { s with
    idle := s.idle.filter fun r => s.counts.of r = 0 && s.cells.contains r
    mem_idle := by
      intro r hr h
      simpa [h, Std.TreeMap.mem_iff_contains.1 hr] using s.mem_idle hr h }

/-- The store without the cells that nothing lives on, while `held` is held from outside. -/
def settle (s : Store) (held : List Ref) : Store :=
  (sweep (s.globalLease :: held) (s.idle.length + s.cells.size) s.idle s).tidy

/-! ## Leases -/

/-- The scope's lease, if it is there. In a settled store someone holds it. -/
def liveLease? (s : Store) (id : ScopeId) : Option Ref :=
  (s.scope id).lease.filter s.cells.contains

/-- A lease of the scope, below the lease of its parent. It has the identity set aside for it, or a
    new one in a place that holds no scope. -/
def newLease (s : Store) (id : ScopeId) (above : Option Ref) : Ref × Store :=
  match (s.scope id).lease with
  | some lease => (lease, s.insertCell lease (.lease id above))
  | none =>
    let (lease, s) := s.alloc (.lease id above)
    (lease, s.markScope id (fun scope => { scope with lease := some lease }) fun _ => rfl)

/-- The lease of a scope: the one that is there, or a new one with the leases of the scopes above,
    of which there are at most `n`. -/
def leaseFrom (s : Store) (n : Nat) (id : ScopeId) : Ref × Store :=
  match s.liveLease? id with
  | some lease => (lease, s)
  | none =>
    match n, (s.scope id).parent with
    | n + 1, some parent =>
      let (above, s) := s.leaseFrom n parent
      s.newLease id (some above)
    | _, _ => s.newLease id none

/-- A lease that keeps the scope and the scopes above it. In a store that is not settled it may be
    one that nobody held any more. For a scope that runs it is as good as a new one, because the
    leases above it are there too. -/
def capture (s : Store) (id : ScopeId) : Ref × Store := s.leaseFrom s.scopes.size id

end Store

end TinyScript
