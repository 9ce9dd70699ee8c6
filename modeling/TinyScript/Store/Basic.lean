/-
  TinyScript.Store.Basic — scopes and cells.

  A name is looked up along the chain of scopes, and the nearest scope that binds it decides.
  Places of freed scopes are used again, the last one freed first. Cells have identities that are
  never used again; the lease of a scope has the one that was set aside for it when the scope was
  pushed. The store knows how often its scopes and cells refer to each cell: every change says which
  references it adds and removes, and has to be right about it.
-/

import TinyScript.Fault
import TinyScript.Store.References

namespace TinyScript

/-- As many retained scopes as start the first collection. -/
def leastLimit : Nat := 64

structure Store where
  scopes : Array Scope
  /-- Places that hold no scope, the last one freed first. -/
  free : List ScopeId
  /-- Released scopes that were kept, in the order they were released. -/
  retained : Array ScopeId
  /-- As many retained scopes as start the next collection. -/
  limit : Nat
  cells : Cells
  /-- The identity of the next new cell. -/
  next : Ref
  /-- The lease of the global scope, which the store itself holds. -/
  globalLease : Ref
  /-- How often scopes and cells refer to each cell. -/
  counts : Counts
  /-- Among these are all cells that neither a scope nor a cell refers to. -/
  idle : List Ref
  counts_of (r : Ref) : counts.of r = (references scopes cells).count r
  mem_idle {r : Ref} : r ∈ cells → counts.of r = 0 → r ∈ idle

namespace Store

/-- The place of the global scope. -/
def global : ScopeId := 0

/-- An empty global scope and no cells. -/
def bare : Store where
  scopes := #[Scope.fresh none .global 0]
  free := []
  retained := #[]
  limit := leastLimit
  cells := ∅
  next := 1
  globalLease := 0
  counts := ∅
  idle := []
  counts_of _ := rfl
  mem_idle h _ := by simp at h

/-- A cell that nothing refers to any more is told among the idle ones. -/
theorem mem_lost {s : Store} {idle added removed : List Ref} {r : Ref}
    (hidle : s.counts.of r = 0 → r ∈ idle)
    (h : ((s.counts.addAll added).removeAll idle removed).1.of r = 0) :
    r ∈ ((s.counts.addAll added).removeAll idle removed).2 := by
  by_cases hr : r ∈ removed
  · exact Counts.mem_removeAll hr h
  · apply Counts.mem_removeAll_of_mem
    apply hidle
    rw [Counts.of_removeAll, Counts.of_addAll, List.count_eq_zero.2 hr] at h
    omega

/-! ## Cells -/

def cell? (s : Store) (r : Ref) : Option Cell := s.cells[r]?

/-- Puts a cell at `r`, in place of the one that may be there. -/
def insertCell (s : Store) (r : Ref) (c : Cell) : Store :=
  let replaced := entryRefs Cell.refs s.cells r
  let after := (s.counts.addAll c.refs).removeAll (r :: s.idle) replaced
  { s with
    cells := s.cells.insert r c
    counts := after.1
    idle := after.2
    counts_of := by
      apply Exchange.recount _ s.counts_of
      exact .changeCells s.scopes (.insertEntry Cell.refs s.cells r c)
    mem_idle := by
      intro t ht h
      apply mem_lost _ h
      intro h0
      by_cases hr : r = t
      · simp [hr]
      · apply List.mem_cons_of_mem
        exact s.mem_idle (by simpa [hr] using ht) h0 }

/-- Sets an identity aside. -/
def reserve (s : Store) : Store := { s with next := s.next + 1 }

/-- A new cell. -/
def alloc (s : Store) (c : Cell) : Ref × Store := (s.next, s.reserve.insertCell s.next c)

/-- Changes the cell at `r`, if there is one. -/
def changeCell (s : Store) (r : Ref) (f : Cell → Cell) (added removed : List Ref)
    (h : ∀ c, s.cell? r = some c → Exchange c.refs (f c).refs added removed) : Store :=
  if hr : r ∈ s.cells then
    let after := (s.counts.addAll added).removeAll s.idle removed
    { s with
      cells := s.cells.modify r f
      counts := after.1
      idle := after.2
      counts_of := by
        apply Exchange.recount _ s.counts_of
        apply Exchange.changeCells
        apply Exchange.changeEntry (k := r)
        · intro i hi
          have hr : ¬ r = i := fun e => hi e.symm
          simp [Std.TreeMap.getElem?_modify, hr]
        · obtain ⟨c, hc⟩ := Option.isSome_iff_exists.1 (Std.TreeMap.isSome_getElem?_iff_mem.2 hr)
          simpa [entryRefs, hc] using h c hc
      mem_idle := by
        intro t ht h
        exact mem_lost (s.mem_idle (Std.TreeMap.mem_modify.1 ht)) h }
  else s

/-- Takes the cell at `r` away. Also gives the cells that lost their last reference by it. -/
def eraseCell (s : Store) (r : Ref) : List Ref × Store :=
  let after := s.counts.removeAll [] (entryRefs Cell.refs s.cells r)
  (after.2,
    { s with
      cells := s.cells.erase r
      counts := after.1
      idle := after.2 ++ s.idle
      counts_of := by
        have h := Exchange.changeCells s.scopes (.eraseEntry Cell.refs s.cells r)
        exact h.recount s.counts_of []
      mem_idle := by
        intro t ht h
        by_cases hm : t ∈ entryRefs Cell.refs s.cells r
        · exact List.mem_append_left _ (Counts.mem_removeAll hm h)
        · apply List.mem_append_right
          apply s.mem_idle (Std.TreeMap.mem_of_mem_erase ht)
          rw [Counts.of_removeAll, List.count_eq_zero.2 hm] at h
          omega })

/-- A cell that was put in is found under its reference, and the others as before. -/
theorem cell?_insertCell (s : Store) (r : Ref) (c : Cell) (t : Ref) :
    (s.insertCell r c).cell? t = if t = r then some c else s.cell? t := by
  by_cases h : t = r
  · simp [insertCell, cell?, h]
  · have hr : ¬ r = t := fun e => h e.symm
    simp [insertCell, cell?, Std.TreeMap.getElem?_insert, h, hr]

theorem cell?_changeCell_self (s : Store) (r : Ref) (f : Cell → Cell) (added removed : List Ref)
    (h : ∀ c, s.cell? r = some c → Exchange c.refs (f c).refs added removed) :
    (s.changeCell r f added removed h).cell? r = (s.cell? r).map f := by
  unfold changeCell
  split
  next => simp [cell?]
  next hr => simp [cell?, Std.TreeMap.getElem?_eq_none hr]

theorem cell?_changeCell_of_ne (s : Store) {r t : Ref} (f : Cell → Cell) (added removed : List Ref)
    (h : ∀ c, s.cell? r = some c → Exchange c.refs (f c).refs added removed) (ht : t ≠ r) :
    (s.changeCell r f added removed h).cell? t = s.cell? t := by
  have hr : ¬ r = t := fun e => ht e.symm
  unfold changeCell
  split
  · simp [cell?, Std.TreeMap.getElem?_modify, hr]
  · rfl

/-- A store with an empty global scope and its lease. -/
def empty : Store := bare.insertCell bare.globalLease (.lease global none)

instance : Inhabited Store := ⟨empty⟩

/-! ## Scopes -/

def scope (s : Store) (id : ScopeId) : Scope := s.scopes.getD id .vacant

/-- Changes the scope at `id`, if there is one. -/
def changeScope (s : Store) (id : ScopeId) (f : Scope → Scope) (added removed : List Ref)
    (h : Exchange (s.scope id).refs (f (s.scope id)).refs added removed) : Store :=
  if hid : id < s.scopes.size then
    let after := (s.counts.addAll added).removeAll s.idle removed
    { s with
      scopes := s.scopes.modify id f
      counts := after.1
      idle := after.2
      counts_of := by
        apply Exchange.recount _ s.counts_of
        apply Exchange.modifyScope hid
        simpa [scope, Array.getD, hid] using h
      mem_idle := fun ht h => mem_lost (s.mem_idle ht) h }
  else s

@[simp]
theorem changeScope_cells (s : Store) (id : ScopeId) (f : Scope → Scope) (added removed : List Ref)
    (h : Exchange (s.scope id).refs (f (s.scope id)).refs added removed) :
    (s.changeScope id f added removed h).cells = s.cells := by
  unfold changeScope
  split <;> rfl

@[simp]
theorem changeScope_size (s : Store) (id : ScopeId) (f : Scope → Scope) (added removed : List Ref)
    (h : Exchange (s.scope id).refs (f (s.scope id)).refs added removed) :
    (s.changeScope id f added removed h).scopes.size = s.scopes.size := by
  unfold changeScope
  split <;> simp

theorem scope_changeScope_self (s : Store) {id : ScopeId} (f : Scope → Scope)
    (added removed : List Ref) (h : Exchange (s.scope id).refs (f (s.scope id)).refs added removed)
    (hid : id < s.scopes.size) :
    (s.changeScope id f added removed h).scope id = f (s.scope id) := by
  simp [changeScope, scope, Array.getD, hid, Array.getElem_modify]

theorem scope_changeScope_of_ne (s : Store) {id other : ScopeId} (f : Scope → Scope)
    (added removed : List Ref) (h : Exchange (s.scope id).refs (f (s.scope id)).refs added removed)
    (hne : other ≠ id) : (s.changeScope id f added removed h).scope other = s.scope other := by
  have hi : ¬ id = other := fun e => hne e.symm
  unfold changeScope
  split
  · simp [scope, Array.getD, Array.getElem_modify, hi]
  · rfl

/-- Changes the scope at `id`, but none of its bindings. -/
def markScope (s : Store) (id : ScopeId) (f : Scope → Scope)
    (h : ∀ scope, (f scope).refs = scope.refs) : Store :=
  s.changeScope id f [] [] (by rw [h]; exact .refl _)

/-- Puts a scope in the place of another. -/
def setScope (s : Store) (id : ScopeId) (scope : Scope) : Store :=
  s.changeScope id (fun _ => scope) scope.refs (s.scope id).refs (.replace _ _)

/-- A scope without bindings in a place of its own. -/
def addScope (s : Store) (scope : Scope) (h : scope.refs = []) : Store :=
  { s with
    scopes := s.scopes.push scope
    counts_of := by
      intro r
      have := Exchange.pushScope s.scopes s.cells h r
      rw [s.counts_of]
      simpa using this.symm }

/-- Binds a name in a scope, whatever was bound to it. -/
def bind (s : Store) (id : ScopeId) (name : String) (b : Binding) : Store :=
  s.changeScope id (·.bind name b) b.value.refs ((s.scope id).refsOf name)
    ((s.scope id).exchange_bind name b)

/-- Scopes that are open or retained. -/
def liveCount (s : Store) : Nat := s.scopes.size - s.free.length

/-- A new scope under `parent`, with an identity for its lease. -/
def push (s : Store) (parent : ScopeId) (kind : ScopeKind) : ScopeId × Store :=
  let new := Scope.fresh (some parent) kind s.next
  let s := s.reserve
  match s.free with
  | id :: free => (id, { s.setScope id new with free := free })
  | [] => (s.scopes.size, s.addScope new (Scope.refs_fresh _ _ _))

/-- The scope, its parent, and so on, over at most `n` scopes. -/
def chainFrom (s : Store) : Nat → Option ScopeId → List ScopeId
  | n + 1, some id => id :: s.chainFrom n (s.scope id).parent
  | _, _ => []

/-- The scopes in which names are looked up from `id`, the nearest first. -/
def chain (s : Store) (id : ScopeId) : List ScopeId := s.chainFrom s.scopes.size (some id)

/-- The nearest scope along the chain that binds the name. -/
def binder? (s : Store) (id : ScopeId) (name : String) : Option ScopeId :=
  (s.chain id).find? fun i => (s.scope i).bindings.has name

def binding? (s : Store) (id : ScopeId) (name : String) : Option Binding :=
  (s.chain id).findSome? fun i => (s.scope i).bindings.get? name

def lookup? (s : Store) (id : ScopeId) (name : String) : Option Value :=
  (s.binding? id name).map (·.value)

end Store

end TinyScript
