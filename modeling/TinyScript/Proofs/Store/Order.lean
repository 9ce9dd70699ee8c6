/-
  TinyScript.Proofs.Store.Order — places, leases and chains in good order.

  A place of the store is free, retained or open, and never two of these (`Places`). A lease that
  is there is the lease of the scope that names it, below the lease of that scope's parent
  (`Leases`). A scope is in use while it is open or its lease is there, and from every scope in use
  the parents lead to the global scope (`Rooted`). All this together, and that scopes above one in
  use are in use, is `Orderly`.

  Everything that only works on cells and bindings keeps all of this (`SameFrame`); what it takes
  to free, retain, push and lease scopes is said in the modules that prove it.
-/

import Mathlib.Data.Finset.Card
import Mathlib.Data.Finset.Range
import TinyScript.Proofs.Store.Effects

namespace TinyScript.Store

variable {s t : Store} {r : Ref} {i j p : ScopeId} {chain : List ScopeId}

/-- A scope that is open, or whose lease is there. -/
def InUse (s : Store) (i : ScopeId) : Prop :=
  (s.scope i).released = false ∨ (s.liveLease? i).isSome

instance (s : Store) (i : ScopeId) : Decidable (s.InUse i) := inferInstanceAs (Decidable (_ ∨ _))

def leaseAbove (s : Store) (i : ScopeId) : Option Ref :=
  (s.scope i).parent.bind fun p => (s.scope p).lease

theorem leaseAbove_congr (hi : t.scope i = s.scope i)
    (hp : ∀ p, (t.scope i).parent = some p → t.scope p = s.scope p) :
    t.leaseAbove i = s.leaseAbove i := by
  unfold leaseAbove
  rw [hi] at hp ⊢
  cases h : (s.scope i).parent with
  | none => rfl
  | some p => rw [Option.bind_some, Option.bind_some, hp p h]

structure Places (s : Store) : Prop where
  freeNodup : s.free.Nodup
  freeLt : ∀ i ∈ s.free, i < s.scopes.size
  retainedNodup : s.retained.toList.Nodup
  mem_retained : ∀ i, i ∈ s.retained ↔
    i < s.scopes.size ∧ (s.scope i).released = true ∧ i ∉ s.free
  vacant : ∀ i ∈ s.free, s.scope i = vacated (s.scope i)
  leased : ∀ i < s.scopes.size, i ∉ s.free → (s.scope i).lease.isSome
  /-- Only the global scope has no parent. -/
  top : ∀ i < s.scopes.size, i ∉ s.free → ((s.scope i).parent = none ↔ i = global)
  globalLt : global < s.scopes.size
  globalStays : global ∉ s.free

structure Limits (s : Store) : Prop where
  least : leastLimit ≤ s.limit
  below : s.retained.size < s.limit

structure Leases (s : Store) : Prop where
  isLease : ∀ i r, s.liveLease? i = some r → s.cell? r = some (.lease i (s.leaseAbove i))
  above : ∀ i p, (s.liveLease? i).isSome → (s.scope i).parent = some p → (s.liveLease? p).isSome
  distinct : ∀ i j r, (s.scope i).lease = some r → (s.scope j).lease = some r → i = j
  leaseLt : ∀ i r, (s.scope i).lease = some r → r < s.next
  cellLt : ∀ r ∈ s.cells, r < s.next
  globalLease : s.liveLease? global = some s.globalLease

/-- Of places that differ there are no more than there are places. -/
theorem length_le_size {places : List ScopeId} (hn : places.Nodup)
    (hlt : ∀ j ∈ places, j < s.scopes.size) : places.length ≤ s.scopes.size := by
  have hsub : places.toFinset ⊆ Finset.range s.scopes.size := by
    intro j hj
    exact Finset.mem_range.2 (hlt j (List.mem_toFinset.1 hj))
  have hcard := Finset.card_le_card hsub
  rwa [Finset.card_range, List.toFinset_card_of_nodup hn] at hcard

/-! ## Chains -/

inductive Chain (s : Store) : ScopeId → List ScopeId → Prop
  | top {i : ScopeId} : (s.scope i).parent = none → Chain s i [i]
  | under {i p : ScopeId} {chain : List ScopeId} :
    (s.scope i).parent = some p → Chain s p chain → Chain s i (i :: chain)

namespace Chain

theorem head_mem (h : Chain s i chain) : i ∈ chain := by cases h <;> simp

/-- There is only one chain. -/
theorem unique {other : List ScopeId} (h : Chain s i chain) (k : Chain s i other) :
    chain = other := by
  induction h generalizing other with
  | top hp =>
    cases k with
    | top => rfl
    | under hq => simp [hp] at hq
  | under hp _ ih =>
    cases k with
    | top hq => simp [hp] at hq
    | under hq k =>
      cases hp.symm.trans hq
      rw [ih k]

/-- Below a scope of a chain the chain is its own. -/
theorem of_mem (h : Chain s i chain) (hj : j ∈ chain) :
    ∃ below rest, chain = below ++ rest ∧ Chain s j rest := by
  induction h with
  | top hp =>
    cases List.mem_singleton.1 hj
    exact ⟨[], _, rfl, .top hp⟩
  | under hp hc ih =>
    rcases List.mem_cons.1 hj with rfl | hj
    · exact ⟨[], _, rfl, .under hp hc⟩
    · obtain ⟨below, rest, rfl, hr⟩ := ih hj
      exact ⟨_ :: below, rest, rfl, hr⟩

theorem parent_mem (h : Chain s i chain) (hj : j ∈ chain) (hp : (s.scope j).parent = some p) :
    p ∈ chain := by
  obtain ⟨below, rest, rfl, hr⟩ := h.of_mem hj
  cases hr with
  | top ht => simp [hp] at ht
  | under hu hc =>
    cases hp.symm.trans hu
    exact List.mem_append_right _ (List.mem_cons_of_mem _ hc.head_mem)

/-- No scope is above itself. -/
theorem nodup (h : Chain s i chain) : chain.Nodup := by
  induction h with
  | top => simp
  | under hp hc ih =>
    refine List.nodup_cons.2 ⟨fun hm => ?_, ih⟩
    obtain ⟨below, rest, he, hr⟩ := hc.of_mem hm
    have hl := congrArg List.length (hr.unique (.under hp hc))
    simp only [he, List.length_cons, List.length_append] at hl
    omega

/-- What holds of a scope and passes on to parents holds along its chain. -/
theorem forall_mem {P : ScopeId → Prop} (h : Chain s i chain)
    (hP : ∀ i p, P i → (s.scope i).parent = some p → P p) (hi : P i) : ∀ j ∈ chain, P j := by
  induction h with
  | top => simpa using hi
  | under hp _ ih =>
    intro j hj
    rcases List.mem_cons.1 hj with rfl | hj
    · exact hi
    · exact ih (hP _ _ hi hp) j hj

/-- The last scope of a chain has no parent. -/
theorem getLast?_parent (h : Chain s i chain) :
    ∃ top, chain.getLast? = some top ∧ (s.scope top).parent = none := by
  induction h with
  | top hp => exact ⟨_, rfl, hp⟩
  | @under _ _ chain _ hc ih =>
    obtain ⟨top, hl, ht⟩ := ih
    refine ⟨top, ?_, ht⟩
    cases chain with
    | nil => cases hc
    | cons => simpa using hl

theorem chainFrom_eq (h : Chain s i chain) {n : Nat} (hn : chain.length ≤ n) :
    s.chainFrom n (some i) = chain := by
  induction h generalizing n with
  | top hp =>
    cases n with
    | zero => simp at hn
    | succ n => cases n <;> simp [chainFrom, hp]
  | under hp _ ih =>
    cases n with
    | zero => simp at hn
    | succ n =>
      rw [chainFrom, hp, ih (by simpa using hn)]

/-- The scopes that a lookup goes through are the whole chain. -/
theorem chain_eq (h : Chain s i chain) (hlt : ∀ j ∈ chain, j < s.scopes.size) :
    s.chain i = chain :=
  h.chainFrom_eq (length_le_size h.nodup hlt)

/-- A chain stays as long as the parents in it do. -/
theorem congr (h : Chain s i chain) (hp : ∀ j ∈ chain, (t.scope j).parent = (s.scope j).parent) :
    Chain t i chain := by
  induction h with
  | top ht => exact .top ((hp _ (by simp)).trans ht)
  | under hu _ ih =>
    exact .under ((hp _ (by simp)).trans hu) (ih fun j hj => hp j (List.mem_cons_of_mem _ hj))

end Chain

/-- The parents of scopes in use come to an end. -/
def Rooted (s : Store) : Prop := ∀ i, s.InUse i → ∃ chain, Chain s i chain

/-! ## Small facts -/

theorem Places.lt_of_open (h : Places s) (ho : (s.scope i).released = false) :
    i < s.scopes.size ∧ i ∉ s.free := by
  refine ⟨?_, fun hf => ?_⟩
  · by_contra hlt
    rw [scope_of_ge (Nat.not_lt.1 hlt)] at ho
    cases ho
  · rw [h.vacant i hf] at ho
    cases ho

theorem Places.not_retained (h : Places s) (ho : (s.scope i).released = false) :
    i ∉ s.retained := by
  intro hr
  rw [((h.mem_retained i).1 hr).2.1] at ho
  cases ho

theorem Places.lt_of_lease (h : Places s) (hl : (s.scope i).lease = some r) :
    i < s.scopes.size ∧ i ∉ s.free := by
  refine ⟨?_, fun hf => ?_⟩
  · by_contra hlt
    rw [scope_of_ge (Nat.not_lt.1 hlt)] at hl
    cases hl
  · rw [h.vacant i hf] at hl
    cases hl

/-- A scope in use has a place of its own. -/
theorem Places.lt_of_inUse (h : Places s) (hu : s.InUse i) : i < s.scopes.size ∧ i ∉ s.free := by
  rcases hu with ho | hl
  · exact h.lt_of_open ho
  · obtain ⟨r, hr, _⟩ := liveLease?_isSome.1 hl
    exact h.lt_of_lease hr

theorem Leases.inUse_global (h : Leases s) : s.InUse global := by
  refine .inr ?_
  rw [h.globalLease]
  rfl

/-- Everything along the chain of a scope in use is in use, if that passes on to parents. -/
theorem Rooted.chain_inUse (h : Rooted s) (hup : ∀ i p, s.InUse i → (s.scope i).parent = some p →
    s.InUse p) (hi : s.InUse i) : ∃ chain, Chain s i chain ∧ ∀ j ∈ chain, s.InUse j := by
  obtain ⟨chain, hc⟩ := h i hi
  exact ⟨chain, hc, hc.forall_mem hup hi⟩

/-- Where fewer scopes are in use, and those are as they were, parents still come to an end. -/
theorem Rooted.of_kept (h : Rooted s) (hk : ∀ i, t.InUse i → s.InUse i ∧ t.scope i = s.scope i)
    (hup : ∀ i p, t.InUse i → (t.scope i).parent = some p → t.InUse p) : Rooted t := by
  intro i hi
  obtain ⟨chain, hc⟩ := h i (hk i hi).1
  have hall : ∀ j ∈ chain, t.InUse j := by
    refine hc.forall_mem (fun j p hj hp => hup j p hj ?_) hi
    rw [(hk j hj).2, hp]
  exact ⟨chain, hc.congr fun j hj => by rw [(hk j (hall j hj)).2]⟩

/-- Places, leases and chains are in order, and what is above a scope in use is in use. -/
structure Orderly (s : Store) : Prop where
  places : Places s
  leases : Leases s
  rooted : Rooted s
  upward : ∀ i p, s.InUse i → (s.scope i).parent = some p → s.InUse p

theorem Orderly.chain_inUse (h : Orderly s) (hi : s.InUse i) :
    ∃ chain, Chain s i chain ∧ ∀ j ∈ chain, s.InUse j :=
  h.rooted.chain_inUse h.upward hi

theorem Orderly.chain_eq (h : Orderly s) (hi : s.InUse i) : Chain s i (s.chain i) := by
  obtain ⟨chain, hc, hu⟩ := h.chain_inUse hi
  rwa [hc.chain_eq fun j hj => (h.places.lt_of_inUse (hu j hj)).1]

/-! ## What only works on cells and bindings -/

/-- The two stores have the same scopes, up to what is bound in them, and the same leases. -/
structure SameFrame (s t : Store) : Prop where
  size : t.scopes.size = s.scopes.size
  free : t.free = s.free
  retained : t.retained = s.retained
  limit : t.limit = s.limit
  globalLease : t.globalLease = s.globalLease
  parent : ∀ i, (t.scope i).parent = (s.scope i).parent
  lease : ∀ i, (t.scope i).lease = (s.scope i).lease
  released : ∀ i, (t.scope i).released = (s.scope i).released
  freed : ∀ i ∈ s.free, t.scope i = s.scope i
  leaseCell : ∀ i r, (s.scope i).lease = some r → t.cell? r = s.cell? r
  next : s.next ≤ t.next
  cellLt : ∀ r ∈ t.cells, r ∈ s.cells ∨ r < t.next

namespace SameFrame

theorem refl (s : Store) : SameFrame s s :=
  ⟨rfl, rfl, rfl, rfl, rfl, fun _ => rfl, fun _ => rfl, fun _ => rfl, fun _ _ => rfl,
    fun _ _ _ => rfl, Nat.le_refl _, fun _ h => .inl h⟩

theorem liveLease? (h : SameFrame s t) (i : ScopeId) : t.liveLease? i = s.liveLease? i := by
  ext r
  rw [liveLease?_eq_some, liveLease?_eq_some, h.lease]
  refine and_congr_right fun hr => ?_
  rw [mem_cells, mem_cells, h.leaseCell i r hr]

theorem leaseAbove (h : SameFrame s t) (i : ScopeId) : t.leaseAbove i = s.leaseAbove i := by
  simp only [Store.leaseAbove, h.parent, h.lease]

theorem inUse (h : SameFrame s t) (i : ScopeId) : t.InUse i ↔ s.InUse i := by
  simp only [InUse, h.released, h.liveLease?]

theorem places (h : SameFrame s t) (hs : Places s) : Places t where
  freeNodup := h.free ▸ hs.freeNodup
  freeLt := by rw [h.free, h.size]; exact hs.freeLt
  retainedNodup := h.retained ▸ hs.retainedNodup
  mem_retained i := by rw [h.retained, h.size, h.free, h.released]; exact hs.mem_retained i
  vacant i hi := by
    rw [h.free] at hi
    rw [h.freed i hi]
    exact hs.vacant i hi
  leased i := by rw [h.size, h.free, h.lease]; exact hs.leased i
  top i := by rw [h.size, h.free, h.parent]; exact hs.top i
  globalLt := h.size ▸ hs.globalLt
  globalStays := h.free ▸ hs.globalStays

theorem limits (h : SameFrame s t) (hs : Limits s) : Limits t := by
  refine ⟨h.limit ▸ hs.least, ?_⟩
  rw [h.retained, h.limit]
  exact hs.below

theorem leases (h : SameFrame s t) (hs : Leases s) : Leases t where
  isLease i r hr := by
    rw [h.liveLease?] at hr
    rw [h.leaseAbove, h.leaseCell i r (liveLease?_eq_some.1 hr).1]
    exact hs.isLease i r hr
  above i p := by rw [h.liveLease?, h.liveLease?, h.parent]; exact hs.above i p
  distinct i j r := by rw [h.lease, h.lease]; exact hs.distinct i j r
  leaseLt i r hr := by
    rw [h.lease] at hr
    exact Nat.lt_of_lt_of_le (hs.leaseLt i r hr) h.next
  cellLt r hr := by
    rcases h.cellLt r hr with hr | hr
    · exact Nat.lt_of_lt_of_le (hs.cellLt r hr) h.next
    · exact hr
  globalLease := by rw [h.liveLease?, h.globalLease]; exact hs.globalLease

theorem chain_of (h : SameFrame s t) (hc : Chain s i chain) : Chain t i chain :=
  hc.congr fun j _ => h.parent j

theorem rooted (h : SameFrame s t) (hs : Rooted s) : Rooted t := by
  intro i hi
  obtain ⟨chain, hc⟩ := hs i ((h.inUse i).1 hi)
  exact ⟨chain, h.chain_of hc⟩

theorem orderly (h : SameFrame s t) (hs : Orderly s) : Orderly t := by
  refine ⟨h.places hs.places, h.leases hs.leases, h.rooted hs.rooted, fun i p hi hp => ?_⟩
  rw [h.parent] at hp
  exact (h.inUse p).2 (hs.upward i p ((h.inUse i).1 hi) hp)

end SameFrame

theorem sameFrame_alloc (h : Leases s) (c : Cell) : SameFrame s (s.alloc c).2 where
  size := rfl
  free := rfl
  retained := rfl
  limit := rfl
  globalLease := rfl
  parent _ := rfl
  lease _ := rfl
  released _ := rfl
  freed _ _ := rfl
  leaseCell i r hr := by
    rw [cell?_alloc, if_neg (Nat.ne_of_lt (h.leaseLt i r hr))]
  next := Nat.le_succ _
  cellLt r hr := by
    obtain ⟨d, hd⟩ := mem_cells.1 hr
    rw [cell?_alloc] at hd
    split at hd
    next hn =>
      right
      rw [hn]
      exact Nat.lt_succ_self _
    next => exact .inl (mem_cells.2 ⟨d, hd⟩)

/-- Leases are not containers, so a change of containers leaves them alone. -/
theorem ChangesCell.sameFrame {x : Ref} {f : Cell → Cell} (h : ChangesCell s t x f) (hs : Leases s)
    (hf : ∀ i above, f (.lease i above) = .lease i above) : SameFrame s t where
  size := h.same.size
  free := h.same.free
  retained := h.same.retained
  limit := h.same.limit
  globalLease := h.same.globalLease
  parent i := by rw [h.same.scope]
  lease i := by rw [h.same.scope]
  released i := by rw [h.same.scope]
  freed i _ := h.same.scope i
  leaseCell i r hr := by
    rw [h.cell?]
    split
    next hx =>
      subst hx
      cases hc : s.cell? r with
      | none => rfl
      | some c =>
        have := hs.isLease i r (liveLease?_eq_some.2 ⟨hr, mem_cells.2 ⟨c, hc⟩⟩)
        cases hc.symm.trans this
        exact congrArg some (hf _ _)
    next => rfl
  next := Nat.le_of_eq h.next.symm
  cellLt r hr := by
    left
    obtain ⟨c, hc⟩ := mem_cells.1 hr
    rw [h.cell?] at hc
    split at hc
    next hx =>
      obtain ⟨d, hd, _⟩ := Option.map_eq_some_iff.1 hc
      exact mem_cells.2 ⟨d, hx ▸ hd⟩
    next => exact mem_cells.2 ⟨c, hc⟩

theorem sameFrame_bind (name : String) (b : Binding) (hi : i < s.scopes.size) (hf : i ∉ s.free) :
    SameFrame s (s.bind i name b) := by
  have h := changesScope_bind s name b hi
  refine ⟨h.size, h.free, h.retained, h.limit, h.globalLease, ?_, ?_, ?_, ?_, ?_,
    Nat.le_of_eq h.next.symm, ?_⟩
  · intro j; rw [h.scope]; split <;> simp_all [Scope.bind]
  · intro j; rw [h.scope]; split <;> simp_all [Scope.bind]
  · intro j; rw [h.scope]; split <;> simp_all [Scope.bind]
  · intro j hj
    rw [h.scope, if_neg]
    intro e
    exact hf (e ▸ hj)
  · intro j r _
    exact h.cell? r
  · intro r hr
    rw [h.cells] at hr
    exact .inl hr

/-- A change of a container or of a binding in a scope that has its place. -/
theorem sameFrame_apply (hs : Leases s) (c : Change)
    (hc : ∀ i name b, c = .bind i name b → i < s.scopes.size ∧ i ∉ s.free) :
    SameFrame s (s.apply c) := by
  cases c with
  | bind i name b => exact sameFrame_bind name b (hc i name b rfl).1 (hc i name b rfl).2
  | setField x name v => exact (changesCell_setField s x name v).sameFrame hs fun _ _ => rfl
  | setItem x place v => exact (changesCell_setItem s x place v).sameFrame hs fun _ _ => rfl
  | append x v => exact (changesCell_append s x v).sameFrame hs fun _ _ => rfl
  | dropLast x => exact (changesCell_dropLast s x).sameFrame hs fun _ _ => rfl

/-! ## The empty store -/

theorem scope_empty (i : ScopeId) :
    empty.scope i = if i = global then .fresh none .global 0 else .vacant := by
  match i with
  | 0 => rfl
  | i + 1 => rfl

theorem cell?_empty (r : Ref) :
    empty.cell? r = if r = 0 then some (.lease global none) else none :=
  cell?_insertCell bare 0 (.lease global none) r

theorem parent_empty (i : ScopeId) : (empty.scope i).parent = none := by
  rw [scope_empty]
  split <;> rfl

theorem lease_empty (h : (empty.scope i).lease = some r) : i = global ∧ r = 0 := by
  rw [scope_empty] at h
  split at h
  next hi =>
    cases h
    exact ⟨hi, rfl⟩
  next => cases h

theorem mem_cells_empty : r ∈ empty.cells ↔ r = 0 := by
  rw [mem_cells, cell?_empty]
  split <;> simp_all

theorem places_empty : Places empty := by
  refine ⟨List.nodup_nil, fun i hi => ?_, List.nodup_nil, fun i => ?_, fun i hi => ?_,
    fun i hi _ => ?_, fun i hi _ => ?_, by decide, by decide⟩
  · cases hi
  · refine ⟨fun hi => ?_, fun ⟨hlt, hrel, _⟩ => ?_⟩
    · exact absurd hi (Array.not_mem_empty i)
    · have hi : i = global := Nat.lt_one_iff.1 hlt
      rw [scope_empty, if_pos hi] at hrel
      cases hrel
  · cases hi
  · have hi : i = global := Nat.lt_one_iff.1 hi
    rw [scope_empty, if_pos hi]
    rfl
  · rw [parent_empty]
    exact ⟨fun _ => Nat.lt_one_iff.1 hi, fun _ => rfl⟩

theorem leases_empty : Leases empty := by
  refine ⟨fun i r hr => ?_, fun i p _ hp => ?_, fun i j r hi hj => ?_, fun i r hr => ?_,
    fun r hr => ?_, ?_⟩
  · obtain ⟨rfl, rfl⟩ := lease_empty (liveLease?_eq_some.1 hr).1
    rw [cell?_empty, if_pos rfl, leaseAbove, parent_empty]
    rfl
  · rw [parent_empty] at hp
    cases hp
  · rw [(lease_empty hi).1, (lease_empty hj).1]
  · rw [(lease_empty hr).2]
    exact Nat.zero_lt_one
  · rw [mem_cells_empty.1 hr]
    exact Nat.zero_lt_one
  · exact liveLease?_eq_some.2 ⟨rfl, mem_cells_empty.2 rfl⟩

theorem orderly_empty : Orderly empty := by
  refine ⟨places_empty, leases_empty, fun i _ => ⟨[i], .top (parent_empty i)⟩, fun i p _ hp => ?_⟩
  rw [parent_empty] at hp
  cases hp

theorem limits_empty : Limits empty := ⟨Nat.le_refl _, by decide⟩

end TinyScript.Store
