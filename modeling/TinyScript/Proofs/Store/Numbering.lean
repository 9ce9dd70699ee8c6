/-
  TinyScript.Proofs.Store.Numbering — cells are there to stay until something is freed.

  All identities that are given out are below the next one, and those that were set aside for the
  leases of scopes are taken by leases only (`Numbered`). So neither a new cell nor a lease is put
  in the place of another cell: what is not a lease is the same after a scope was pushed, captured,
  bound in or retired (`SameData`), whatever the scopes are like.
-/

import TinyScript.Proofs.Store.Order

namespace TinyScript

def Cell.isLease : Cell → Bool
  | lease .. => true
  | _ => false

namespace Store

variable {s t u : Store} {r : Ref} {i : ScopeId}

structure Numbered (s : Store) : Prop where
  cellLt : ∀ r c, s.cell? r = some c → r < s.next
  leaseLt : ∀ i r, (s.scope i).lease = some r → r < s.next
  isLease : ∀ i r c, (s.scope i).lease = some r → s.cell? r = some c → c.isLease = true

def SameData (s t : Store) : Prop :=
  ∀ r c, c.isLease = false → (t.cell? r = some c ↔ s.cell? r = some c)

namespace SameData

theorem refl (s : Store) : SameData s s := fun _ _ _ => .rfl

theorem trans (h : SameData s t) (h' : SameData t u) : SameData s u :=
  fun r c hc => (h' r c hc).trans (h r c hc)

theorem of_cells (h : t.cells = s.cells) : SameData s t := by
  intro r c _
  rw [cell?, cell?, h]

end SameData

/-- A lease in the place of a lease, or where there was nothing. -/
theorem sameData_insertCell {c : Cell} (hc : c.isLease = true)
    (hr : ∀ d, s.cell? r = some d → d.isLease = true) : SameData s (s.insertCell r c) := by
  intro x d hd
  rw [cell?_insertCell]
  split
  next hx =>
    subst hx
    constructor
    · intro he
      cases he
      rw [hc] at hd
      cases hd
    · intro he
      rw [hr d he] at hd
      cases hd
  next => rfl

/-! ## Operations -/

theorem changeScope_next (s : Store) (i : ScopeId) (f : Scope → Scope) (added removed : List Ref)
    (h : Exchange (s.scope i).refs (f (s.scope i)).refs added removed) :
    (s.changeScope i f added removed h).next = s.next := by
  unfold changeScope
  split <;> rfl

/-- A scope is as it was, or it is the one that was changed. -/
theorem scope_changeScope_cases (s : Store) (i : ScopeId) (f : Scope → Scope)
    (added removed : List Ref) (h : Exchange (s.scope i).refs (f (s.scope i)).refs added removed)
    (j : ScopeId) :
    (s.changeScope i f added removed h).scope j = s.scope j ∨
      (s.changeScope i f added removed h).scope j = f (s.scope i) := by
  by_cases hi : i < s.scopes.size
  · rw [scope_changeScope s f added removed h hi]
    split
    · exact .inr rfl
    · exact .inl rfl
  · left
    simp only [changeScope, hi, dite_false]

/-- In a store whose leases are in order. -/
theorem Leases.numbered (h : Leases s) : Numbered s where
  cellLt r c hc := h.cellLt r (mem_cells.2 ⟨c, hc⟩)
  leaseLt := h.leaseLt
  isLease i r c hr hc := by
    have hlease := h.isLease i r (liveLease?_eq_some.2 ⟨hr, mem_cells.2 ⟨c, hc⟩⟩)
    cases hc.symm.trans hlease
    rfl

namespace Numbered

theorem fresh (h : Numbered s) : s.cell? s.next = none := by
  cases hc : s.cell? s.next with
  | none => rfl
  | some c => exact absurd (h.cellLt _ c hc) (Nat.lt_irrefl _)

/-- A change of scopes that leaves cells alone. A scope may get another lease. -/
theorem scopes (h : Numbered s) (hcells : t.cells = s.cells) (hnext : s.next ≤ t.next)
    (hleases : ∀ i r, (t.scope i).lease = some r → (∃ j, (s.scope j).lease = some r) ∨
      r < t.next ∧ ∀ c, s.cell? r = some c → c.isLease = true) : Numbered t := by
  have hcell : ∀ r, t.cell? r = s.cell? r := fun r => by rw [cell?, cell?, hcells]
  refine ⟨fun r c hc => ?_, fun i r hr => ?_, fun i r c hr hc => ?_⟩
  · rw [hcell] at hc
    exact Nat.lt_of_lt_of_le (h.cellLt r c hc) hnext
  · rcases hleases i r hr with ⟨j, hj⟩ | ⟨hlt, _⟩
    · exact Nat.lt_of_lt_of_le (h.leaseLt j r hj) hnext
    · exact hlt
  · rw [hcell] at hc
    rcases hleases i r hr with ⟨j, hj⟩ | ⟨_, hlease⟩
    · exact h.isLease j r c hj hc
    · exact hlease c hc

theorem changeScope (h : Numbered s) (i : ScopeId) {f : Scope → Scope} {added removed : List Ref}
    (hx : Exchange (s.scope i).refs (f (s.scope i)).refs added removed)
    (hf : ∀ r, (f (s.scope i)).lease = some r → (∃ j, (s.scope j).lease = some r) ∨
      r < s.next ∧ ∀ c, s.cell? r = some c → c.isLease = true) :
    Numbered (s.changeScope i f added removed hx) := by
  have hnext := changeScope_next s i f added removed hx
  refine h.scopes (changeScope_cells ..) (Nat.le_of_eq hnext.symm) fun j r hr => ?_
  rw [hnext]
  rcases scope_changeScope_cases s i f added removed hx j with he | he
  · exact .inl ⟨j, he ▸ hr⟩
  · exact hf r (he ▸ hr)

theorem markScope (h : Numbered s) (i : ScopeId) {f : Scope → Scope}
    (hrefs : ∀ scope, (f scope).refs = scope.refs)
    (hf : ∀ r, (f (s.scope i)).lease = some r → (∃ j, (s.scope j).lease = some r) ∨
      r < s.next ∧ ∀ c, s.cell? r = some c → c.isLease = true) : Numbered (s.markScope i f hrefs) :=
  h.changeScope i _ hf

theorem push (h : Numbered s) (parent : ScopeId) (kind : ScopeKind) :
    Numbered (s.push parent kind).2 := by
  have hnew : ∀ r, (Scope.fresh (some parent) kind s.next).lease = some r →
      r < s.next + 1 ∧ ∀ c, s.cell? r = some c → c.isLease = true := by
    intro r hr
    cases hr
    exact ⟨Nat.lt_succ_self _, fun c hc => by rw [h.fresh] at hc; cases hc⟩
  unfold Store.push
  dsimp only
  split
  next i free _ =>
    have hnext : (s.reserve.setScope i (.fresh (some parent) kind s.next)).next = s.next + 1 :=
      changeScope_next s.reserve ..
    refine h.scopes (changeScope_cells ..) (hnext ▸ Nat.le_succ _) fun j r hr => ?_
    rcases scope_changeScope_cases s.reserve i (fun _ => .fresh (some parent) kind s.next) _ _
      (.replace _ _) j with he | he
    · exact .inl ⟨j, (congrArg Scope.lease he).symm.trans hr⟩
    · exact .inr (hnext ▸ hnew r ((congrArg Scope.lease he).symm.trans hr))
  next =>
    refine h.scopes rfl (Nat.le_succ _) fun j r hr => ?_
    rw [scope_addScope] at hr
    split at hr
    · exact .inr (hnew r hr)
    · exact .inl ⟨j, hr⟩

theorem alloc (h : Numbered s) (c : Cell) : Numbered (s.alloc c).2 := by
  refine ⟨fun r d hd => ?_, fun i r hr => Nat.lt_succ_of_lt (h.leaseLt i r hr),
    fun i r d hr hd => ?_⟩
  · rw [cell?_alloc] at hd
    split at hd
    next hn => exact hn ▸ Nat.lt_succ_self _
    next => exact Nat.lt_succ_of_lt (h.cellLt r d hd)
  · rw [cell?_alloc, if_neg (Nat.ne_of_lt (h.leaseLt i r hr))] at hd
    exact h.isLease i r d hr hd

/-- A new cell takes the place of no other. -/
theorem alloc_keeps (h : Numbered s) (c : Cell) {d : Cell} (hr : s.cell? r = some d) :
    (s.alloc c).2.cell? r = some d := by
  rw [cell?_alloc, if_neg (Nat.ne_of_lt (h.cellLt r d hr)), hr]

theorem insertLease (h : Numbered s) (hr : (s.scope i).lease = some r) (k : ScopeId)
    (above : Option Ref) : Numbered (s.insertCell r (.lease k above)) := by
  refine ⟨fun x c hc => ?_, h.leaseLt, fun j x c hx hc => ?_⟩
  · rw [cell?_insertCell] at hc
    split at hc
    next he => exact he ▸ h.leaseLt i r hr
    next => exact h.cellLt x c hc
  · rw [cell?_insertCell] at hc
    split at hc
    · cases hc
      rfl
    · exact h.isLease j x c hx hc

theorem newLease (h : Numbered s) (i : ScopeId) (above : Option Ref) :
    Numbered (s.newLease i above).2 ∧ SameData s (s.newLease i above).2 := by
  unfold Store.newLease
  split
  next r hr => exact ⟨h.insertLease hr i above, sameData_insertCell rfl (h.isLease i r · hr)⟩
  next =>
    have hdata : SameData s (s.alloc (.lease i above)).2 :=
      sameData_insertCell (s := s.reserve) rfl fun d hd => by cases h.fresh.symm.trans hd
    refine ⟨(h.alloc _).markScope i (f := fun scope => { scope with lease := some s.next })
      (fun _ => rfl) fun r hr => ?_, hdata.trans (.of_cells ?_)⟩
    · cases hr
      refine .inr ⟨Nat.lt_succ_self _, fun c hc => ?_⟩
      rw [cell?_alloc, if_pos rfl] at hc
      cases hc
      rfl
    · simp only [Store.markScope, changeScope_cells]

theorem leaseFrom (h : Numbered s) (n : Nat) (i : ScopeId) :
    Numbered (s.leaseFrom n i).2 ∧ SameData s (s.leaseFrom n i).2 := by
  induction n generalizing i with
  | zero =>
    unfold Store.leaseFrom
    split
    · exact ⟨h, .refl s⟩
    · exact h.newLease i none
  | succ n ih =>
    unfold Store.leaseFrom
    split
    · exact ⟨h, .refl s⟩
    · split
      next n' parent he _ =>
        cases he
        obtain ⟨hn, hd⟩ := ih parent
        obtain ⟨hn', hd'⟩ := hn.newLease i (some (s.leaseFrom n parent).1)
        exact ⟨hn', hd.trans hd'⟩
      next => exact h.newLease i none

theorem capture (h : Numbered s) (i : ScopeId) :
    Numbered (s.capture i).2 ∧ SameData s (s.capture i).2 :=
  h.leaseFrom _ i

theorem bind (h : Numbered s) (i : ScopeId) (name : String) (b : Binding) :
    Numbered (s.bind i name b) :=
  h.changeScope i _ fun _ hr => .inl ⟨i, hr⟩

theorem retire (h : Numbered s) (i : ScopeId) : Numbered (s.retire i) := by
  have hmark : Numbered
      (s.markScope i (fun scope => { scope with released := true }) fun _ => rfl) :=
    h.markScope i _ fun _ hr => .inl ⟨i, hr⟩
  exact ⟨hmark.cellLt, hmark.leaseLt, hmark.isLease⟩

theorem changesCell (h : Numbered s) {x : Ref} {f : Cell → Cell} (hc : ChangesCell s t x f)
    (hf : ∀ c, c.isLease = true → (f c).isLease = true) : Numbered t := by
  refine ⟨fun r c hr => ?_, fun i r hr => ?_, fun i r c hr hcell => ?_⟩
  · rw [hc.next]
    obtain ⟨d, hd⟩ := mem_cells.1 (hc.mem_cells_iff.1 (mem_cells.2 ⟨c, hr⟩))
    exact h.cellLt r d hd
  · rw [hc.same.scope] at hr
    exact hc.next ▸ h.leaseLt i r hr
  · rw [hc.same.scope] at hr
    rw [hc.cell?] at hcell
    split at hcell
    next hx =>
      obtain ⟨d, hd, rfl⟩ := Option.map_eq_some_iff.1 hcell
      exact hf d (h.isLease i r d hr (hx ▸ hd))
    next => exact h.isLease i r c hr hcell

/-- A lease is not a container. -/
theorem apply (h : Numbered s) (c : Change) : Numbered (s.apply c) := by
  cases c with
  | bind i name b => exact h.bind i name b
  | setField r name v =>
    refine h.changesCell (changesCell_setField s r name v) fun c hc => ?_
    cases c <;> exact hc
  | setItem r place v =>
    refine h.changesCell (changesCell_setItem s r place v) fun c hc => ?_
    cases c <;> exact hc
  | append r v =>
    refine h.changesCell (changesCell_append s r v) fun c hc => ?_
    cases c <;> exact hc
  | dropLast r =>
    refine h.changesCell (changesCell_dropLast s r) fun c hc => ?_
    cases c <;> exact hc

end Numbered

end Store

end TinyScript
