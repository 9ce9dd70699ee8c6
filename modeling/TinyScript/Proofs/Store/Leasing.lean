/-
  TinyScript.Proofs.Store.Leasing — what giving out a lease does.

  Who captures a scope gets the lease with the scope's own identity, and from then on every scope
  along the chain has its lease there (`leaseFrom_gives`). Nothing else changes, so leases stay in
  order (`GivesLeases.leases`).
-/

import TinyScript.Proofs.Store.Settling

namespace TinyScript.Store

variable {s t : Store} {r : Ref} {i p : ScopeId} {chain : List ScopeId} {n : Nat}

structure GivesLeases (s t : Store) (chain : List ScopeId) : Prop where
  same : SameScopes s t
  next : t.next = s.next
  cell? : ∀ r, t.cell? r = s.cell? r ∨ s.cell? r = none ∧
    ∃ k ∈ chain, (s.scope k).lease = some r ∧ t.cell? r = some (.lease k (s.leaseAbove k))
  there : ∀ k ∈ chain, (t.liveLease? k).isSome

theorem newLease_eq (h : (s.scope i).lease = some r) (above : Option Ref) :
    s.newLease i above = (r, s.insertCell r (.lease i above)) := by
  simp [newLease, h]

/-- A lease that was not there, put below those that are given out already. -/
theorem GivesLeases.insert {above : Option Ref} (h : GivesLeases s t chain)
    (hr : (s.scope i).lease = some r) (hno : s.liveLease? i = none) (ha : s.leaseAbove i = above) :
    GivesLeases s (t.insertCell r (.lease i above)) (i :: chain) := by
  have hcell : s.cell? r = none := by
    rw [cell?_eq_none]
    intro hm
    rw [liveLease?_eq_some.2 ⟨hr, hm⟩] at hno
    cases hno
  refine ⟨h.same.trans (sameScopes_insertCell ..), h.next, fun x => ?_, fun k hk => ?_⟩
  · rw [cell?_insertCell]
    by_cases hx : x = r
    · subst hx
      exact .inr ⟨hcell, i, by simp, hr, by simp [ha]⟩
    · rw [if_neg hx]
      rcases h.cell? x with he | ⟨hn, k, hk, hl, hc⟩
      · exact .inl he
      · exact .inr ⟨hn, k, List.mem_cons_of_mem _ hk, hl, hc⟩
  · rw [liveLease?_isSome]
    rcases List.mem_cons.1 hk with rfl | hk
    · refine ⟨r, (congrArg Scope.lease (h.same.scope k)).trans hr, mem_cells.2 ⟨.lease k above, ?_⟩⟩
      rw [cell?_insertCell, if_pos rfl]
    · obtain ⟨x, hx, hm⟩ := liveLease?_isSome.1 (h.there k hk)
      refine ⟨x, hx, ?_⟩
      obtain ⟨c, hc⟩ := mem_cells.1 hm
      rw [mem_cells]
      by_cases e : x = r
      · exact ⟨_, by rw [cell?_insertCell, if_pos e]⟩
      · exact ⟨c, by rw [cell?_insertCell, if_neg e, hc]⟩

/-- Whoever leases a scope gets its lease, and all leases above are there. -/
theorem leaseFrom_gives (hs : Leases s) (hc : Chain s i chain)
    (hl : ∀ k ∈ chain, (s.scope k).lease.isSome) (hn : chain.length ≤ n + 1) :
    (s.scope i).lease = some (s.leaseFrom n i).1 ∧ GivesLeases s (s.leaseFrom n i).2 chain := by
  induction hc generalizing n with
  | @top i hp =>
    obtain ⟨r, hr⟩ := Option.isSome_iff_exists.1 (hl i (by simp))
    cases hlive : s.liveLease? i with
    | some x =>
      have : s.leaseFrom n i = (x, s) := by
        unfold leaseFrom
        simp [hlive]
      rw [this]
      refine ⟨(liveLease?_eq_some.1 hlive).1, .refl s, rfl, fun _ => .inl rfl, ?_⟩
      simp [hlive]
    | none =>
      have : s.leaseFrom n i = (r, s.insertCell r (.lease i none)) := by
        rw [← newLease_eq hr]
        unfold leaseFrom
        simp [hlive, hp]
      rw [this]
      have hnone : GivesLeases s s [] := ⟨.refl s, rfl, fun _ => .inl rfl, by simp⟩
      exact ⟨hr, hnone.insert hr hlive (by simp [leaseAbove, hp])⟩
  | @under i p chain hp hc ih =>
    obtain ⟨r, hr⟩ := Option.isSome_iff_exists.1 (hl i (by simp))
    cases hlive : s.liveLease? i with
    | some x =>
      have : s.leaseFrom n i = (x, s) := by
        unfold leaseFrom
        simp [hlive]
      rw [this]
      refine ⟨(liveLease?_eq_some.1 hlive).1, .refl s, rfl, fun _ => .inl rfl, ?_⟩
      -- a lease that is there has all those above it
      exact (Chain.under hp hc).forall_mem (P := fun k => (s.liveLease? k).isSome)
        (fun k q hk hq => hs.above k q hk hq) (by simp [hlive])
    | none =>
      cases n with
      | zero =>
        have := hc.head_mem
        cases chain with
        | nil => cases this
        | cons => simp at hn
      | succ n =>
        obtain ⟨hp', hgives⟩ := ih (n := n) (fun k hk => hl k (List.mem_cons_of_mem _ hk))
          (by simpa using hn)
        have hr' : ((s.leaseFrom n p).2.scope i).lease = some r := by rw [hgives.same.scope, hr]
        have : s.leaseFrom (n + 1) i =
            (r, (s.leaseFrom n p).2.insertCell r (.lease i (some (s.leaseFrom n p).1))) := by
          rw [← newLease_eq hr']
          conv => lhs; unfold leaseFrom
          simp [hlive, hp]
        rw [this]
        refine ⟨hr, hgives.insert hr hlive ?_⟩
        simp [leaseAbove, hp, hp']

namespace GivesLeases

theorem mem_cells (h : GivesLeases s t chain) (hr : r ∈ s.cells) : r ∈ t.cells := by
  obtain ⟨c, hc⟩ := Store.mem_cells.1 hr
  rcases h.cell? r with he | ⟨hn, _⟩
  · exact Store.mem_cells.2 ⟨c, he.trans hc⟩
  · simp [hn] at hc

/-- What was there is as it was. -/
theorem cell?_of_mem (h : GivesLeases s t chain) (hr : r ∈ s.cells) : t.cell? r = s.cell? r := by
  rcases h.cell? r with he | ⟨hn, _⟩
  · exact he
  · exact absurd hr (cell?_eq_none.1 hn)

theorem liveLease? (h : GivesLeases s t chain) (hi : (s.liveLease? i).isSome) :
    (t.liveLease? i).isSome := by
  obtain ⟨r, hr, hm⟩ := liveLease?_isSome.1 hi
  exact liveLease?_isSome.2 ⟨r, by rw [h.same.scope, hr], h.mem_cells hm⟩

/-- No other leases are there than before and along the chain. -/
theorem liveLease?_cases (h : GivesLeases s t chain) (hs : Leases s)
    (hi : (t.liveLease? i).isSome) : (s.liveLease? i).isSome ∨ i ∈ chain := by
  obtain ⟨r, hr, hm⟩ := liveLease?_isSome.1 hi
  rw [h.same.scope] at hr
  obtain ⟨c, hc⟩ := Store.mem_cells.1 hm
  rcases h.cell? r with he | ⟨_, k, hk, hl, _⟩
  · exact .inl (liveLease?_isSome.2 ⟨r, hr, Store.mem_cells.2 ⟨c, he ▸ hc⟩⟩)
  · exact .inr (hs.distinct k i r hl hr ▸ hk)

theorem leases (h : GivesLeases s t chain) (hs : Leases s) (hc : Chain s i chain) : Leases t := by
  refine ⟨fun j r hr => ?_, fun j p hj hp => ?_, fun j k r => ?_, fun j r => ?_, fun r hr => ?_, ?_⟩
  · rw [liveLease?_eq_some, h.same.scope] at hr
    rw [h.same.leaseAbove]
    obtain ⟨hr, hm⟩ := hr
    obtain ⟨c, hcell⟩ := Store.mem_cells.1 hm
    rcases h.cell? r with he | ⟨_, k, _, hl, hnew⟩
    · rw [he]
      exact hs.isLease j r (liveLease?_eq_some.2 ⟨hr, Store.mem_cells.2 ⟨c, he ▸ hcell⟩⟩)
    · rw [hnew, hs.distinct k j r hl hr]
  · rw [h.same.scope] at hp
    rcases h.liveLease?_cases hs hj with hj | hj
    · exact h.liveLease? (hs.above j p hj hp)
    · exact h.there p (hc.parent_mem hj hp)
  · rw [h.same.scope, h.same.scope]
    exact hs.distinct j k r
  · rw [h.same.scope, h.next]
    exact hs.leaseLt j r
  · rw [h.next]
    obtain ⟨c, hcell⟩ := Store.mem_cells.1 hr
    rcases h.cell? r with he | ⟨_, k, _, hl, _⟩
    · exact hs.cellLt r (Store.mem_cells.2 ⟨c, he ▸ hcell⟩)
    · exact hs.leaseLt k r hl
  · obtain ⟨hg, hm⟩ := liveLease?_eq_some.1 hs.globalLease
    rw [h.same.globalLease, liveLease?_eq_some, h.same.scope]
    exact ⟨hg, h.mem_cells hm⟩

/-- The lease of a scope along the chain is there. -/
theorem cell?_of_leased (h : GivesLeases s t chain) (ht : Leases t) (hi : i ∈ chain)
    (hr : (s.scope i).lease = some r) : t.cell? r = some (.lease i (s.leaseAbove i)) := by
  obtain ⟨x, hx, hm⟩ := liveLease?_isSome.1 (h.there i hi)
  have hxr : x = r := by
    rw [h.same.scope, hr] at hx
    exact (Option.some.inj hx).symm
  subst hxr
  rw [← h.same.leaseAbove]
  exact ht.isLease i x (liveLease?_eq_some.2 ⟨hx, hm⟩)

theorem inUse (h : GivesLeases s t chain) (hi : s.InUse i) : t.InUse i := by
  rcases hi with ho | hl
  · exact .inl (by rw [h.same.scope, ho])
  · exact .inr (h.liveLease? hl)

theorem rooted (h : GivesLeases s t chain) (hs : Leases s) (hr : Rooted s) (hc : Chain s i chain) :
    Rooted t := by
  have hcongr : ∀ {j : ScopeId} {chain : List ScopeId}, Chain s j chain → Chain t j chain :=
    fun hj => hj.congr fun k _ => by rw [h.same.scope]
  intro j hj
  rcases hj with ho | hl
  · obtain ⟨chain, hj⟩ := hr j (.inl (by rw [← h.same.scope, ho]))
    exact ⟨chain, hcongr hj⟩
  · rcases h.liveLease?_cases hs hl with hl | hmem
    · obtain ⟨chain, hj⟩ := hr j (.inr hl)
      exact ⟨chain, hcongr hj⟩
    · obtain ⟨_, rest, _, hj⟩ := hc.of_mem hmem
      exact ⟨rest, hcongr hj⟩

theorem orderly (h : GivesLeases s t chain) (hs : Orderly s) (hc : Chain s i chain) :
    Orderly t := by
  have hl := h.leases hs.leases hc
  refine ⟨h.same.places hs.places, hl, h.rooted hs.leases hs.rooted hc, fun j p hj hp => ?_⟩
  rcases hj with ho | hj
  · rw [h.same.scope] at ho hp
    exact h.inUse (hs.upward j p (.inl ho) hp)
  · exact .inr (hl.above j p hj hp)

theorem linked (h : GivesLeases s t chain) (hl : Linked s) (hc : Chain s i chain) : Linked t := by
  intro r hr
  rcases counts_pos.1 hr with ⟨j, hj⟩ | ⟨x, c, hx, hm⟩
  · rw [h.same.scope] at hj
    exact h.mem_cells (hl r (counts_pos.2 (.inl ⟨j, hj⟩)))
  · rcases h.cell? x with he | ⟨_, k, hk, _, hnew⟩
    · exact h.mem_cells (hl r (counts_pos.2 (.inr ⟨x, c, he ▸ hx, hm⟩)))
    · -- a new lease refers to the one above it, which was given out with it
      cases hnew.symm.trans hx
      simp only [Cell.refs, Cell.links, Option.mem_toList, Store.leaseAbove,
        Option.bind_eq_some_iff]
        at hm
      obtain ⟨p, hp, hr⟩ := hm
      obtain ⟨q, hq, hmem⟩ := liveLease?_isSome.1 (h.there p (hc.parent_mem hk hp))
      rw [h.same.scope, hr] at hq
      cases hq
      exact hmem

end GivesLeases

/-- Capturing a scope gives its lease, and those of all scopes above it, if they are there. -/
theorem Chain.capture_gives (hc : Chain s i chain) (h : Orderly s)
    (hlive : ∀ k ∈ chain, k < s.scopes.size ∧ k ∉ s.free) :
    (s.scope i).lease = some (s.capture i).1 ∧ GivesLeases s (s.capture i).2 chain := by
  have hlen := length_le_size hc.nodup fun k hk => (hlive k hk).1
  exact leaseFrom_gives h.leases hc
    (fun k hk => h.places.leased k (hlive k hk).1 (hlive k hk).2) (Nat.le_succ_of_le hlen)

/-- A scope in use can be captured. -/
theorem capture_gives (h : Orderly s) (hi : s.InUse i) :
    ∃ chain, Chain s i chain ∧ (s.scope i).lease = some (s.capture i).1 ∧
      GivesLeases s (s.capture i).2 chain := by
  obtain ⟨chain, hc, hu⟩ := h.chain_inUse hi
  exact ⟨chain, hc, hc.capture_gives h fun k hk => h.places.lt_of_inUse (hu k hk)⟩

end TinyScript.Store
