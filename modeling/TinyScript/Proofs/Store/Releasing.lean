/-
  TinyScript.Proofs.Store.Releasing — scopes that come and go.

  A scope is pushed under one in use, and released when nothing runs in the scopes under it. Then
  it is freed if its lease is not there, and retained otherwise, which may start a collection
  (`release_cases`). Through all of this places, leases and chains stay in order, as long as
  settling leaves the leases above scopes that run (`Orderly.release`).
-/

import TinyScript.Proofs.Store.Collecting

namespace TinyScript.Store

variable {s t : Store} {held : List Ref} {r : Ref} {i j p : ScopeId} {kind : ScopeKind}

/-! ## Settling once more -/

/-- Settling keeps order if it leaves the leases of the released scopes above those that run. -/
theorem Orderly.settle (h : Orderly s) (hrun : ∀ j p, (s.scope j).released = false →
    (s.scope j).parent = some p → (s.settle held).InUse p) : Orderly (s.settle held) := by
  have hl := leases_settle h.leases held
  refine ⟨(sameScopes_settle s held).places h.places, hl, rooted_settle h.rooted held, ?_⟩
  intro i p hi hp
  rcases hi with ho | hi
  · rw [(sameScopes_settle s held).scope] at ho hp
    exact hrun i p ho hp
  · exact .inr (hl.above i p hi hp)

/-- A settled store stays as it is, also if scopes change but not what is bound in them. -/
theorem settle_settled (hs : Linked s) (hcells : t.cells = (s.settle held).cells)
    (hrefs : ∀ i, (t.scope i).refs = (s.scope i).refs) (hg : t.globalLease = s.globalLease) :
    (t.settle held).cell? r = t.cell? r := by
  have hcell : ∀ x, t.cell? x = (s.settle held).cell? x := fun x => by simp only [cell?, hcells]
  by_cases hr : r ∈ t.cells
  · refine settle_keeps (L := (· ∈ t.cells)) (fun x hx => ?_) hr
    rw [hcells] at hx
    by_cases h0 : (s.settle held).counts.of x = 0
    · rcases settle_complete hs hx h0 with h | h
      · exact .inl (h.trans hg.symm)
      · exact .inr (.inl h)
    · rcases counts_pos.1 (Nat.pos_of_ne_zero h0) with ⟨i, hi⟩ | ⟨y, c, hy, hc⟩
      · rw [(sameScopes_settle s held).scope, ← hrefs] at hi
        exact .inr (.inr (.inl ⟨i, hi⟩))
      · refine .inr (.inr (.inr ⟨y, c, ?_, (hcell y).trans hy, hc⟩))
        rw [hcells]
        exact mem_cells.2 ⟨c, hy⟩
  · rw [cell?_eq_none.2 hr, cell?_eq_none]
    exact fun hm => hr (mem_cells_of_settle hm)

/-! ## Pushing -/

namespace Pushes

variable (h : Pushes s t i p kind)
include h

theorem scope_self : t.scope i = .fresh (some p) kind s.next := by rw [h.scope, if_pos rfl]

theorem scope_of_ne (hj : j ≠ i) : t.scope j = s.scope j := by rw [h.scope, if_neg hj]

/-- The new scope takes a place that nothing uses. -/
theorem not_inUse (hp : Places s) : ¬ s.InUse i := by
  intro hu
  obtain ⟨hlt, hf⟩ := hp.lt_of_inUse hu
  rcases h.place with ⟨he, _⟩ | ⟨_, _, rfl, _⟩
  · simp [he] at hf
  · exact Nat.lt_irrefl _ hlt

theorem ne_of_inUse (hp : Places s) (hj : s.InUse j) : j ≠ i := by
  rintro rfl
  exact h.not_inUse hp hj

theorem mem_free (hp : Places s) : j ∈ t.free ↔ j ∈ s.free ∧ j ≠ i := by
  rcases h.place with ⟨he, _⟩ | ⟨he, ht, _, _⟩
  · have hd := hp.freeNodup
    rw [he] at hd ⊢
    constructor
    · intro hj
      exact ⟨List.mem_cons_of_mem _ hj, fun e => (List.nodup_cons.1 hd).1 (e ▸ hj)⟩
    · rintro ⟨hj, hne⟩
      rcases List.mem_cons.1 hj with e | hj
      · exact absurd e hne
      · exact hj
  · simp [he, ht]

theorem lt_size_iff (hj : j ≠ i) : j < t.scopes.size ↔ j < s.scopes.size := by
  rcases h.place with ⟨_, he⟩ | ⟨_, _, rfl, he⟩
  · rw [he]
  · rw [he, Nat.lt_succ_iff_lt_or_eq]
    exact ⟨fun hlt => hlt.resolve_right hj, .inl⟩

theorem inUse_iff : t.InUse j ↔ j = i ∨ j ≠ i ∧ s.InUse j := by
  by_cases hj : j = i
  · subst hj
    simp only [true_or, iff_true]
    exact .inl (by rw [h.scope_self]; rfl)
  · simp only [hj, false_or, ne_eq, not_false_eq_true, true_and, InUse, liveLease?, h.cells,
      h.scope_of_ne hj]

theorem places (hp : Places s) : Places t := by
  have hglobal : global ≠ i := by
    rintro rfl
    rcases h.place with ⟨he, _⟩ | ⟨_, _, he, _⟩
    · exact hp.globalStays (by simp [he])
    · exact Nat.lt_irrefl _ (he ▸ hp.globalLt)
  have hi : i ∉ s.retained := by
    intro hr
    obtain ⟨hlt, _, hf⟩ := (hp.mem_retained i).1 hr
    rcases h.place with ⟨he, _⟩ | ⟨_, _, rfl, _⟩
    · simp [he] at hf
    · exact Nat.lt_irrefl _ hlt
  refine ⟨?_, ?_, h.retained ▸ hp.retainedNodup, ?_, ?_, ?_, ?_, ?_, ?_⟩
  · rcases h.place with ⟨he, _⟩ | ⟨_, ht, _, _⟩
    · have hd := hp.freeNodup
      rw [he] at hd
      exact (List.nodup_cons.1 hd).2
    · simp [ht]
  · intro j hj
    obtain ⟨hf, hne⟩ := (h.mem_free hp).1 hj
    exact (h.lt_size_iff hne).2 (hp.freeLt j hf)
  · intro j
    rw [h.retained]
    by_cases hj : j = i
    · subst hj
      simp [hi, h.scope_self, Scope.fresh]
    · rw [h.lt_size_iff hj, h.scope_of_ne hj, h.mem_free hp, hp.mem_retained]
      simp [hj]
  · intro j hj
    obtain ⟨hf, hne⟩ := (h.mem_free hp).1 hj
    rw [h.scope_of_ne hne]
    exact hp.vacant j hf
  · intro j hlt hf
    by_cases hj : j = i
    · rw [hj, h.scope_self]
      rfl
    · rw [h.scope_of_ne hj]
      exact hp.leased j ((h.lt_size_iff hj).1 hlt) fun hm => hf ((h.mem_free hp).2 ⟨hm, hj⟩)
  · intro j hlt hf
    by_cases hj : j = i
    · subst hj
      rw [h.scope_self]
      simpa [Scope.fresh] using hglobal.symm
    · rw [h.scope_of_ne hj]
      exact hp.top j ((h.lt_size_iff hj).1 hlt) fun hm => hf ((h.mem_free hp).2 ⟨hm, hj⟩)
  · exact (h.lt_size_iff hglobal).2 hp.globalLt
  · exact fun hm => hp.globalStays ((h.mem_free hp).1 hm).1

/-- The identity set aside for the lease is new. -/
theorem liveLease?_self (hl : Leases s) : t.liveLease? i = none := by
  cases he : t.liveLease? i with
  | none => rfl
  | some r =>
    obtain ⟨hr, hm⟩ := liveLease?_eq_some.1 he
    rw [h.scope_self] at hr
    cases hr
    rw [h.cells] at hm
    exact absurd (hl.cellLt _ hm) (Nat.lt_irrefl _)

theorem leases (hnew : ¬ s.InUse i) (hl : Leases s) : Leases t := by
  have hused : ∀ j, s.InUse j → j ≠ i := by
    rintro j hj rfl
    exact hnew hj
  have hne : ∀ j r, t.liveLease? j = some r → j ≠ i := by
    rintro j r hj rfl
    simp [h.liveLease?_self hl] at hj
  have hlive : ∀ j, j ≠ i → t.liveLease? j = s.liveLease? j := by
    intro j hj
    simp only [liveLease?, h.scope_of_ne hj, h.cells]
  refine ⟨fun j r hr => ?_, fun j q hj hq => ?_, fun j k r hj hk => ?_, fun j r hr => ?_,
    fun r hr => ?_, ?_⟩
  · have hj := hne j r hr
    rw [hlive j hj] at hr
    have habove : ∀ q, (t.scope j).parent = some q → t.scope q = s.scope q := by
      intro q hq
      rw [h.scope_of_ne hj] at hq
      exact h.scope_of_ne (hused q (.inr (hl.above j q (by simp [hr]) hq)))
    rw [leaseAbove_congr (h.scope_of_ne hj) habove, cell?, h.cells]
    exact hl.isLease j r hr
  · obtain ⟨r, hr⟩ := Option.isSome_iff_exists.1 hj
    have hji := hne j r hr
    rw [hlive j hji] at hr
    rw [h.scope_of_ne hji] at hq
    have hs := hl.above j q (by simp [hr]) hq
    rwa [hlive q (hused q (.inr hs))]
  · by_cases hji : j = i
    · by_cases hki : k = i
      · rw [hji, hki]
      · rw [hji, h.scope_self] at hj
        rw [h.scope_of_ne hki] at hk
        cases hj
        exact absurd (hl.leaseLt k _ hk) (Nat.lt_irrefl _)
    · rw [h.scope_of_ne hji] at hj
      by_cases hki : k = i
      · rw [hki, h.scope_self] at hk
        cases hk
        exact absurd (hl.leaseLt j _ hj) (Nat.lt_irrefl _)
      · rw [h.scope_of_ne hki] at hk
        exact hl.distinct j k r hj hk
  · rw [h.next]
    by_cases hj : j = i
    · rw [hj, h.scope_self] at hr
      cases hr
      exact Nat.lt_succ_self _
    · rw [h.scope_of_ne hj] at hr
      exact Nat.lt_succ_of_lt (hl.leaseLt j r hr)
  · rw [h.next]
    rw [h.cells] at hr
    exact Nat.lt_succ_of_lt (hl.cellLt r hr)
  · rw [hlive global (hused global hl.inUse_global), h.globalLease]
    exact hl.globalLease

theorem chain_of (ho : Orderly s) (hj : s.InUse j) {chain : List ScopeId} (hc : Chain s j chain) :
    Chain t j chain := by
  have hu := hc.forall_mem (P := s.InUse) ho.upward hj
  exact hc.congr fun k hk => by rw [h.scope_of_ne (h.ne_of_inUse ho.places (hu k hk))]

theorem orderly (ho : Orderly s) (hp : s.InUse p) : Orderly t := by
  refine ⟨h.places ho.places, h.leases (h.not_inUse ho.places) ho.leases, fun j hj => ?_,
    fun j q hj hq => ?_⟩
  · rcases h.inUse_iff.1 hj with rfl | ⟨_, hj⟩
    · obtain ⟨chain, hc⟩ := ho.rooted p hp
      exact ⟨_, .under (by rw [h.scope_self]; rfl) (h.chain_of ho hp hc)⟩
    · obtain ⟨chain, hc⟩ := ho.rooted j hj
      exact ⟨chain, h.chain_of ho hj hc⟩
  · rw [h.inUse_iff]
    rcases h.inUse_iff.1 hj with rfl | ⟨hji, hj⟩
    · rw [h.scope_self] at hq
      cases hq
      exact .inr ⟨h.ne_of_inUse ho.places hp, hp⟩
    · rw [h.scope_of_ne hji] at hq
      have hu := ho.upward j q hj hq
      exact .inr ⟨h.ne_of_inUse ho.places hu, hu⟩

theorem linked (hl : Linked s) : Linked t := by
  intro r hr
  rw [h.cells]
  apply hl
  rw [counts_pos] at hr ⊢
  rcases hr with ⟨j, hj⟩ | ⟨x, c, hx, hc⟩
  · by_cases hji : j = i
    · rw [hji, h.scope_self] at hj
      cases hj
    · exact .inl ⟨j, h.scope_of_ne hji ▸ hj⟩
  · simp only [cell?, h.cells] at hx
    exact .inr ⟨x, c, hx, hc⟩

theorem limits (hl : Limits s) : Limits t := by
  refine ⟨h.limit ▸ hl.least, ?_⟩
  rw [h.retained, h.limit]
  exact hl.below

end Pushes

/-! ## Freeing a scope that runs -/

namespace Frees

variable (h : Frees s t i)
include h

theorem scope_of_ne (hj : j ≠ i) : t.scope j = s.scope j := by rw [h.scope, if_neg hj]

theorem liveLease?_of_ne (hj : j ≠ i) : t.liveLease? j = s.liveLease? j := by
  simp only [liveLease?, h.scope_of_ne hj, h.cells]

theorem inUse_iff : t.InUse j ↔ j ≠ i ∧ s.InUse j := by
  by_cases hj : j = i
  · subst hj
    simp only [ne_eq, not_true_eq_false, false_and, iff_false]
    simp [InUse, liveLease?, h.scope, vacated, Scope.vacant]
  · simp only [hj, ne_eq, not_false_eq_true, true_and, InUse, h.scope_of_ne hj,
      h.liveLease?_of_ne hj]

theorem upward (ho : Orderly s) (hlease : s.liveLease? i = none)
    (hbelow : ∀ j, (s.scope j).released = false → (s.scope j).parent ≠ some i)
    (hj : t.InUse j) (hp : (t.scope j).parent = some p) : t.InUse p := by
  obtain ⟨hne, hu⟩ := h.inUse_iff.1 hj
  rw [h.scope_of_ne hne] at hp
  refine h.inUse_iff.2 ⟨?_, ho.upward j p hu hp⟩
  -- what is under a lease that is not there has none itself
  rintro rfl
  rcases hu with hopen | hlive
  · exact hbelow j hopen hp
  · have := ho.leases.above j p hlive hp
    simp [hlease] at this

theorem leases (hl : Leases s) (hglobal : global ≠ i) (habove : ∀ j q, (t.liveLease? j).isSome →
    (t.scope j).parent = some q → q ≠ i) : Leases t := by
  have hne : ∀ j r, (t.scope j).lease = some r → j ≠ i := by
    rintro j r hr rfl
    rw [h.scope, if_pos rfl] at hr
    cases hr
  refine ⟨fun j r hr => ?_, fun j q hj hq => ?_, fun j k r hj hk => ?_, fun j r hr => ?_,
    fun r hr => ?_, ?_⟩
  · have hji := hne j r (liveLease?_eq_some.1 hr).1
    rw [leaseAbove_congr (h.scope_of_ne hji) fun q hq =>
      h.scope_of_ne (habove j q (by simp [hr]) hq), cell?, h.cells]
    rw [h.liveLease?_of_ne hji] at hr
    exact hl.isLease j r hr
  · obtain ⟨r, hr, _⟩ := liveLease?_isSome.1 hj
    have hqi := habove j q hj hq
    rw [h.liveLease?_of_ne (hne j r hr)] at hj
    rw [h.scope_of_ne (hne j r hr)] at hq
    rw [h.liveLease?_of_ne hqi]
    exact hl.above j q hj hq
  · have hji := hne j r hj
    have hki := hne k r hk
    rw [h.scope_of_ne hji] at hj
    rw [h.scope_of_ne hki] at hk
    exact hl.distinct j k r hj hk
  · have hji := hne j r hr
    rw [h.scope_of_ne hji] at hr
    rw [h.next]
    exact hl.leaseLt j r hr
  · rw [h.cells] at hr
    rw [h.next]
    exact hl.cellLt r hr
  · rw [h.liveLease?_of_ne hglobal, h.globalLease]
    exact hl.globalLease

theorem places (hp : Places s) (hopen : (s.scope i).released = false) (hglobal : global ≠ i) :
    Places t := by
  obtain ⟨hlt, hfree⟩ := hp.lt_of_open hopen
  refine ⟨?_, ?_, h.retained ▸ hp.retainedNodup, ?_, ?_, ?_, ?_, h.size ▸ hp.globalLt, ?_⟩
  · rw [h.free]
    exact List.nodup_cons.2 ⟨hfree, hp.freeNodup⟩
  · intro j hj
    rw [h.free] at hj
    rw [h.size]
    rcases List.mem_cons.1 hj with rfl | hj
    · exact hlt
    · exact hp.freeLt j hj
  · intro j
    rw [h.retained, h.size, h.free]
    by_cases hj : j = i
    · subst hj
      simp [hp.not_retained hopen]
    · rw [h.scope_of_ne hj, hp.mem_retained]
      simp [hj]
  · intro j hj
    rw [h.free] at hj
    by_cases hji : j = i
    · subst hji
      rw [h.scope, if_pos rfl]
      rfl
    · rw [h.scope_of_ne hji]
      exact hp.vacant j ((List.mem_cons.1 hj).resolve_left hji)
  · intro j hj hf
    rw [h.free, List.mem_cons, not_or] at hf
    rw [h.scope_of_ne hf.1]
    exact hp.leased j (h.size ▸ hj) hf.2
  · intro j hj hf
    rw [h.free, List.mem_cons, not_or] at hf
    rw [h.scope_of_ne hf.1]
    exact hp.top j (h.size ▸ hj) hf.2
  · rw [h.free, List.mem_cons, not_or]
    exact ⟨hglobal, hp.globalStays⟩

/-- Freeing an open scope keeps order if its lease is not there and nothing runs under it. -/
theorem orderly (ho : Orderly s) (hopen : (s.scope i).released = false)
    (hlease : s.liveLease? i = none)
    (hbelow : ∀ j, (s.scope j).released = false → (s.scope j).parent ≠ some i) : Orderly t := by
  have hglobal : global ≠ i := by
    rintro rfl
    simp [ho.leases.globalLease] at hlease
  have hup : ∀ j q, t.InUse j → (t.scope j).parent = some q → t.InUse q :=
    fun j q => h.upward ho hlease hbelow
  refine ⟨h.places ho.places hopen hglobal, ?_, ?_, hup⟩
  · exact h.leases ho.leases hglobal fun j q hj hq => (h.inUse_iff.1 (hup j q (.inr hj) hq)).1
  · refine ho.rooted.of_kept (fun j hj => ?_) hup
    obtain ⟨hji, hu⟩ := h.inUse_iff.1 hj
    exact ⟨hu, h.scope_of_ne hji⟩

theorem linked (hl : Linked s) : Linked t := by
  intro r hr
  rw [h.cells]
  apply hl
  rw [counts_pos] at hr ⊢
  rcases hr with ⟨j, hj⟩ | ⟨x, c, hx, hc⟩
  · by_cases hji : j = i
    · subst hji
      rw [h.scope, if_pos rfl] at hj
      simp [vacated, Scope.refs, Scope.vacant, mapRefs] at hj
    · exact .inl ⟨j, h.scope_of_ne hji ▸ hj⟩
  · simp only [cell?, h.cells] at hx
    exact .inr ⟨x, c, hx, hc⟩

theorem limits (hl : Limits s) : Limits t := by
  refine ⟨h.limit ▸ hl.least, ?_⟩
  rw [h.retained, h.limit]
  exact hl.below

end Frees

/-! ## Retaining a scope -/

namespace Retires

variable (h : Retires s t i)
include h

theorem scope_of_ne (hj : j ≠ i) : t.scope j = s.scope j := by rw [h.scope, if_neg hj]

theorem parent (j : ScopeId) : (t.scope j).parent = (s.scope j).parent := by
  rw [h.scope]
  split
  next hj => rw [hj]
  next => rfl

theorem lease (j : ScopeId) : (t.scope j).lease = (s.scope j).lease := by
  rw [h.scope]
  split
  next hj => rw [hj]
  next => rfl

theorem refs (j : ScopeId) : (t.scope j).refs = (s.scope j).refs := by
  rw [h.scope]
  split
  next hj => rw [hj]; rfl
  next => rfl

theorem released (j : ScopeId) :
    (t.scope j).released = false ↔ j ≠ i ∧ (s.scope j).released = false := by
  rw [h.scope]
  split
  next hj => simp [hj]
  next hj => simp [hj]

theorem liveLease? (j : ScopeId) : t.liveLease? j = s.liveLease? j := by
  simp only [Store.liveLease?, h.lease, h.cells]

theorem inUse_iff (hlease : (s.liveLease? i).isSome) : t.InUse j ↔ s.InUse j := by
  unfold InUse
  rw [h.released, h.liveLease?]
  by_cases hj : j = i
  · subst hj
    simp [hlease]
  · simp [hj]

theorem leases (hl : Leases s) : Leases t := by
  have hsame : ∀ j, t.leaseAbove j = s.leaseAbove j := by
    intro j
    simp only [leaseAbove, h.parent, h.lease]
  refine ⟨fun j r hr => ?_, fun j q => ?_, fun j k r => ?_, fun j r => ?_, ?_, ?_⟩
  · rw [h.liveLease?] at hr
    rw [hsame, cell?, h.cells]
    exact hl.isLease j r hr
  · rw [h.liveLease?, h.liveLease?, h.parent]
    exact hl.above j q
  · rw [h.lease, h.lease]
    exact hl.distinct j k r
  · rw [h.lease, h.next]
    exact hl.leaseLt j r
  · rw [h.cells, h.next]
    exact hl.cellLt
  · rw [h.liveLease?, h.globalLease]
    exact hl.globalLease

theorem places (hp : Places s) (hopen : (s.scope i).released = false) : Places t := by
  obtain ⟨hlt, hfree⟩ := hp.lt_of_open hopen
  refine ⟨h.free ▸ hp.freeNodup, ?_, ?_, ?_, ?_, ?_, ?_, h.size ▸ hp.globalLt,
    h.free ▸ hp.globalStays⟩
  · rw [h.free, h.size]
    exact hp.freeLt
  · rw [h.retained, Array.toList_push]
    refine List.nodup_append.2 ⟨hp.retainedNodup, List.nodup_singleton i, ?_⟩
    rintro j hj k hk rfl
    cases List.mem_singleton.1 hk
    exact hp.not_retained hopen (by simpa using hj)
  · intro j
    rw [h.retained, h.size, h.free, Array.mem_push]
    by_cases hj : j = i
    · subst hj
      simp [hlt, hfree, h.scope]
    · rw [h.scope_of_ne hj, hp.mem_retained]
      simp [hj]
  · intro j hj
    rw [h.free] at hj
    have hji : j ≠ i := fun e => hfree (e ▸ hj)
    rw [h.scope_of_ne hji]
    exact hp.vacant j hj
  · intro j
    rw [h.size, h.free, h.lease]
    exact hp.leased j
  · intro j
    rw [h.size, h.free, h.parent]
    exact hp.top j

/-- Retaining an open scope keeps order if its lease is there. -/
theorem orderly (ho : Orderly s) (hopen : (s.scope i).released = false)
    (hlease : (s.liveLease? i).isSome) : Orderly t := by
  refine ⟨h.places ho.places hopen, h.leases ho.leases, fun j hj => ?_, fun j q hj hq => ?_⟩
  · obtain ⟨chain, hc⟩ := ho.rooted j ((h.inUse_iff hlease).1 hj)
    exact ⟨chain, hc.congr fun k _ => h.parent k⟩
  · rw [h.parent] at hq
    exact (h.inUse_iff hlease).2 (ho.upward j q ((h.inUse_iff hlease).1 hj) hq)

theorem linked (hl : Linked s) : Linked t := by
  intro r hr
  rw [h.cells]
  apply hl
  rw [counts_pos] at hr ⊢
  rcases hr with ⟨j, hj⟩ | ⟨x, c, hx, hc⟩
  · exact .inl ⟨j, h.refs j ▸ hj⟩
  · simp only [cell?, h.cells] at hx
    exact .inr ⟨x, c, hx, hc⟩

end Retires

/-! ## Releasing -/

theorem release_of_released (held : List Ref) (h : (s.scope i).released = true) :
    s.release held i = s := by
  simp [release, h]

/-- What releasing an open scope does: it is freed if its lease is not there, before or after the
    store is settled, and otherwise it is retained, perhaps with a collection. -/
theorem release_cases (held : List Ref) (hopen : (s.scope i).released = false)
    (hi : i < s.scopes.size) :
    s.liveLease? i = none ∧ Frees s (s.release held i) i ∨
    (s.settle held).liveLease? i = none ∧ Frees (s.settle held) (s.release held i) i ∨
    ((s.settle held).liveLease? i).isSome ∧ ∃ t, Retires (s.settle held) t i ∧
      (t.retained.size < t.limit ∧ s.release held i = t ∨ s.release held i = t.collect held) := by
  have hi' : i < (s.settle held).scopes.size := (sameScopes_settle s held).size ▸ hi
  cases hl : s.liveLease? i with
  | none =>
    have : s.release held i = s.freeScope i := by simp [release, hopen, hl]
    exact .inl ⟨rfl, this ▸ frees_freeScope s hi⟩
  | some r =>
    have hrel : s.release held i = s.releaseLeased held i := by simp [release, hopen, hl]
    cases hs : (s.settle held).liveLease? i with
    | none =>
      have : s.releaseLeased held i = (s.settle held).freeScope i := by simp [releaseLeased, hs]
      exact .inr (.inl ⟨rfl, hrel ▸ this ▸ frees_freeScope _ hi'⟩)
    | some lease =>
      refine .inr (.inr ⟨rfl, (s.settle held).retire i, retires_retire _ hi', ?_⟩)
      by_cases hlim : ((s.settle held).retire i).limit ≤ ((s.settle held).retire i).retained.size
      · exact .inr (hrel.trans (by simp [releaseLeased, hs, hlim]))
      · exact .inl ⟨Nat.lt_of_not_le hlim, hrel.trans (by simp [releaseLeased, hs, hlim])⟩

/-- A scope that was retained just now leaves nothing to settle. -/
theorem Retires.settled (h : Retires (s.settle held) t i) (hl : Linked s) (r : Ref) :
    (t.settle held).cell? r = t.cell? r :=
  settle_settled hl h.cells (fun j => by rw [h.refs, (sameScopes_settle s held).scope])
    (h.globalLease.trans (sameScopes_settle s held).globalLease)

theorem Retires.orderly_settle (h : Retires (s.settle held) t i) (hl : Linked s)
    (ho : Orderly (s.settle held)) (hopen : ((s.settle held).scope i).released = false)
    (hlease : ((s.settle held).liveLease? i).isSome) : Orderly (t.settle held) := by
  refine (h.orderly ho hopen hlease).settle fun j p hj hp => ?_
  rw [h.released] at hj
  rw [h.parent] at hp
  rcases (h.inUse_iff hlease).2 (ho.upward j p (.inl hj.2) hp) with hu | hu
  · exact .inl (by rw [(sameScopes_settle t held).scope, hu])
  · obtain ⟨r, hr, hm⟩ := liveLease?_isSome.1 hu
    refine .inr (liveLease?_isSome.2 ⟨r, by rw [(sameScopes_settle t held).scope, hr], ?_⟩)
    rw [mem_cells, h.settled hl]
    exact mem_cells.1 hm

/-- Releasing keeps order if nothing runs under the scope, and settling keeps order. -/
theorem Orderly.release (h : Orderly s) (hl : Linked s) (hlim : Limits s)
    (hs : Orderly (s.settle held))
    (hbelow : ∀ j, (s.scope j).released = false → (s.scope j).parent ≠ some i) :
    Orderly (s.release held i) ∧ Linked (s.release held i) ∧ Limits (s.release held i) := by
  by_cases hrel : (s.scope i).released = true
  · rw [release_of_released held hrel]
    exact ⟨h, hl, hlim⟩
  have hopen : (s.scope i).released = false := by simpa using hrel
  have hsame := sameScopes_settle s held
  have hopen' : ((s.settle held).scope i).released = false := by rw [hsame.scope, hopen]
  have hbelow' : ∀ j, ((s.settle held).scope j).released = false →
      ((s.settle held).scope j).parent ≠ some i := by
    intro j
    rw [hsame.scope]
    exact hbelow j
  have hl' := linked_settle hl held
  rcases release_cases held hopen (h.places.lt_of_open hopen).1 with
    ⟨hnone, hf⟩ | ⟨hnone, hf⟩ | ⟨hsome, t, ht, ⟨hlt, he⟩ | he⟩
  · exact ⟨hf.orderly h hopen hnone hbelow, hf.linked hl, hf.limits hlim⟩
  · exact ⟨hf.orderly hs hopen' hnone hbelow', hf.linked hl', hf.limits (hsame.limits hlim)⟩
  · rw [he]
    refine ⟨ht.orderly hs hopen' hsome, ht.linked hl', ?_, hlt⟩
    rw [ht.limit, hsame.limit]
    exact hlim.least
  · rw [he]
    have ho := ht.orderly_settle hl hs hopen' hsome
    have hc := collects_collect ho
    exact ⟨hc.orderly ho, hc.linked (linked_settle (ht.linked hl') held), hc.limits⟩

/-- As `release_cases`, for a store that is in order once it is settled. It is so before a
    collection too. -/
theorem Orderly.release_cases (hs : Orderly (s.settle held)) (hl : Linked s)
    (hopen : (s.scope i).released = false) :
    Frees s (s.release held i) i ∨ Frees (s.settle held) (s.release held i) i ∨
    ((s.settle held).liveLease? i).isSome ∧ ∃ t, Retires (s.settle held) t i ∧
      (s.release held i = t ∨ s.release held i = t.collect held ∧ Orderly (t.settle held)) := by
  have hsame := sameScopes_settle s held
  have hopen' : ((s.settle held).scope i).released = false := by rw [hsame.scope, hopen]
  have hlt : i < s.scopes.size := hsame.size ▸ (hs.places.lt_of_open hopen').1
  rcases Store.release_cases held hopen hlt with
    ⟨_, hf⟩ | ⟨_, hf⟩ | ⟨hsome, t, ht, ⟨_, he⟩ | he⟩
  · exact .inl hf
  · exact .inr (.inl hf)
  · exact .inr (.inr ⟨hsome, t, ht, .inl he⟩)
  · exact .inr (.inr ⟨hsome, t, ht, .inr ⟨he, ht.orderly_settle hl hs hopen' hsome⟩⟩)

/-- What holds from before to after of settling, freeing, retaining and collecting holds of
    releasing. -/
theorem Orderly.release_rel {R : Store → Store → Prop} (hs : Orderly (s.settle held))
    (hl : Linked s) (hsettle : ∀ s, R s (s.settle held)) (hrefl : R s s)
    (htrans : ∀ {s t u}, R s t → R t u → R s u) (hfrees : ∀ {s t}, Frees s t i → R s t)
    (hretires : ∀ {s t}, Retires s t i → (s.liveLease? i).isSome → R s t)
    (hcollects : ∀ {s t}, Collects s held t → R s t) : R s (s.release held i) := by
  cases hrel : (s.scope i).released with
  | true => rwa [release_of_released held hrel]
  | false =>
    rcases hs.release_cases hl hrel with hf | hf | ⟨hsome, t, ht, he | ⟨he, ho⟩⟩
    · exact hfrees hf
    · exact htrans (hsettle s) (hfrees hf)
    · exact he ▸ htrans (hsettle s) (hretires ht hsome)
    · have hretired := htrans (hsettle s) (hretires ht hsome)
      exact he ▸ htrans hretired (htrans (hsettle t) (hcollects (collects_collect ho)))

/-- Nothing but the scope that is released changes in a scope that is still in use. -/
theorem release_scope (hs : Orderly (s.settle held)) (hl : Linked s)
    (hopen : (s.scope i).released = false) (hu : (s.release held i).InUse j) :
    (s.release held i).scope j =
      if j = i then { s.scope i with released := true } else s.scope j := by
  have hsame := sameScopes_settle s held
  rcases hs.release_cases hl hopen with hf | hf | ⟨_, t, ht, he | ⟨he, ho⟩⟩
  · have hj := (hf.inUse_iff.1 hu).1
    rw [hf.scope_of_ne hj, if_neg hj]
  · have hj := (hf.inUse_iff.1 hu).1
    rw [hf.scope_of_ne hj, if_neg hj, hsame.scope]
  · rw [he, ht.scope, hsame.scope, hsame.scope]
  · rw [he] at hu ⊢
    rw [(collects_collect ho).scope_of_inUse hu, (sameScopes_settle t held).scope, ht.scope,
      hsame.scope, hsame.scope]

/-- What settling leaves is there after a release. -/
theorem mem_cells_release (hs : Orderly (s.settle held)) (hl : Linked s)
    (hopen : (s.scope i).released = false) (hr : r ∈ (s.settle held).cells) :
    r ∈ (s.release held i).cells := by
  rcases hs.release_cases hl hopen with hf | hf | ⟨_, t, ht, he | ⟨he, ho⟩⟩
  · rw [hf.cells]
    exact mem_cells_of_settle hr
  · rw [hf.cells]
    exact hr
  · rw [he, ht.cells]
    exact hr
  · rw [he, (collects_collect ho).mem_cells, mem_cells, ht.settled hl, ← mem_cells, ht.cells]
    exact hr

end TinyScript.Store
