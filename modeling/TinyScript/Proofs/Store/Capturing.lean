/-
  TinyScript.Proofs.Store.Capturing — a scope is freed at once unless someone captured it.

  Who captures a scope gets its lease, and the lease refers to the one of the scope above. So a
  lease may be alive because somebody has it, or because one below it is. Here the second is taken
  out of the first: in honest hands, a lease is alive exactly while someone has the lease of the
  scope or of one below it (`leased_iff`).

  For that no lease may be left over from a scope that is gone (`Matched`). A collection takes
  scopes away whose leases are alive, and what it leaves of them are cells that refer to older ones
  only (`Aged`). There is no circle in that, so they are all dropped (`Collects.dropped`).
-/

import Mathlib.Logic.Relation
import TinyScript.Proofs.Store.Remaining

namespace TinyScript

open Relation

namespace Store

variable {s t u : Store} {held held' : List Ref} {i j k p : ScopeId} {r x y : Ref} {c d : Cell}
  {chain : List ScopeId}

/-! ## What refers to what is older -/

structure Aged (s : Store) : Prop where
  cells : ∀ y c, s.cell? y = some c → ∀ x ∈ c.emptied.refs, x < y
  leases : ∀ i p, s.InUse i → (s.scope i).parent = some p → ∀ x ∈ (s.scope p).lease,
    ∀ y ∈ (s.scope i).lease, x < y

/-- Nothing is made: cells have at most lost what was put into them, and scopes in use have their
    parents and leases. -/
structure Fades (s t : Store) : Prop where
  cells : ∀ y d, t.cell? y = some d → ∃ c, s.cell? y = some c ∧ d.emptied = c.emptied
  scopes : ∀ i, t.InUse i → s.InUse i ∧ (t.scope i).parent = (s.scope i).parent ∧
    (t.scope i).lease = (s.scope i).lease

theorem mem_refs_of_emptied (h : x ∈ c.emptied.refs) : x ∈ c.refs := by
  cases c with
  | array => simp [Cell.emptied, Cell.refs, Cell.links] at h
  | object r fields =>
    have hx : x = r := by simpa [Cell.emptied, Cell.refs, Cell.links, mapRefs] using h
    exact List.mem_cons.2 (.inl hx)
  | _ => exact h

namespace Fades

theorem trans (h : Fades s t) (h' : Fades t u) : Fades s u := by
  refine ⟨fun y e he => ?_, fun i hi => ?_⟩
  · obtain ⟨d, hd, hde⟩ := h'.cells y e he
    obtain ⟨c, hc, hcd⟩ := h.cells y d hd
    exact ⟨c, hc, hde.trans hcd⟩
  · obtain ⟨hi, hp, hl⟩ := h'.scopes i hi
    obtain ⟨hi, hp', hl'⟩ := h.scopes i hi
    exact ⟨hi, hp.trans hp', hl.trans hl'⟩

theorem refl (s : Store) : Fades s s :=
  ⟨fun _ c hc => ⟨c, hc, rfl⟩, fun _ hi => ⟨hi, rfl, rfl⟩⟩

theorem lease {above : Option Ref} (h : Fades s t) (hx : t.cell? x = some (.lease i above)) :
    s.cell? x = some (.lease i above) := by
  obtain ⟨c, hc, he⟩ := h.cells x _ hx
  rw [hc]
  cases c <;> simp_all [Cell.emptied]

theorem aged (h : Fades s t) (ha : Aged s) (ho : Orderly t) : Aged t := by
  refine ⟨fun y d hd x hx => ?_, fun i p hi hp x hx y hy => ?_⟩
  · obtain ⟨c, hc, hdc⟩ := h.cells y d hd
    exact ha.cells y c hc x (hdc ▸ hx)
  · obtain ⟨hi', hp', hl'⟩ := h.scopes i hi
    obtain ⟨_, _, hlp⟩ := h.scopes p (ho.upward i p hi hp)
    exact ha.leases i p hi' (hp' ▸ hp) x (hlp ▸ hx) y (hl' ▸ hy)

end Fades

theorem fades_settle (s : Store) (held : List Ref) : Fades s (s.settle held) := by
  refine ⟨fun y d hd => ⟨d, ?_, rfl⟩, fun i hi => ⟨inUse_of_settle hi, ?_, ?_⟩⟩
  · rw [← cell?_of_mem_settle (mem_cells.2 ⟨d, hd⟩), hd]
  · rw [(sameScopes_settle s held).scope]
  · rw [(sameScopes_settle s held).scope]

theorem SameFrame.fades (h : SameFrame s t)
    (hcells : ∀ y d, t.cell? y = some d → ∃ c, s.cell? y = some c ∧ d.emptied = c.emptied) :
    Fades s t :=
  ⟨hcells, fun i hi => ⟨(h.inUse i).1 hi, h.parent i, h.lease i⟩⟩

theorem Frees.fades (h : Frees s t i) : Fades s t := by
  refine ⟨fun y d hd => ⟨d, ?_, rfl⟩, fun j hj => ?_⟩
  · simpa only [cell?, h.cells] using hd
  · obtain ⟨hne, hu⟩ := h.inUse_iff.1 hj
    rw [h.scope_of_ne hne]
    exact ⟨hu, rfl, rfl⟩

theorem Retires.fades (h : Retires s t i) (hlease : (s.liveLease? i).isSome) : Fades s t := by
  refine ⟨fun y d hd => ⟨d, ?_, rfl⟩, fun j hj => ?_⟩
  · simpa only [cell?, h.cells] using hd
  · exact ⟨(h.inUse_iff hlease).1 hj, h.parent j, h.lease j⟩

theorem Collects.fades (h : Collects s held t) : Fades s t := by
  refine ⟨fun y d hd => ?_, fun i hi => ?_⟩
  · by_cases hy : s.Node s.candidates y → s.Reached held y
    · exact ⟨d, by rw [← h.same y hy, hd], rfl⟩
    · rw [Classical.not_imp] at hy
      rw [h.emptied y hy.1 hy.2] at hd
      obtain ⟨c, hc, rfl⟩ := Option.map_eq_some_iff.1 hd
      exact ⟨c, hc, emptied_emptied c⟩
  · rw [h.scope_of_inUse hi]
    exact ⟨(h.inUse_iff.1 hi).1, rfl, rfl⟩

/-- What is put into an array or an object leaves what it was made of. -/
theorem ChangesCell.emptied {f : Cell → Cell} (h : ChangesCell s t x f)
    (hf : ∀ c, (f c).emptied = c.emptied) :
    ∀ y d, t.cell? y = some d → ∃ c, s.cell? y = some c ∧ d.emptied = c.emptied := by
  intro y d hd
  rw [h.cell?] at hd
  split at hd
  next hy =>
    obtain ⟨c, hc, rfl⟩ := Option.map_eq_some_iff.1 hd
    exact ⟨c, hy ▸ hc, hf c⟩
  next => exact ⟨d, hd, rfl⟩

theorem fades_apply (hs : Leases s) (change : Change)
    (hc : ∀ i name b, change = .bind i name b → i < s.scopes.size ∧ i ∉ s.free) :
    Fades s (s.apply change) := by
  refine (sameFrame_apply hs change hc).fades ?_
  cases change with
  | bind i name b =>
    intro y d hd
    exact ⟨d, by rw [← (changesScope_bind s name b (hc i name b rfl).1).cell? y]; exact hd, rfl⟩
  | setField x name v => exact (changesCell_setField s x name v).emptied fun c => by cases c <;> rfl
  | setItem x place v => exact (changesCell_setItem s x place v).emptied fun c => by cases c <;> rfl
  | append x v => exact (changesCell_append s x v).emptied fun c => by cases c <;> rfl
  | dropLast x => exact (changesCell_dropLast s x).emptied fun c => by cases c <;> rfl

/-- Releasing makes nothing. -/
theorem fades_release (hs : Orderly (s.settle held)) (hl : Linked s) :
    Fades s (s.release held i) :=
  hs.release_rel hl (fades_settle · held) (.refl s) .trans Frees.fades Retires.fades Collects.fades

theorem Pushes.aged {kind : ScopeKind} (h : Pushes s t i p kind) (ha : Aged s) (ho : Orderly s)
    (hp : s.InUse p) : Aged t := by
  refine ⟨fun y c hc => ?_, fun j q hj hq x hx y hy => ?_⟩
  · simp only [cell?, h.cells] at hc
    exact ha.cells y c hc
  · rcases h.inUse_iff.1 hj with rfl | ⟨hji, hj⟩
    · rw [h.scope_self] at hq hy
      cases hq
      cases hy
      rw [h.scope_of_ne (h.ne_of_inUse ho.places hp)] at hx
      exact ho.leases.leaseLt p x hx
    · rw [h.scope_of_ne hji] at hq hy
      rw [h.scope_of_ne (h.ne_of_inUse ho.places (ho.upward j q hj hq))] at hx
      exact ha.leases j q hj hq x hx y hy

/-- Leases that are given out are younger than those above them, if the scopes are. -/
theorem GivesLeases.aged (h : GivesLeases s t chain) (ha : Aged s) (hs : Leases s)
    (hchain : ∀ k ∈ chain, ∀ p, (s.scope k).parent = some p → ∀ x ∈ (s.scope p).lease,
      ∀ y ∈ (s.scope k).lease, x < y) : Aged t := by
  have hin : ∀ i, t.InUse i → s.InUse i ∨ i ∈ chain := by
    rintro i (ho | hl)
    · exact .inl (.inl (by rw [← h.same.scope, ho]))
    · exact (h.liveLease?_cases hs hl).imp_left .inr
  refine ⟨fun y c hc x hx => ?_, fun i p hi hp => ?_⟩
  · rcases h.cell? y with he | ⟨_, k, hk, hl, hnew⟩
    · exact ha.cells y c (he ▸ hc) x hx
    · cases hnew.symm.trans hc
      have hx : x ∈ (s.leaseAbove k).toList := hx
      obtain ⟨p, hp, hpx⟩ := Option.bind_eq_some_iff.1 (Option.mem_toList.1 hx)
      exact hchain k hk p hp x hpx y hl
  · rw [h.same.scope] at hp
    rw [h.same.scope, h.same.scope]
    exact (hin i hi).elim (fun hi => ha.leases i p hi hp) fun hi => hchain i hi p hp

theorem aged_alloc (ha : Aged s) (hs : Leases s) (hc : ∀ x ∈ c.refs, x ∈ s.cells) :
    Aged (s.alloc c).2 := by
  have hf := sameFrame_alloc hs c
  refine ⟨fun y d hd x hx => ?_, fun i p hi hp => ?_⟩
  · rw [cell?_alloc] at hd
    split at hd
    next hy =>
      cases hd
      rw [hy]
      exact hs.cellLt x (hc x (mem_refs_of_emptied hx))
    next => exact ha.cells y d hd x hx
  · exact ha.leases i p ((hf.inUse i).1 hi) hp

theorem aged_empty : Aged empty := by
  refine ⟨fun y c hc x hx => ?_, fun i p _ hp => ?_⟩
  · rw [cell?_empty] at hc
    split at hc
    · cases hc
      cases hx
    · cases hc
  · rw [parent_empty] at hp
    cases hp

/-! ## What is dropped -/

/-- What is dropped stays so, as long as nobody refers to it who did not before. -/
theorem Dropped.mono (h : Dropped s held r) (hr : r ∈ s.cells) (hg : t.globalLease = s.globalLease)
    (hheld : ∀ x ∈ s.cells, x ∈ held' → x ∈ held ∨ ¬ Dropped s held x)
    (hscope : ∀ i, ∀ x ∈ (t.scope i).refs, x ∈ (s.scope i).refs ∨ x ∈ held)
    (hcell : ∀ y d, t.cell? y = some d → ∀ x ∈ d.refs,
      x ∈ held ∨ ∃ c, s.cell? y = some c ∧ x ∈ c.refs) : Dropped t held' r := by
  induction h with
  | @intro r hne hno hscopes hcells ih =>
    refine .intro (hg ▸ hne) (fun hm => ?_) (fun i hi => ?_) fun y d hd hx => ?_
    · rcases hheld r hr hm with hm | hlive
      · exact hno hm
      · exact hlive (.intro hne hno hscopes hcells)
    · rcases hscope i r hi with hi | hm
      · exact hscopes i hi
      · exact hno hm
    · rcases hcell y d hd r hx with hm | ⟨c, hc, hx⟩
      · exact absurd hm hno
      · exact ih y c hc hx (mem_cells.2 ⟨c, hc⟩)

/-- The nodes that a collection does not reach are dropped. What refers to one of them after it was
    not reached either, and is younger. -/
theorem Collects.dropped (h : Collects s held t) (ho : Orderly s) (ha : Aged s)
    (hx : s.Node s.candidates x) (hno : ¬ s.Reached held x) : Dropped t held x := by
  induction hn : s.next - x using Nat.strong_induction_on generalizing x with
  | _ n ih =>
    have hout : ¬ s.HeldOutside held x := fun hh => hno ⟨x, .inl ⟨hx, hh⟩, .refl⟩
    refine .intro (fun e => ?_) (fun hm => ?_) (fun i hi => ?_) fun y c hc hxc => ?_
    · exact hout (.inl (.inl (e.trans h.globalLease)))
    · exact hout (.inl (.inr hm))
    · rcases h.scope_cases i with ⟨_, _, he⟩ | ⟨hstays, he⟩
      · rw [he] at hi
        simp [vacated, Scope.refs, Scope.vacant, mapRefs] at hi
      · rw [he] at hi
        by_cases hcand : i ∈ s.candidates
        · -- the lease of a scope that stays is reached, and what is bound in it with it
          obtain ⟨r, hr, root, hroot, hlead⟩ := hstays (mem_candidates.1 hcand).1
          refine hno ⟨root, hroot, hlead.tail ?_⟩
          rw [follow, successors_eq, List.mem_append]
          exact .inl ((mem_boundAt (apart_candidates ho.places ho.leases)).2 ⟨i, hcand, hr, hi⟩)
        · exact hout (.inr (.inl ⟨i, hcand, hi⟩))
    · obtain ⟨d, hd, hcd⟩ := h.fades.cells y c hc
      by_cases hy : s.Node s.candidates y ∧ ¬ s.Reached held y
      · rw [h.emptied y hy.1 hy.2, hd] at hc
        cases hc
        have hlt := ha.cells y d hd x hxc
        have hlt' := ho.leases.cellLt y (Store.mem_cells.2 ⟨d, hd⟩)
        exact ih (s.next - y) (hn ▸ Nat.sub_lt_sub_left (hlt.trans hlt') hlt) hy.1 hy.2 rfl
      · -- then it is as it was, and holds the node from outside or reaches it
        have hsame := h.same y fun hn => by_contra fun hr => hy ⟨hn, hr⟩
        rw [hsame] at hc
        by_cases hlink : s.Node s.candidates y ∧ x ∈ s.linksAt y
        · have hreach : s.Reached held y := by_contra fun hr => hy ⟨hlink.1, hr⟩
          exact absurd (hreach.link hlink.2) hno
        · refine absurd (.inr (.inr ⟨y, mem_refsAt.2 ⟨c, hc, hxc⟩, fun hn hl => ?_⟩)) hout
          exact hlink ⟨hn, hl⟩

/-! ## Leases and scopes -/

def Matched (s : Store) : Prop :=
  ∀ x i above, s.cell? x = some (.lease i above) → (s.scope i).lease = some x

namespace Matched

theorem settle (h : Matched s) (held : List Ref) : Matched (s.settle held) := by
  intro x i above hx
  rw [(sameScopes_settle s held).scope]
  refine h x i above ?_
  rw [← cell?_of_mem_settle (mem_cells.2 ⟨_, hx⟩), hx]

/-- Where leases are as they were, and what was dropped is dropped, leases still match. -/
theorem of_dropped (h : Matched (s.settle held)) (hs : Linked s) (ht : Linked t)
    (hcell : ∀ x i above, t.cell? x = some (.lease i above) → s.cell? x = some (.lease i above))
    (hdrop : ∀ x ∈ s.cells, Dropped s held x → Dropped t held' x)
    (hlease : ∀ i, ∀ x ∈ s.cells, (s.scope i).lease = some x → (t.scope i).lease = some x) :
    Matched (t.settle held') := by
  intro x i above hx
  have hm := mem_cells.2 ⟨_, hx⟩
  rw [cell?_of_mem_settle hm] at hx
  have hs' := hcell x i above hx
  have hin : x ∈ s.cells := mem_cells.2 ⟨_, hs'⟩
  have hlive : x ∈ (s.settle held).cells := by
    refine (mem_settle hs).2 ⟨hin, fun hd => ?_⟩
    exact ((mem_settle ht).1 hm).2 (hdrop x hin hd)
  rw [(sameScopes_settle t held').scope]
  refine hlease i x hin ?_
  rw [← (sameScopes_settle s held).scope]
  exact h x i above (by rw [cell?_of_mem_settle hlive, hs'])

theorem gives (h : Matched s) (hg : GivesLeases s t chain) : Matched t := by
  intro x i above hx
  rw [hg.same.scope]
  rcases hg.cell? x with he | ⟨_, k, _, hl, hnew⟩
  · exact h x i above (he ▸ hx)
  · cases hnew.symm.trans hx
    exact hl

theorem retires (h : Matched s) (hr : Retires s t i) : Matched t := by
  intro x j above hx
  rw [hr.lease]
  exact h x j above (by simpa only [cell?, hr.cells] using hx)

/-- A scope whose lease is not there leaves no lease behind. -/
theorem frees (h : Matched s) (hf : Frees s t i) (hnone : s.liveLease? i = none) : Matched t := by
  intro x j above hx
  have hx : s.cell? x = some (.lease j above) := by simpa only [cell?, hf.cells] using hx
  have hl := h x j above hx
  have hj : j ≠ i := by
    rintro rfl
    rw [liveLease?_eq_some.2 ⟨hl, mem_cells.2 ⟨_, hx⟩⟩] at hnone
    cases hnone
  rw [hf.scope_of_ne hj, hl]

/-- The leases of the scopes that a collection frees are dropped. -/
theorem collects (h : Matched s) (hc : Collects s held t) (ho : Orderly s) (ha : Aged s)
    (ht : Linked t) : Matched (t.settle held) := by
  intro x j above hx
  have hm := mem_cells.2 ⟨_, hx⟩
  rw [cell?_of_mem_settle hm] at hx
  have hl := h x j above (hc.fades.lease hx)
  rw [(sameScopes_settle t held).scope]
  rcases hc.scope_cases j with ⟨hr, hno, _⟩ | ⟨_, he⟩
  · -- its lease was alive, so it was a node, and not reached
    have hlive : s.liveLease? j = some x :=
      liveLease?_eq_some.2 ⟨hl, hc.mem_cells.1 (mem_cells_of_settle hm)⟩
    have hnode : s.Node s.candidates x :=
      ⟨j, mem_candidates.2 ⟨hr, by simp [hlive]⟩, x, hlive, .refl⟩
    have hdrop := hc.dropped ho ha hnode fun hreach => hno ⟨x, hlive, hreach⟩
    exact absurd hdrop ((mem_settle ht).1 hm).2
  · rw [he, hl]

end Matched

/-! ## Who refers to what after a change -/

theorem ChangesCell.refs {f : Cell → Cell} {new : List Ref} (h : ChangesCell s t x f)
    (hf : ∀ c, ∀ r ∈ (f c).refs, r ∈ c.refs ∨ r ∈ new) : ∀ y d, t.cell? y = some d → ∀ r ∈ d.refs,
      r ∈ new ∨ ∃ c, s.cell? y = some c ∧ r ∈ c.refs := by
  intro y d hd r hr
  rw [h.cell?] at hd
  split at hd
  next hy =>
    obtain ⟨c, hc, rfl⟩ := Option.map_eq_some_iff.1 hd
    exact (hf c r hr).symm.imp_right fun hr => ⟨c, hy ▸ hc, hr⟩
  next => exact .inr ⟨d, hd, hr⟩

theorem refs_apply (change : Change) (hc : ∀ i name b, change = .bind i name b →
    i < s.scopes.size) : ∀ y d, (s.apply change).cell? y = some d → ∀ r ∈ d.refs,
      r ∈ putBy change ∨ ∃ c, s.cell? y = some c ∧ r ∈ c.refs := by
  cases change with
  | bind i name b =>
    intro y d hd r hr
    exact .inr ⟨d, by rw [← (changesScope_bind s name b (hc i name b rfl)).cell? y]; exact hd, hr⟩
  | setField x name v =>
    exact (changesCell_setField s x name v).refs fun _ _ => Cell.mem_refs_setField
  | setItem x place v =>
    exact (changesCell_setItem s x place v).refs fun _ _ => Cell.mem_refs_setItem
  | append x v => exact (changesCell_append s x v).refs fun _ _ => Cell.mem_refs_append
  | dropLast x =>
    exact (changesCell_dropLast s x).refs fun _ _ hr => .inl (Cell.mem_refs_dropLast hr)

theorem scope_refs_apply (change : Change) (hc : ∀ i name b, change = .bind i name b →
    i < s.scopes.size) (i : ScopeId) (h : r ∈ ((s.apply change).scope i).refs) :
    r ∈ (s.scope i).refs ∨ r ∈ putBy change := by
  cases change with
  | bind j name b =>
    have h : r ∈ ((s.bind j name b).scope i).refs := h
    rw [(changesScope_bind s name b (hc j name b rfl)).scope] at h
    split at h
    next hj =>
      subst hj
      exact Scope.mem_refs_bind h
    next => exact .inl h
  | setField x name v => exact .inl ((changesCell_setField s x name v).same.scope i ▸ h)
  | setItem x place v => exact .inl ((changesCell_setItem s x place v).same.scope i ▸ h)
  | append x v => exact .inl ((changesCell_append s x v).same.scope i ▸ h)
  | dropLast x => exact .inl ((changesCell_dropLast s x).same.scope i ▸ h)

theorem matched_empty : Matched empty := by
  intro x i above hx
  rw [cell?_empty] at hx
  split at hx
  next h =>
    cases hx
    rw [h]
    rfl
  next => cases hx

end Store

namespace Holding

open Store

variable {h k : Holding} {i j p : ScopeId} {r x : Ref} {strict : Bool}

/-! ## Honest use -/

def Forges (h k : Holding) : Prop := ∃ i above, k =
  ⟨(h.store.alloc (.lease i above)).2, (h.store.alloc (.lease i above)).1 :: h.held⟩

inductive Honest (strict : Bool) : Holding → Prop
  | init : Honest strict empty
  | step {h k : Holding} : Honest strict h → Step strict h k → ¬ h.Forges k → Honest strict k

theorem Honest.reach (hh : Honest strict h) : Reach strict h := by
  induction hh with
  | init => exact .init
  | step _ hs _ ih => exact ih.step hs

theorem not_forges (hk : k.held.head? ≠ some h.store.next) : ¬ h.Forges k := by
  rintro ⟨i, above, rfl⟩
  exact hk rfl

inductive Does (h : Holding) : Holding → Prop
  | push {t : Store} {i p : ScopeId} {kind : ScopeKind} :
    Pushes h.store t i p kind → h.store.InUse p → Does h ⟨t, h.held⟩
  | capture {i : ScopeId} : h.Attached i → Does h ⟨((h.store.settle h.held).capture i).2,
    ((h.store.settle h.held).capture i).1 :: h.held⟩
  | make {c : Cell} : (∀ r ∈ c.refs, r ∈ h.held) →
    Does h ⟨(h.store.alloc c).2, (h.store.alloc c).1 :: h.held⟩
  | hold {held : List Ref} : (∀ r ∈ held, r ∈ (h.store.settle h.held).cells) →
    Does h ⟨h.store, held⟩
  | apply {c : Change} : (∀ i name b, c = .bind i name b → h.Live i) →
    (∀ r ∈ putBy c, r ∈ h.held) → Does h ⟨h.store.apply c, h.held⟩
  | release {i : ScopeId} : Does h ⟨h.store.release h.held i, h.held⟩
  | collect : Does h ⟨h.store.collect h.held, h.held⟩

theorem Step.does (hs : Step true h k) (hi : Inv h) : Does h k := by
  cases hs with
  | push p kind _ hh =>
    exact .push (pushes_push h.store p kind hi.orderly.places.freeLt) (hi.inUse_of_pushed hh)
  | capture i _ hk => exact .capture (hk rfl)
  | make c hc => exact .make hc
  | hold r hr =>
    refine .hold fun q hq => ?_
    rcases List.mem_cons.1 hq with rfl | hq
    · exact hr
    · exact hi.present_settled hq
  | drop r _ => exact .hold fun q hq => hi.present_settled (List.mem_of_mem_erase hq)
  | declare i name v constant c hlive hv hc =>
    cases declare_eq hc
    refine .apply (fun j name b e => ?_) hv
    cases e
    exact hlive
  | declareVar i name v c _ hk hv hc =>
    cases declare_eq hc
    refine .apply (fun j name b e => ?_) hv
    cases e
    exact (hk rfl).live_hoistTarget hi
  | assign i name v c _ hv hc =>
    obtain ⟨j, rfl, hlive⟩ := assign_eq hi.orderly.places hc
    refine .apply (fun k name b e => ?_) hv
    cases e
    exact hlive
  | change c hc hv => exact .apply (fun i name b e => absurd e (hc i name b)) hv
  | release i _ _ => exact .release
  | collect => exact .collect

/-! ## What honest use keeps -/

/-- Above an attached scope, scopes are older. -/
theorem Attached.aged (ha : h.Attached i) (hi : Inv h) (hage : Aged h.store)
    {chain : List ScopeId} (hc : Chain h.store i chain) :
    ∀ j ∈ chain, ∀ p, (h.store.scope j).parent = some p → ∀ x ∈ (h.store.scope p).lease,
      ∀ y ∈ (h.store.scope j).lease, x < y := by
  rcases ha with hk | ⟨other, ho, hlive⟩
  · have hu := hc.forall_mem hi.orderly.upward (inUse_of_settle hk)
    exact fun j hj p => hage.leases j p (hu j hj)
  · rw [hc.unique ho]
    exact fun j hj p hp => (hlive j hj).2 p hp

theorem Does.aged (hd : Does h k) (hi : Inv h) (hk : Inv k) (ha : Aged h.store) : Aged k.store := by
  cases hd with
  | push hpush hp => exact hpush.aged ha hi.orderly hp
  | capture hattached =>
    have hsame := sameScopes_settle h.store h.held
    obtain ⟨chain, hc, _, hg⟩ := hattached.capture_gives hi
    refine hg.aged ((fades_settle h.store h.held).aged ha hi.settled) hi.settled.leases ?_
    simp only [hsame.scope]
    exact hattached.aged hi ha (hc.congr fun j _ => by rw [hsame.scope])
  | make hc => exact aged_alloc ha hi.orderly.leases fun r hr => hi.present r (hc r hr)
  | hold _ => exact ha
  | apply hc _ => exact (fades_apply hi.orderly.leases _ hc).aged ha hk.orderly
  | release => exact (fades_release hi.settled hi.linked).aged ha hk.orderly
  | collect =>
    exact ((fades_settle h.store h.held).trans (collects_collect hi.settled).fades).aged ha
      hk.orderly

theorem matched_release (hi : Inv h) (hk : Inv ⟨h.store.release h.held i, h.held⟩)
    (ha : Aged h.store) (hm : Matched (h.store.settle h.held)) :
    Matched ((h.store.release h.held i).settle h.held) := by
  by_cases hrel : (h.store.scope i).released = true
  · rwa [release_of_released h.held hrel]
  have hopen : (h.store.scope i).released = false := by simpa using hrel
  have hsame := sameScopes_settle h.store h.held
  have hopen' : ((h.store.settle h.held).scope i).released = false := by rw [hsame.scope, hopen]
  rcases release_cases h.held hopen (hi.orderly.places.lt_of_open hopen).1 with
    ⟨hnone, hf⟩ | ⟨hnone, hf⟩ | ⟨hsome, t, ht, ⟨_, he⟩ | he⟩
  · refine hm.of_dropped hi.linked hk.linked (fun _ _ _ => hf.fades.lease) ?_ fun j x hx hl => ?_
    · intro x hx hd
      refine hd.mono hx hf.globalLease (fun _ _ hq => .inl hq) (fun j q hq => .inl ?_)
        fun y d hy q hq => .inr ⟨d, by simpa only [cell?, hf.cells] using hy, hq⟩
      rw [hf.scope] at hq
      split at hq
      · simp [vacated, Scope.refs, Scope.vacant, mapRefs] at hq
      · exact hq
    · have hj : j ≠ i := by
        rintro rfl
        rw [liveLease?_eq_some.2 ⟨hl, hx⟩] at hnone
        cases hnone
      rw [hf.scope_of_ne hj, hl]
  · exact (hm.frees hf hnone).settle _
  · rw [he]
    exact (hm.retires ht).settle _
  · have ho := ht.orderly_settle hi.linked hi.settled hopen' hsome
    have hl := linked_settle (ht.linked (linked_settle hi.linked h.held)) h.held
    have hc := collects_collect ho
    have hfades := ((fades_settle h.store h.held).trans (ht.fades hsome)).trans
      (fades_settle t h.held)
    rw [he]
    exact ((hm.retires ht).settle _).collects hc ho (hfades.aged ha ho) (hc.linked hl)

theorem Does.matched (hd : Does h k) (hi : Inv h) (hk : Inv k) (ha : Aged h.store)
    (hm : Matched (h.store.settle h.held)) (hf : ¬ h.Forges k) :
    Matched (k.store.settle k.held) := by
  cases hd with
  | @push t i p kind hpush _ =>
    refine hm.of_dropped hi.linked hk.linked
      (fun x i above hx => by simpa only [cell?, hpush.cells] using hx) (fun x hx hd => ?_)
      fun j x hx hl => ?_
    · refine hd.mono hx hpush.globalLease (fun _ _ hq => .inl hq) (fun j q hq => .inl ?_)
        fun y d hy q hq => .inr ⟨d, by simpa only [cell?, hpush.cells] using hy, hq⟩
      rw [hpush.scope] at hq
      split at hq
      · cases hq
      · exact hq
    · have hu : h.store.InUse j := .inr (liveLease?_isSome.2 ⟨x, hl, hx⟩)
      rw [hpush.scope_of_ne (hpush.ne_of_inUse hi.orderly.places hu), hl]
  | capture hattached =>
    obtain ⟨chain, _, _, hg⟩ := hattached.capture_gives hi
    exact (hm.gives hg).settle _
  | @make c hc =>
    refine hm.of_dropped hi.linked hk.linked (fun x i above hx => ?_) (fun x hx hd => ?_)
      fun j x hx hl => hl
    · rw [cell?_alloc] at hx
      split at hx
      next =>
        cases hx
        exact absurd ⟨i, above, rfl⟩ hf
      next => exact hx
    · refine hd.mono hx rfl (fun y hy hq => ?_) (fun j q hq => .inl hq) fun y d hy q hq => ?_
      · rcases List.mem_cons.1 hq with rfl | hq
        · exact absurd (hi.orderly.leases.cellLt _ hy) (Nat.lt_irrefl _)
        · exact .inl hq
      · rw [cell?_alloc] at hy
        split at hy
        next =>
          cases hy
          exact .inl (hc q hq)
        next => exact .inr ⟨d, hy, hq⟩
  | hold hheld =>
    refine hm.of_dropped hi.linked hi.linked (fun _ _ _ hx => hx) (fun x hx hd => ?_)
      fun _ _ _ hl => hl
    refine hd.mono hx rfl (fun y hy hq => .inr ?_) (fun j q hq => .inl hq)
      fun y d hy q hq => .inr ⟨d, hy, hq⟩
    exact ((mem_settle hi.linked).1 (hheld y hq)).2
  | @apply c hc hv =>
    have hf := fades_apply hi.orderly.leases c hc
    have hlt : ∀ i name b, c = .bind i name b → i < h.store.scopes.size :=
      fun i name b e => (hc i name b e).1
    refine hm.of_dropped hi.linked hk.linked (fun _ _ _ => hf.lease) (fun x hx hd => ?_)
      fun j x _ hl => ?_
    · refine hd.mono hx (sameFrame_apply hi.orderly.leases c hc).globalLease (fun _ _ hq => .inl hq)
        (fun j q hq => ?_) fun y d hy q hq => ?_
      · exact (scope_refs_apply c hlt j hq).imp_right (hv q)
      · exact (refs_apply c hlt y d hy q hq).imp_left (hv q)
    · rw [(sameFrame_apply hi.orderly.leases c hc).lease, hl]
  | release => exact matched_release hi hk ha hm
  | collect =>
    exact hm.collects (collects_collect hi.settled) hi.settled
      ((fades_settle h.store h.held).aged ha hi.settled) hk.linked

theorem Honest.keeps (hh : Honest true h) : Aged h.store ∧ Matched (h.store.settle h.held) := by
  induction hh with
  | init => exact ⟨aged_empty, matched_empty.settle _⟩
  | step hh hs hf ih =>
    have hi := reach_inv hh.reach
    have hk := step_inv hi hs
    exact ⟨(hs.does hi).aged hi hk ih.1, (hs.does hi).matched hi hk ih.1 ih.2 hf⟩

/-! ## Leases and captures -/

/-- Someone has the lease, and not as the one above his own. -/
inductive Outstanding (h : Holding) (r : Ref) : Prop
  | held : r ∈ h.held → Outstanding h r
  | globalLease : r = h.store.globalLease → Outstanding h r
  | bound {i : ScopeId} : h.store.Binds i r → Outstanding h r
  | cell {x : Ref} {c : Cell} : h.store.Alive h.held x → h.store.cell? x = some c →
    (∀ i above, c ≠ .lease i above) → r ∈ c.refs → Outstanding h r

def Captured (h : Holding) (i : ScopeId) : Prop :=
  ∃ r, (h.store.scope i).lease = some r ∧ h.Outstanding r

def AtOrBelow (h : Holding) : ScopeId → ScopeId → Prop :=
  ReflTransGen fun i p => (h.store.scope i).parent = some p

def CapturedBelow (h : Holding) (i : ScopeId) : Prop :=
  ∃ j, h.Live j ∧ h.AtOrBelow j i ∧ h.Captured j

def Leased (h : Holding) (i : ScopeId) : Prop :=
  ∃ r, (h.store.scope i).lease = some r ∧ h.store.Alive h.held r

theorem leased_iff_liveLease? (hi : Inv h) :
    h.Leased i ↔ ((h.store.settle h.held).liveLease? i).isSome := by
  rw [liveLease?_isSome, (sameScopes_settle h.store h.held).scope]
  exact exists_congr fun r => and_congr_right fun _ => alive_iff hi.linked

/-- What is outstanding is alive. -/
theorem Outstanding.alive (ho : h.Outstanding r) (hi : Inv h) : h.store.Alive h.held r := by
  cases ho with
  | held hr => exact (alive_iff hi.linked).2 (hi.present_settled hr)
  | globalLease hr =>
    have hm := (liveLease?_eq_some.1 hi.orderly.leases.globalLease).2
    exact (alive_iff hi.linked).2 (mem_settle_of_held (hr ▸ hm) (.inl hr))
  | @bound i hb =>
    refine ⟨hi.linked r (counts_pos.2 (.inl ⟨i, binds_iff.1 hb⟩)), fun hd => ?_⟩
    obtain ⟨_, _, hno, _⟩ := hd
    exact hno i (binds_iff.1 hb)
  | @cell x c hx hc _ hr =>
    refine ⟨hi.linked r (counts_pos.2 (.inr ⟨x, c, hc, hr⟩)), fun hd => ?_⟩
    obtain ⟨_, _, _, hno⟩ := hd
    exact hx.2 (hno x c hc hr)

/-- A lease keeps the one above it. -/
theorem Leased.parent (hl : h.Leased i) (hi : Inv h) (hp : (h.store.scope i).parent = some p) :
    h.Leased p := by
  rw [leased_iff_liveLease? hi] at hl ⊢
  exact hi.settled.leases.above i p hl (by rw [(sameScopes_settle h.store h.held).scope, hp])

theorem Leased.above (hl : h.Leased i) (hi : Inv h) (hj : h.AtOrBelow i j) : h.Leased j := by
  induction hj with
  | refl => exact hl
  | tail _ hp ih => exact ih.parent hi hp

theorem CapturedBelow.leased (hc : h.CapturedBelow i) (hi : Inv h) : h.Leased i := by
  obtain ⟨j, _, hji, r, hr, ho⟩ := hc
  exact Leased.above ⟨r, hr, ho.alive hi⟩ hi hji

/-- An alive lease that refers to the one of a scope is the lease of a scope under it. -/
theorem under_of_lease (hi : Inv h) (hm : Matched (h.store.settle h.held)) {above : Option Ref}
    (hx : h.store.Alive h.held x) (hc : h.store.cell? x = some (.lease j above))
    (ha : r ∈ (Cell.lease j above).refs) (hr : (h.store.scope i).lease = some r) :
    (h.store.scope j).lease = some x ∧ (h.store.scope j).parent = some i := by
  have hsame := sameScopes_settle h.store h.held
  have hc := (alive_cell?_iff hi.linked).1 ⟨hx, hc⟩
  have hlease := hm x j above hc
  have hlive : (h.store.settle h.held).liveLease? j = some x :=
    liveLease?_eq_some.2 ⟨hlease, mem_cells.2 ⟨_, hc⟩⟩
  have hcell := hi.settled.leases.isLease j x hlive
  rw [hc] at hcell
  cases hcell
  have ha : r ∈ ((h.store.settle h.held).leaseAbove j).toList := ha
  obtain ⟨p, hp, hpr⟩ := Option.bind_eq_some_iff.1 (Option.mem_toList.1 ha)
  have hpi : p = i := hi.settled.leases.distinct p i r hpr (by rw [hsame.scope, hr])
  rw [← hsame.scope, hlease, hp, hpi]
  exact ⟨rfl, rfl⟩

/-- Someone has a lease that is alive, or one below it. -/
theorem Leased.captured (hl : h.Leased i) (hi : Inv h) (ha : Aged h.store)
    (hm : Matched (h.store.settle h.held)) : h.CapturedBelow i := by
  obtain ⟨r, hr, hal⟩ := hl
  induction hn : h.store.next - r using Nat.strong_induction_on generalizing i r with
  | _ n ih =>
    by_cases ho : h.Outstanding r
    · exact ⟨i, hi.orderly.places.lt_of_lease hr, .refl, r, hr, ho⟩
    by_contra hno
    -- otherwise only leases refer to it, and none of them is alive
    refine hal.2 (.intro (fun e => ho (.globalLease e)) (fun hm => ho (.held hm))
      (fun j hj => ho (.bound (binds_iff.2 hj))) fun x c hc hrc => ?_)
    by_contra hlive
    have hx : h.store.Alive h.held x := ⟨mem_cells.2 ⟨c, hc⟩, hlive⟩
    by_cases hlease : ∃ j above, c = .lease j above
    · obtain ⟨j, above, rfl⟩ := hlease
      obtain ⟨hl, hp⟩ := under_of_lease hi hm hx hc hrc hr
      have hlt := ha.cells x _ hc r hrc
      have hlt' := hi.orderly.leases.cellLt x hx.1
      obtain ⟨k, hk, hkj, hcap⟩ := ih (h.store.next - x)
        (hn ▸ Nat.sub_lt_sub_left (hlt.trans hlt') hlt) x hl hx rfl
      exact hno ⟨k, hk, hkj.tail hp, hcap⟩
    · exact ho (.cell hx hc (fun j above e => hlease ⟨j, above, e⟩) hrc)

theorem leased_iff (hh : Honest true h) : h.Leased i ↔ h.CapturedBelow i := by
  have hi := reach_inv hh.reach
  exact ⟨fun hl => hl.captured hi hh.keeps.1 hh.keeps.2, fun hc => hc.leased hi⟩

/-! ## Releasing and capturing -/

/-- A scope whose lease nobody keeps is freed at once. -/
theorem release_of_not_leased (hi : Inv h) (hopen : (h.store.scope i).released = false)
    (hl : ¬ h.Leased i) : (h.store.release h.held i).free = i :: h.store.free ∧
      (h.store.release h.held i).retained = h.store.retained := by
  have hsame := sameScopes_settle h.store h.held
  rw [leased_iff_liveLease? hi] at hl
  rcases release_cases h.held hopen (hi.orderly.places.lt_of_open hopen).1 with
    ⟨_, hf⟩ | ⟨_, hf⟩ | ⟨hsome, _⟩
  · exact ⟨hf.free, hf.retained⟩
  · exact ⟨hf.free.trans (congrArg _ hsame.free), hf.retained.trans hsame.retained⟩
  · exact absurd hsome hl

/-- A scope whose lease is alive is retained, and a collection follows where it is due. -/
theorem release_of_leased (hi : Inv h) (hopen : (h.store.scope i).released = false)
    (hl : h.Leased i) : ∃ t, Retires (h.store.settle h.held) t i ∧ h.store.release h.held i =
      if t.limit ≤ t.retained.size then t.collect h.held else t := by
  have hlt : i < (h.store.settle h.held).scopes.size :=
    (sameScopes_settle h.store h.held).size ▸ (hi.orderly.places.lt_of_open hopen).1
  obtain ⟨r, hr⟩ := Option.isSome_iff_exists.1 ((leased_iff_liveLease? hi).1 hl)
  refine ⟨_, retires_retire _ hlt, ?_⟩
  simp [Store.release, hopen, liveLease?_settle hr, releaseLeased, hr]

/-- In honest hands the lease of a scope is alive exactly while someone has captured it or a scope
    below it, and then it is below the lease that the scope above has now. A scope that runs is
    freed at once if nobody has, and otherwise retained, whereupon a collection may be due. Who
    captures a scope that is attached has the leases of all scopes above it with it, also where
    leases were there. -/
theorem leases_follow_captures (hh : Honest true h) :
    (∀ i, h.Leased i ↔ h.CapturedBelow i) ∧
    (∀ i r, (h.store.scope i).lease = some r → h.store.Alive h.held r →
      h.store.cell? r = some (.lease i (h.store.leaseAbove i)) ∧
        ∀ p ∈ (h.store.scope i).parent, h.Leased p) ∧
    (∀ i, (h.store.scope i).released = false →
      (¬ h.CapturedBelow i → (h.store.release h.held i).free = i :: h.store.free ∧
        (h.store.release h.held i).retained = h.store.retained) ∧
      (h.CapturedBelow i → ∃ t, Retires (h.store.settle h.held) t i ∧
        h.store.release h.held i = if t.limit ≤ t.retained.size then t.collect h.held else t) ∧
      (h.store.retained.size + 1 < h.store.limit →
        (i ∈ (h.store.release h.held i).free ↔ ¬ h.CapturedBelow i))) ∧
    ∀ i, h.Attached i →
      (h.store.scope i).lease = some ((h.store.settle h.held).capture i).1 ∧
      ∀ j, h.AtOrBelow i j → Leased ⟨((h.store.settle h.held).capture i).2,
        ((h.store.settle h.held).capture i).1 :: h.held⟩ j := by
  have hi := reach_inv hh.reach
  have hsame := sameScopes_settle h.store h.held
  refine ⟨fun i => leased_iff hh, fun i r hr hal => ⟨?_, fun p => Leased.parent ⟨r, hr, hal⟩ hi⟩,
    fun i hopen => ⟨fun hno => ?_, fun hc => ?_, fun hlim => ⟨fun hf hc => ?_, fun hno => ?_⟩⟩,
    fun i ha => ?_⟩
  · exact hi.orderly.leases.isLease i r (liveLease?_eq_some.2 ⟨hr, hal.1⟩)
  · exact release_of_not_leased hi hopen (mt (leased_iff hh).1 hno)
  · exact release_of_leased hi hopen (hc.leased hi)
  · obtain ⟨t, ht, he⟩ := release_of_leased hi hopen (hc.leased hi)
    have hdue : ¬ t.limit ≤ t.retained.size := by
      rw [ht.limit, ht.retained, hsame.limit, hsame.retained, Array.size_push]
      exact Nat.not_le.2 hlim
    rw [he, if_neg hdue, ht.free, hsame.free] at hf
    exact (hi.orderly.places.lt_of_open hopen).2 hf
  · rw [(release_of_not_leased hi hopen (mt (leased_iff hh).1 hno)).1]
    exact List.mem_cons_self
  · obtain ⟨chain, _, hlease, hg⟩ := ha.capture_gives hi
    have hscope : ∀ j, ((h.store.settle h.held).capture i).2.scope j = h.store.scope j := fun j =>
      (hg.same.scope j).trans (hsame.scope j)
    have hinv := hi.capture ha
    rw [hsame.scope] at hlease
    refine ⟨hlease, fun j hj => ?_⟩
    refine Leased.above (i := i) ⟨_, (congrArg _ (hscope i)).trans hlease, ?_⟩ hinv ?_
    · exact (Outstanding.held List.mem_cons_self).alive hinv
    · exact ReflTransGen.mono (fun a b hab => (congrArg _ (hscope a)).trans hab) _ _ hj

/-- A block in a function was captured, dropped and captured again, and another block was not. -/
theorem exists_captured_block : ∃ h : Holding, Honest true h ∧ h.Live 2 ∧
    (h.store.scope 2).parent = some 1 ∧ (h.store.scope 2).lease = some 2 ∧ h.held = [2] ∧
    (h.store.scope 1).released = false ∧ (h.store.scope 3).released = false ∧
    ((h.store.settle h.held).liveLease? 3).isSome = false ∧
    h.store.retained.size + 1 < h.store.limit := by
  have h1 : Honest true _ := .step .init
    (.push _ 0 .function (by decide +kernel) (by decide +kernel)) (not_forges (by decide +kernel))
  have h2 := h1.step (.push _ 1 .block (by decide +kernel) (by decide +kernel))
    (not_forges (by decide +kernel))
  have h3 := h2.step (.capture _ 2 (by decide +kernel) (fun _ => .inl (by decide +kernel)))
    (not_forges (by decide +kernel))
  have h4 := h3.step (.release _ 2 (by decide +kernel) (by decide +kernel))
    (not_forges (by decide +kernel))
  have h5 := h4.step (.drop _ 2 (by decide +kernel)) (not_forges (by decide +kernel))
  -- nobody holds the block any more, but the scopes above it are there
  have h6 := h5.step (.capture _ 2 (by decide +kernel) fun _ => .inr ⟨[2, 1, 0],
    .under rfl (.under rfl (.top rfl)), by decide +kernel⟩) (not_forges (by decide +kernel))
  have h7 := h6.step (.push _ 1 .block (by decide +kernel) (by decide +kernel))
    (not_forges (by decide +kernel))
  exact ⟨_, h7, by decide +kernel, by decide +kernel, by decide +kernel, by decide +kernel,
    by decide +kernel, by decide +kernel, by decide +kernel, by decide +kernel⟩

/-- The function is retained for the sake of the block that was captured, and the other block is
    freed at once. -/
theorem a_captured_block_keeps_its_function : ∃ h : Holding, Honest true h ∧
    h.Leased 1 ∧ 1 ∉ (h.store.release h.held 1).free ∧
    (h.store.release h.held 3).free = 3 :: h.store.free := by
  obtain ⟨h, hh, hlive, hparent, hlease, hheld, hopen, hopen', hnone, hlim⟩ := exists_captured_block
  obtain ⟨hiff, _, hrelease, _⟩ := leases_follow_captures hh
  have hcap : h.CapturedBelow 1 :=
    ⟨2, hlive, .single hparent, 2, hlease, .held (by rw [hheld]; exact List.mem_singleton.2 rfl)⟩
  have hno : ¬ h.CapturedBelow 3 := by
    rw [← hiff, leased_iff_liveLease? (reach_inv hh.reach), hnone]
    simp
  refine ⟨h, hh, (hiff 1).2 hcap, fun hf => ?_, ((hrelease 3 hopen').1 hno).1⟩
  exact ((hrelease 1 hopen).2.2 hlim).1 hf hcap

/-- Without the last rule of disciplined use, a block that nobody held is captured when the scope
    above it is gone. Then another scope takes that place. It is freed at once, although a handle to
    the block under it is outstanding. -/
theorem a_scope_above_a_captured_block_is_freed : ∃ h : Holding, Honest false h ∧
    (h.store.scope 1).released = false ∧ h.CapturedBelow 1 ∧
    1 ∈ (h.store.release h.held 1).free := by
  have h1 : Honest false _ := .step .init
    (.push _ 0 .block (by decide +kernel) (by decide +kernel)) (not_forges (by decide +kernel))
  have h2 := h1.step (.push _ 1 .block (by decide +kernel) (by decide +kernel))
    (not_forges (by decide +kernel))
  have h3 := h2.step (.capture _ 2 (by decide +kernel) (by simp))
    (not_forges (by decide +kernel))
  have h4 := h3.step (.release _ 2 (by decide +kernel) (by decide +kernel))
    (not_forges (by decide +kernel))
  have h5 := h4.step (.drop _ 2 (by decide +kernel)) (not_forges (by decide +kernel))
  have h6 := h5.step (.release _ 1 (by decide +kernel) (by decide +kernel))
    (not_forges (by decide +kernel))
  have h7 := h6.step (.capture _ 2 (by decide +kernel) (by simp))
    (not_forges (by decide +kernel))
  have h8 := h7.step (.push _ 0 .block (by decide +kernel) (by decide +kernel))
    (not_forges (by decide +kernel))
  refine ⟨_, h8, by decide +kernel, ⟨2, by decide +kernel, .single (by decide +kernel), 2,
    by decide +kernel, .held (by decide +kernel)⟩, by decide +kernel⟩

end Holding

end TinyScript
