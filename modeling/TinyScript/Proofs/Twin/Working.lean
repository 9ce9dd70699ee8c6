/-
  TinyScript.Proofs.Twin.Working — two stores in step.

  New cells, changes, leases and new scopes leave a store tracking its twin. All but the last keep
  the scopes there are (`Advances`), so whatever was matched before is matched after.
-/

import TinyScript.Proofs.Twin.Tracking

namespace TinyScript.Store

variable {G H K : Ref → Prop} {s t s' t' s'' t'' : Store} {r : Ref} {i j p q : ScopeId}
  {kind : ScopeKind} {k l : ScopeId}

structure SameShape (s t : Store) : Prop where
  parent : ∀ i, (t.scope i).parent = (s.scope i).parent
  lease : ∀ i, (t.scope i).lease = (s.scope i).lease
  released : ∀ i, (t.scope i).released = (s.scope i).released

namespace SameShape

theorem refl (s : Store) : SameShape s s := ⟨fun _ => rfl, fun _ => rfl, fun _ => rfl⟩

theorem trans (h : SameShape s s') (k : SameShape s' s'') : SameShape s s'' :=
  ⟨fun i => (k.parent i).trans (h.parent i), fun i => (k.lease i).trans (h.lease i),
    fun i => (k.released i).trans (h.released i)⟩

end SameShape

theorem SameFrame.shape (h : SameFrame s t) : SameShape s t := ⟨h.parent, h.lease, h.released⟩

theorem SameScopes.shape (h : SameScopes s t) : SameShape s t :=
  ⟨fun i => by rw [h.scope], fun i => by rw [h.scope], fun i => by rw [h.scope]⟩

structure Advances (G : Ref → Prop) (s t : Store) (H : Ref → Prop) (s' t' : Store) : Prop where
  tracks : Tracks H s' t'
  mono : ∀ r, G r → H r
  left : SameShape s s'
  right : SameShape t t'
  isLease : ∀ q, IsLease s q → IsLease s' q

namespace Advances

theorem refl (h : Tracks G s t) : Advances G s t G s t :=
  ⟨h, fun _ hr => hr, .refl s, .refl t, fun _ hq => hq⟩

theorem trans (h : Advances G s t H s' t') (k : Advances H s' t' K s'' t'') :
    Advances G s t K s'' t'' :=
  ⟨k.tracks, fun r hr => k.mono r (h.mono r hr), h.left.trans k.left, h.right.trans k.right,
    fun q hq => k.isLease q (h.isLease q hq)⟩

theorem good (h : Advances G s t H s' t') {refs : List Ref} (hr : Good G refs) : Good H refs :=
  fun r hm => h.mono r (hr r hm)

theorem twin (h : Advances G s t H s' t') (hij : Twin G s t i j) : Twin H s' t' i j := by
  obtain ⟨r, hi, hj, hr⟩ := hij
  refine ⟨r, (h.left.lease i).trans hi, (h.right.lease j).trans hj, ?_⟩
  rcases hr with ho | hg
  · exact .inl ((h.left.released i).trans ho)
  · exact .inr (h.mono r hg)

end Advances

theorem SameCell.mono {c d : Cell} (h : SameCell s t r c d)
    (hs : ∀ i, (s.scope i).lease = some r → (s'.scope i).lease = some r)
    (ht : ∀ j, (t.scope j).lease = some r → (t'.scope j).lease = some r) :
    SameCell s' t' r c d := by
  cases h with
  | same hno => exact .same hno
  | lease above hi hj => exact .lease above (hs _ hi) (ht _ hj)

theorem rel_mono {α β : Type} {P Q : α → β → Prop} {a : Option α} {b : Option β}
    (h : Option.Rel P a b) (hPQ : ∀ a b, P a b → Q a b) : Option.Rel Q a b := by
  cases h with
  | some hab => exact .some (hPQ _ _ hab)
  | none => exact .none

/-- What has to be looked at when no scope comes or goes. -/
theorem Tracks.advance (h : Tracks G s t) (hs : SameShape s s') (ht : SameShape t t')
    (horder : Orderly s') (hlinked : Linked s') (hlimits : Limits s')
    (huse : ∀ i, s'.InUse i → s.InUse i) (hleases : Leases t') (hfree : t'.free = t.free)
    (hnext : t'.next = s'.next) (hgs : s'.globalLease = s.globalLease)
    (hgt : t'.globalLease = t.globalLease) (hmono : ∀ r, G r → H r)
    (htwin : ∀ i j r, (s.scope i).lease = some r → (t.scope j).lease = some r → H r →
      Twin G s t i j)
    (hcell : ∀ r, H r → ∃ c d, s'.cell? r = some c ∧ t'.cell? r = some d ∧ SameCell s t r c d)
    (hclosed : ∀ r c, H r → s'.cell? r = some c → Good H c.refs)
    (hlease : ∀ q, IsLease s q → IsLease s' q)
    (hhandles : ∀ r c, H r → s'.cell? r = some c → ∀ q ∈ c.handles, IsLease s q)
    (hbound : ∀ i j, Twin G s t i j → (t'.scope j).bindings = (s'.scope i).bindings ∧
      (t'.scope j).kind = (s'.scope i).kind ∧ Good H (s'.scope i).refs) :
    Advances G s t H s' t' := by
  have hfrom : ∀ i j, Twin H s' t' i j → Twin G s t i j := by
    rintro i j ⟨r, hi, hj, hr⟩
    rw [hs.lease] at hi
    rw [ht.lease] at hj
    rw [hs.released] at hr
    rcases hr with ho | hg
    · exact ⟨r, hi, hj, .inl ho⟩
    · exact htwin i j r hi hj hg
  have hto : ∀ i j, Twin G s t i j → Twin H s' t' i j := by
    rintro i j ⟨r, hi, hj, hr⟩
    refine ⟨r, (hs.lease i).trans hi, (ht.lease j).trans hj, ?_⟩
    rw [hs.released]
    exact hr.imp_right (hmono r)
  refine ⟨⟨horder, hlinked, hlimits, ?_, hleases, hfree.trans h.free, hnext, ?_, ?_, ?_, hclosed,
    fun r c hr hc q hq => hlease q (hhandles r c hr hc q hq), ?_, ?_⟩, hmono, hs, ht, hlease⟩
  · intro i p a b hi
    rw [hs.parent, hs.lease, hs.lease]
    exact h.older i p a b (huse i hi)
  · rw [hgs, hgt, h.globalLease]
  · rw [hgs]
    exact hmono _ h.global
  · intro r hr
    obtain ⟨c, d, hc, hd, hsame⟩ := hcell r hr
    exact ⟨c, d, hc, hd, hsame.mono (fun i hi => (hs.lease i).trans hi)
      fun j hj => (ht.lease j).trans hj⟩
  · intro i j hij
    have hij := hfrom i j hij
    obtain ⟨hb, hk, hg⟩ := hbound i j hij
    refine ⟨hb, hk, hg, ?_⟩
    rw [hs.parent, ht.parent]
    exact rel_mono (h.scope i j hij).parent hto
  · intro i ho
    rw [hs.released] at ho
    obtain ⟨j, hij⟩ := h.met i ho
    exact ⟨j, hto i j hij⟩

/-! ## New cells -/

theorem Tracks.alloc (h : Tracks G s t) {c : Cell} (hno : ∀ i above, c ≠ .lease i above)
    (hc : Good G c.refs) (hh : ∀ q ∈ c.handles, IsLease s q) :
    Advances G s t (fun r => G r ∨ r = s.next) (s.alloc c).2 (t.alloc c).2 := by
  have hs := sameFrame_alloc h.orderly.leases c
  have ht := sameFrame_alloc h.leases c
  refine h.advance hs.shape ht.shape (hs.orderly h.orderly)
    (linked_alloc h.linked fun r hr => h.mem_cells (hc r hr)) (hs.limits h.limits)
    (fun i hi => (hs.inUse i).1 hi) (ht.leases h.leases) rfl ?_ rfl rfl (fun r hr => .inl hr)
    ?_ ?_ ?_ ?_ ?_ ?_
  · rw [alloc_next, alloc_next, h.next]
  · intro i j r hi hj hr
    rcases hr with hr | rfl
    · exact .of_lease hi hj hr
    · exact absurd (h.orderly.leases.leaseLt i _ hi) (Nat.lt_irrefl _)
  · intro r hr
    rw [cell?_alloc, cell?_alloc, h.next]
    by_cases hn : r = s.next
    · rw [if_pos hn, if_pos hn]
      exact ⟨c, c, rfl, rfl, .same hno⟩
    · rw [if_neg hn, if_neg hn]
      exact h.cell r (hr.resolve_right hn)
  · intro r d hr hd q hq
    rw [cell?_alloc] at hd
    split at hd
    next =>
      cases hd
      exact .inl (hc q hq)
    next hn => exact .inl (h.closed r d (hr.resolve_right hn) hd q hq)
  · rintro q ⟨i, above, hq⟩
    have hlt := h.orderly.leases.cellLt q (Store.mem_cells.2 ⟨_, hq⟩)
    exact ⟨i, above, by rw [cell?_alloc, if_neg (Nat.ne_of_lt hlt), hq]⟩
  · intro r d hr hd
    rw [cell?_alloc] at hd
    split at hd
    next =>
      cases hd
      exact hh
    next hn => exact h.handles r d (hr.resolve_right hn) hd
  · intro i j hij
    have hsame := h.scope i j hij
    exact ⟨hsame.bindings, hsame.kind, fun r hr => .inl (hsame.good r hr)⟩

/-! ## Changes -/

/-- A change of cells that leaves leases and handles alone. Only good references come in by it. -/
structure Refills (G : Ref → Prop) (f : Cell → Cell) : Prop where
  lease : ∀ i above, f (.lease i above) = .lease i above
  eq_lease : ∀ c i above, f c = .lease i above → c = .lease i above
  refs : ∀ c, ∀ r ∈ (f c).refs, r ∈ c.refs ∨ G r
  handles : ∀ c, (f c).handles = c.handles

theorem Tracks.changesCell (h : Tracks G s t) {x : Ref} {f : Cell → Cell}
    (hs : ChangesCell s s' x f) (ht : ChangesCell t t' x f) (hl : Linked s') (hf : Refills G f) :
    Advances G s t G s' t' := by
  have hs' := hs.sameFrame h.orderly.leases hf.lease
  have ht' := ht.sameFrame h.leases hf.lease
  refine h.advance hs'.shape ht'.shape (hs'.orderly h.orderly) hl (hs'.limits h.limits)
    (fun i hi => (hs'.inUse i).1 hi) (ht'.leases h.leases) ht.same.free ?_ hs.same.globalLease
    ht.same.globalLease (fun _ hr => hr) (fun i j r hi hj hr => .of_lease hi hj hr) ?_ ?_ ?_ ?_
    ?_
  · rw [ht.next, hs.next, h.next]
  · intro r hr
    obtain ⟨c, d, hc, hd, hsame⟩ := h.cell r hr
    rw [hs.cell?, ht.cell?]
    by_cases hx : r = x
    · subst hx
      rw [if_pos rfl, if_pos rfl, hc, hd]
      refine ⟨f c, f d, rfl, rfl, ?_⟩
      cases hsame with
      | same hc => exact .same fun i above he => hc i above (hf.eq_lease c i above he)
      | lease above hi hj =>
        rw [hf.lease, hf.lease]
        exact .lease above hi hj
    · rw [if_neg hx, if_neg hx]
      exact ⟨c, d, hc, hd, hsame⟩
  · intro r c hr hc q hq
    rw [hs.cell?] at hc
    split at hc
    next hx =>
      obtain ⟨d, hd, rfl⟩ := Option.map_eq_some_iff.1 hc
      rcases hf.refs d q hq with hq | hq
      · exact h.closed r d hr (hx ▸ hd) q hq
      · exact hq
    next => exact h.closed r c hr hc q hq
  · rintro q ⟨i, above, hq⟩
    refine ⟨i, above, ?_⟩
    rw [hs.cell?]
    split
    next hx => rw [← hx, hq, Option.map_some, hf.lease]
    next => exact hq
  · intro r c hr hc
    rw [hs.cell?] at hc
    split at hc
    next hx =>
      obtain ⟨d, hd, rfl⟩ := Option.map_eq_some_iff.1 hc
      rw [hf.handles]
      exact h.handles r d hr (hx ▸ hd)
    next => exact h.handles r c hr hc
  · intro i j hij
    have hsame := h.scope i j hij
    rw [hs.same.scope, ht.same.scope]
    exact ⟨hsame.bindings, hsame.kind, hsame.good⟩

theorem refills_setField {name : String} {v : Value} (hv : Good G v.refs) :
    Refills G (Cell.setField name v) where
  lease _ _ := rfl
  eq_lease c _ _ he := by
    cases c with
    | lease => exact he
    | _ => cases he
  refs _ r hr := (Cell.mem_refs_setField hr).imp_right (hv r)
  handles c := by cases c <;> rfl

theorem refills_setItem {place : Nat} {v : Value} (hv : Good G v.refs) :
    Refills G (Cell.setItem place v) where
  lease _ _ := rfl
  eq_lease c _ _ he := by
    cases c with
    | lease => exact he
    | _ => cases he
  refs _ r hr := (Cell.mem_refs_setItem hr).imp_right (hv r)
  handles c := by cases c <;> rfl

theorem refills_append {v : Value} (hv : Good G v.refs) : Refills G (Cell.append v) where
  lease _ _ := rfl
  eq_lease c _ _ he := by
    cases c with
    | lease => exact he
    | _ => cases he
  refs _ r hr := (Cell.mem_refs_append hr).imp_right (hv r)
  handles c := by cases c <;> rfl

theorem refills_dropLast : Refills G Cell.dropLast where
  lease _ _ := rfl
  eq_lease c _ _ he := by
    cases c with
    | lease => exact he
    | _ => cases he
  refs _ _ hr := .inl (Cell.mem_refs_dropLast hr)
  handles c := by cases c <;> rfl

theorem Tracks.bind (h : Tracks G s t) (hij : Twin G s t i j) (name : String) {b : Binding}
    (hb : Good G b.value.refs) : Advances G s t G (s.bind i name b) (t.bind j name b) := by
  obtain ⟨hi, hif⟩ := h.lt_size hij
  have hjf : j ∉ t.free := by simp [h.free]
  have hs := sameFrame_bind name b hi hif
  have ht := sameFrame_bind name b hij.lt hjf
  have hcs := changesScope_bind s name b hi
  have hct := changesScope_bind t name b hij.lt
  refine h.advance hs.shape ht.shape (hs.orderly h.orderly)
    (linked_apply h.linked (.bind i name b) fun r hr => h.mem_cells (hb r hr)) (hs.limits h.limits)
    (fun i hi => (hs.inUse i).1 hi) (ht.leases h.leases) ht.free ?_ hs.globalLease ht.globalLease
    (fun _ hr => hr) (fun i j r hi hj hr => .of_lease hi hj hr) ?_ ?_ ?_ ?_ ?_
  · rw [hct.next, hcs.next, h.next]
  · intro r hr
    rw [hcs.cell?, hct.cell?]
    exact h.cell r hr
  · intro r c hr hc
    rw [hcs.cell?] at hc
    exact h.closed r c hr hc
  · rintro q ⟨k, above, hq⟩
    exact ⟨k, above, (hcs.cell? q).trans hq⟩
  · intro r c hr hc
    rw [hcs.cell?] at hc
    exact h.handles r c hr hc
  · intro k l hkl
    have hsame := h.scope k l hkl
    rw [hcs.scope, hct.scope]
    by_cases hk : k = i
    · -- the scope itself, in both stores
      subst hk
      cases h.twin_right hij hkl
      rw [if_pos rfl, if_pos rfl]
      refine ⟨by simp only [Scope.bind, hsame.bindings], hsame.kind, fun r hr => ?_⟩
      rcases Scope.mem_refs_bind hr with hr | hr
      · exact hsame.good r hr
      · exact hb r hr
    · have hl : l ≠ j := by
        rintro rfl
        exact hk (h.twin_left hkl hij)
      rw [if_neg hk, if_neg hl]
      exact ⟨hsame.bindings, hsame.kind, hsame.good⟩

theorem Tracks.apply (h : Tracks G s t) {c d : Change} (hc : SameChange G s t c d) :
    Advances G s t G (s.apply c) (t.apply d) := by
  cases hc with
  | bind name hij hb => exact h.bind hij name hb
  | container hno hput =>
    have hl := linked_apply h.linked c fun r hr => h.mem_cells (hput r hr)
    cases c with
    | bind i name b => exact absurd rfl (hno i name b)
    | setField x name v =>
      exact h.changesCell (changesCell_setField s x name v) (changesCell_setField t x name v) hl
        (refills_setField hput)
    | setItem x place v =>
      exact h.changesCell (changesCell_setItem s x place v) (changesCell_setItem t x place v) hl
        (refills_setItem hput)
    | append x v =>
      exact h.changesCell (changesCell_append s x v) (changesCell_append t x v) hl
        (refills_append hput)
    | dropLast x =>
      exact h.changesCell (changesCell_dropLast s x) (changesCell_dropLast t x) hl refills_dropLast

/-! ## Leases -/

theorem leaseAbove_twin (h : Tracks G s t) (hij : Twin G s t i j) :
    t.leaseAbove j = s.leaseAbove i := by
  have hp := (h.scope i j hij).parent
  unfold leaseAbove
  generalize (s.scope i).parent = a, (t.scope j).parent = b at hp
  cases hp with
  | none => rfl
  | some hpq =>
    obtain ⟨r, hp, hq, _⟩ := hpq
    exact hq.trans hp.symm

/-- Capturing twins gives leases along both chains, and the same lease for the two scopes. -/
theorem Tracks.capture_gives (h : Tracks G s t) (hij : Twin G s t i j) :
    (s.scope i).lease = some (s.capture i).1 ∧ (t.capture j).1 = (s.capture i).1 ∧
      GivesLeases s (s.capture i).2 (s.chain i) ∧ GivesLeases t (t.capture j).2 (t.chain j) := by
  obtain ⟨hcs, hct, hall⟩ := h.chain hij
  obtain ⟨_, hcs', hls, hs⟩ := Store.capture_gives h.orderly (h.inUse hij)
  cases hcs.unique hcs'
  have hlt : ∀ k ∈ t.chain j, ∃ r, (t.scope k).lease = some r := by
    intro k hk
    obtain ⟨_, _, r, _, hr, _⟩ := exists_left_of_forall₂ hall hk
    exact ⟨r, hr⟩
  have hlen : (t.chain j).length ≤ t.scopes.size := by
    refine length_le_size hct.nodup fun k hk => ?_
    obtain ⟨_, hr⟩ := hlt k hk
    exact lt_of_lease hr
  have ⟨hlj, ht⟩ : (t.scope j).lease = some (t.capture j).1 ∧
      GivesLeases t (t.capture j).2 (t.chain j) :=
    leaseFrom_gives h.leases hct (fun k hk => Option.isSome_iff_exists.2 (hlt k hk))
      (Nat.le_succ_of_le hlen)
  refine ⟨hls, ?_, hs, ht⟩
  obtain ⟨r, hi, hj, _⟩ := hij
  cases hls.symm.trans hi
  exact Option.some.inj (hlj.symm.trans hj)

/-- After twins are captured the leases of all scopes above are good. -/
theorem Tracks.capture (h : Tracks G s t) (hij : Twin G s t i j) :
    (t.capture j).1 = (s.capture i).1 ∧
      ∃ H, Advances G s t H (s.capture i).2 (t.capture j).2 ∧ H (s.capture i).1 := by
  obtain ⟨hcs, hct, hall⟩ := h.chain hij
  obtain ⟨hls, hsame, hs, ht⟩ := h.capture_gives hij
  have hleft : ∀ {k}, k ∈ s.chain i → ∃ l ∈ t.chain j, Twin G s t k l :=
    exists_right_of_forall₂ hall
  have horder := hs.orderly h.orderly hcs
  have hleases := ht.leases h.leases hct
  refine ⟨hsame, fun r => G r ∨ ∃ k ∈ s.chain i, (s.scope k).lease = some r, h.advance hs.same.shape
    ht.same.shape horder (hs.linked h.linked hcs) (hs.same.limits h.limits) ?_ hleases
    ht.same.free (by rw [ht.next, hs.next, h.next]) hs.same.globalLease ht.same.globalLease
    (fun r hr => .inl hr) ?_ ?_ ?_ ?_ ?_ ?_, .inr ⟨i, hcs.head_mem, hls⟩⟩
  · rintro k (ho | hl)
    · exact .inl (by rw [← hs.same.scope, ho])
    · rcases hs.liveLease?_cases h.orderly.leases hl with hl | hk
      · exact .inr hl
      · exact hcs.forall_mem h.orderly.upward (h.inUse hij) k hk
  · rintro k l r hk hl (hr | ⟨k', hk', hr⟩)
    · exact .of_lease hk hl hr
    · cases h.orderly.leases.distinct k' k r hr hk
      obtain ⟨l', _, hkl⟩ := hleft hk'
      obtain ⟨x, hx, hl', _⟩ := id hkl
      cases hx.symm.trans hk
      cases h.leases.distinct l' l r hl' hl
      exact hkl
  · rintro r (hr | ⟨k, hk, hr⟩)
    · obtain ⟨c, d, hc, hd, hcd⟩ := h.cell r hr
      refine ⟨c, d, ?_, ?_, hcd⟩
      · rw [hs.cell?_of_mem (Store.mem_cells.2 ⟨c, hc⟩), hc]
      · rw [ht.cell?_of_mem (Store.mem_cells.2 ⟨d, hd⟩), hd]
    · -- the lease of a scope along the chain, in both stores
      obtain ⟨l, hl, hkl⟩ := hleft hk
      obtain ⟨x, hx, hr', _⟩ := id hkl
      cases hx.symm.trans hr
      refine ⟨_, _, hs.cell?_of_leased horder.leases hk hr, ht.cell?_of_leased hleases hl hr', ?_⟩
      rw [leaseAbove_twin h hkl]
      exact .lease _ hr hr'
  · rintro r c (hr | ⟨k, hk, hr⟩) hc q hq
    · rw [hs.cell?_of_mem (h.mem_cells hr)] at hc
      exact .inl (h.closed r c hr hc q hq)
    · cases (hs.cell?_of_leased horder.leases hk hr).symm.trans hc
      obtain ⟨p, hp, hq⟩ := Option.bind_eq_some_iff.1 (Option.mem_toList.1 hq)
      exact .inr ⟨p, hcs.parent_mem hk hp, hq⟩
  · rintro q ⟨k, above, hq⟩
    exact ⟨k, above, (hs.cell?_of_mem (Store.mem_cells.2 ⟨_, hq⟩)).trans hq⟩
  · rintro r c (hr | ⟨k, hk, hr⟩) hc
    · rw [hs.cell?_of_mem (h.mem_cells hr)] at hc
      exact h.handles r c hr hc
    · cases (hs.cell?_of_leased horder.leases hk hr).symm.trans hc
      exact fun _ hq => nomatch hq
  · intro k l hkl
    have hsame := h.scope k l hkl
    rw [hs.same.scope, ht.same.scope]
    exact ⟨hsame.bindings, hsame.kind, fun r hr => .inl (hsame.good r hr)⟩

theorem Tracks.isLease_capture (h : Tracks G s t) (hij : Twin G s t i j) :
    IsLease (s.capture i).2 (s.capture i).1 := by
  obtain ⟨_, hc, hl, hs⟩ := Store.capture_gives h.orderly (h.inUse hij)
  exact ⟨_, _, hs.cell?_of_leased (hs.orderly h.orderly hc).leases hc.head_mem hl⟩

/-! ## New scopes -/

theorem not_inUse_of_ge (hi : s.scopes.size ≤ i) : ¬ s.InUse i := by
  rintro (ho | hl)
  · rw [scope_of_ge hi] at ho
    cases ho
  · obtain ⟨r, hr, _⟩ := liveLease?_isSome.1 hl
    rw [scope_of_ge hi] at hr
    cases hr

section

variable (h : Tracks G s t)
include h

/-- The second store always uses a new place. -/
theorem Tracks.place_pushed (ht : Pushes t t' j q kind) : j = t.scopes.size ∧ t'.free = [] := by
  rcases ht.place with ⟨hf, _⟩ | ⟨_, hf, hj, _⟩
  · simp [h.free] at hf
  · exact ⟨hj, hf⟩

theorem Tracks.scope_pushed_left (hs : Pushes s s' i p kind) {k : ScopeId} (hk : s.InUse k) :
    s'.scope k = s.scope k :=
  hs.scope_of_ne (hs.ne_of_inUse h.orderly.places hk)

theorem Tracks.scope_pushed_right (ht : Pushes t t' j q kind) {l : ScopeId}
    (hl : l < t.scopes.size) : t'.scope l = t.scope l :=
  ht.scope_of_ne ((h.place_pushed ht).1 ▸ Nat.ne_of_lt hl)

variable (hs : Pushes s s' i p kind) (ht : Pushes t t' j q kind)
include hs ht

theorem Tracks.twin_pushed : Twin G s' t' i j := by
  refine ⟨s.next, ?_, ?_, .inl ?_⟩
  · rw [hs.scope_self]
    rfl
  · rw [ht.scope_self, h.next]
    rfl
  · rw [hs.scope_self]
    rfl

theorem Tracks.twin_of_pushed (hkl : Twin G s t k l) : Twin G s' t' k l := by
  obtain ⟨r, hk, hl, hr⟩ := id hkl
  have hleft := h.scope_pushed_left hs (h.inUse hkl)
  refine ⟨r, ?_, ?_, ?_⟩
  · rw [hleft, hk]
  · rw [h.scope_pushed_right ht hkl.lt, hl]
  · rwa [hleft]

/-- The two new scopes are matched with each other and with no other. -/
theorem Tracks.twin_pushed_cases (hkl : Twin G s' t' k l) :
    k = i ∧ l = j ∨ k ≠ i ∧ l ≠ j ∧ Twin G s t k l := by
  obtain ⟨r, hk, hl, hr⟩ := hkl
  by_cases hki : k = i
  · left
    refine ⟨hki, by_contra fun hlj => ?_⟩
    rw [hki, hs.scope_self] at hk
    rw [ht.scope_of_ne hlj] at hl
    cases hk
    exact absurd (h.next ▸ h.leases.leaseLt l _ hl) (Nat.lt_irrefl _)
  · right
    rw [hs.scope_of_ne hki] at hk hr
    have hlj : l ≠ j := by
      rintro rfl
      rw [ht.scope_self, h.next] at hl
      cases hl
      exact absurd (h.orderly.leases.leaseLt k _ hk) (Nat.lt_irrefl _)
    rw [ht.scope_of_ne hlj] at hl
    exact ⟨hki, hlj, r, hk, hl, hr⟩

theorem Tracks.sameScope_pushed (hpq : Twin G s t p q) (hkl : Twin G s' t' k l) :
    SameScope G s' t' k l := by
  rcases h.twin_pushed_cases hs ht hkl with ⟨rfl, rfl⟩ | ⟨hki, hlj, hkl⟩
  · refine ⟨?_, ?_, ?_, ?_⟩ <;> rw [hs.scope_self]
    · rw [ht.scope_self]
      rfl
    · rw [ht.scope_self]
      rfl
    · exact fun r hr => nomatch hr
    · rw [ht.scope_self]
      exact .some (h.twin_of_pushed hs ht hpq)
  · have hsame := h.scope k l hkl
    refine ⟨?_, ?_, ?_, ?_⟩ <;> rw [hs.scope_of_ne hki]
    · rw [ht.scope_of_ne hlj, hsame.bindings]
    · rw [ht.scope_of_ne hlj, hsame.kind]
    · exact hsame.good
    · rw [ht.scope_of_ne hlj]
      exact rel_mono hsame.parent fun _ _ hkl => h.twin_of_pushed hs ht hkl

/-- Scopes pushed under twins leave a store tracking its twin. -/
theorem Tracks.pushes (hpq : Twin G s t p q) : Tracks G s' t' := by
  have hcell : ∀ r, s'.cell? r = s.cell? r := fun r => by simp only [cell?, hs.cells]
  have hcell' : ∀ r, t'.cell? r = t.cell? r := fun r => by simp only [cell?, ht.cells]
  obtain ⟨hj, hfree⟩ := h.place_pushed ht
  refine ⟨hs.orderly h.orderly (h.inUse hpq), hs.linked h.linked, hs.limits h.limits, ?_,
    ht.leases (not_inUse_of_ge (Nat.le_of_eq hj.symm)) h.leases, hfree, ?_, ?_, ?_, ?_, ?_, ?_,
    fun k l hkl => h.sameScope_pushed hs ht hpq hkl, ?_⟩
  · intro k p' a b hk hp ha hb
    rcases hs.inUse_iff.1 hk with rfl | ⟨hki, hk⟩
    · rw [hs.scope_self] at hp ha
      cases hp
      cases ha
      rw [h.scope_pushed_left hs (h.inUse hpq)] at hb
      exact h.orderly.leases.leaseLt p b hb
    · rw [hs.scope_of_ne hki] at hp ha
      rw [h.scope_pushed_left hs (h.orderly.upward k p' hk hp)] at hb
      exact h.older k p' a b hk hp ha hb
  · rw [hs.next, ht.next, h.next]
  · rw [hs.globalLease, ht.globalLease, h.globalLease]
  · rw [hs.globalLease]
    exact h.global
  · intro r hr
    obtain ⟨c, d, hc, hd, hcd⟩ := h.cell r hr
    refine ⟨c, d, (hcell r).trans hc, (hcell' r).trans hd, hcd.mono (fun k hk => ?_) fun l hl => ?_⟩
    · rw [h.scope_pushed_left hs (.inr (liveLease?_isSome.2 ⟨r, hk, h.mem_cells hr⟩)), hk]
    · rw [h.scope_pushed_right ht (lt_of_lease hl), hl]
  · intro r c hr hc
    exact h.closed r c hr (hcell r ▸ hc)
  · intro r c hr hc q hq
    obtain ⟨k, above, hl⟩ := h.handles r c hr (hcell r ▸ hc) q hq
    exact ⟨k, above, (hcell q).trans hl⟩
  · intro k ho
    by_cases hki : k = i
    · exact ⟨j, hki ▸ h.twin_pushed hs ht⟩
    · rw [hs.scope_of_ne hki] at ho
      obtain ⟨l, hkl⟩ := h.met k ho
      exact ⟨l, h.twin_of_pushed hs ht hkl⟩

end

/-- Scopes pushed under twins are twins, and the twins there were stay so. -/
theorem Tracks.push (h : Tracks G s t) (hpq : Twin G s t p q) (kind : ScopeKind) :
    Tracks G (s.push p kind).2 (t.push q kind).2 ∧
      Twin G (s.push p kind).2 (t.push q kind).2 (s.push p kind).1 (t.push q kind).1 ∧
      ∀ k l, Twin G s t k l → Twin G (s.push p kind).2 (t.push q kind).2 k l := by
  have hs := pushes_push s p kind h.orderly.places.freeLt
  have hfree : ∀ l ∈ t.free, l < t.scopes.size := by simp [h.free]
  have ht := pushes_push t q kind hfree
  exact ⟨h.pushes hs ht hpq, h.twin_pushed hs ht, fun k l hkl => h.twin_of_pushed hs ht hkl⟩

end TinyScript.Store
