/-
  TinyScript.Proofs.Twin.Reclaiming — nothing that is needed goes.

  A program needs what it holds, what is bound in the scopes it runs in, whatever a needed cell
  refers to, and what is bound in a scope with a needed lease (`Needed`). Settling, freeing a scope
  whose lease is not there, retaining one and a collection leave all that alone (`Reclaims`), so a
  store that reclaims still tracks its twin, for the needed cells (`Tracks.release`,
  `Tracks.collect`).
-/

import TinyScript.Proofs.Twin.Working

namespace TinyScript.Store

variable {G N : Ref → Prop} {O O' : ScopeId → Prop} {s t u v : Store} {held : List Ref} {r : Ref}
  {i j p : ScopeId}

/-- What a program may still come to that holds `held` and runs in the scopes `O`. -/
inductive Needed (s : Store) (held : List Ref) (O : ScopeId → Prop) : Ref → Prop
  | globalLease : Needed s held O s.globalLease
  | held {r : Ref} : r ∈ held → Needed s held O r
  | bound {i : ScopeId} {r : Ref} : O i → r ∈ (s.scope i).refs → Needed s held O r
  | inside {x r : Ref} {c : Cell} : Needed s held O x → s.cell? x = some c → r ∈ c.refs →
    Needed s held O r
  | leased {i : ScopeId} {x r : Ref} : Needed s held O x → (s.scope i).lease = some x →
    r ∈ (s.scope i).refs → Needed s held O r

/-- What is needed is good. -/
theorem Needed.good (h : Tracks G s t) (hheld : Good G held)
    (hO : ∀ i, O i → (s.scope i).released = false) (hr : Needed s held O r) : G r := by
  induction hr with
  | globalLease => exact h.global
  | held hr => exact hheld _ hr
  | bound hi hr =>
    obtain ⟨j, hij⟩ := h.met _ (hO _ hi)
    exact (h.scope _ j hij).good _ hr
  | inside _ hc hr ih => exact h.closed _ _ ih hc _ hr
  | leased _ hl hr ih =>
    obtain ⟨j, hij⟩ := h.twin_of_good ih hl
    exact (h.scope _ j hij).good _ hr

/-! ## What may be reclaimed -/

theorem mem_cells_of_cell? (he : u.cell? r = s.cell? r) (hr : r ∈ s.cells) : r ∈ u.cells := by
  rw [mem_cells, he]
  exact mem_cells.1 hr

/-- Between the two stores scopes and cells were reclaimed, but no cell of `N` and no scope of which
    the lease is in `N`. The scopes of `O` are still open. -/
structure Reclaims (N : Ref → Prop) (s : Store) (O : ScopeId → Prop) (v : Store) : Prop where
  orderly : Orderly v
  linked : Linked v
  next : v.next = s.next
  globalLease : v.globalLease = s.globalLease
  cell : ∀ r, N r → v.cell? r = s.cell? r
  inUse : ∀ i, v.InUse i → s.InUse i
  same : ∀ i, v.InUse i → v.scope i = { s.scope i with released := (v.scope i).released }
  opened : ∀ i, (v.scope i).released = false ↔ O i
  kept : ∀ i r, N r → (s.scope i).lease = some r → v.InUse i

namespace Reclaims

theorem refl (ho : Orderly s) (hl : Linked s) (hN : ∀ r, N r → r ∈ s.cells) :
    Reclaims N s (fun i => (s.scope i).released = false) s :=
  ⟨ho, hl, rfl, rfl, fun _ _ => rfl, fun _ hi => hi, fun _ _ => rfl, fun _ => .rfl,
    fun _ r hr hi => .inr (liveLease?_isSome.2 ⟨r, hi, hN r hr⟩)⟩

theorem trans (h : Reclaims N s O u) (k : Reclaims N u O' v) : Reclaims N s O' v := by
  have hsame : ∀ i, v.InUse i →
      v.scope i = { s.scope i with released := (v.scope i).released } := by
    intro i hi
    rw [k.same i hi, h.same i (k.inUse i hi)]
  refine ⟨k.orderly, k.linked, k.next.trans h.next, k.globalLease.trans h.globalLease,
    fun r hr => (k.cell r hr).trans (h.cell r hr), fun i hi => h.inUse i (k.inUse i hi), hsame,
    k.opened, fun i r hr hl => ?_⟩
  have hi := h.kept i r hr hl
  exact k.kept i r hr (by rw [h.same i hi, hl])

theorem congr (h : Reclaims N s O v) (hO : ∀ i, O i ↔ O' i) : Reclaims N s O' v :=
  { h with opened := fun i => (h.opened i).trans (hO i) }

theorem lease (h : Reclaims N s O v) (hi : v.InUse i) : (v.scope i).lease = (s.scope i).lease := by
  rw [h.same i hi]

theorem parent (h : Reclaims N s O v) (hi : v.InUse i) :
    (v.scope i).parent = (s.scope i).parent := by
  rw [h.same i hi]

end Reclaims

/-- What is needed is still there after settling. -/
theorem Needed.cell?_settle (h : Needed s held O r) : (s.settle held).cell? r = s.cell? r := by
  refine settle_keeps (L := Needed s held O) (fun x hx => ?_) h
  cases hx with
  | globalLease => exact .inl rfl
  | held hx => exact .inr (.inl hx)
  | bound _ hx => exact .inr (.inr (.inl ⟨_, hx⟩))
  | inside hy hc hx => exact .inr (.inr (.inr ⟨_, _, hy, hc, hx⟩))
  | leased _ _ hx => exact .inr (.inr (.inl ⟨_, hx⟩))

theorem reclaims_settle (hN : ∀ r, N r → r ∈ s.cells ∧ (s.settle held).cell? r = s.cell? r)
    (hl : Linked s) (ho : Orderly (s.settle held)) :
    Reclaims N s (fun i => (s.scope i).released = false) (s.settle held) := by
  have hsame := sameScopes_settle s held
  refine ⟨ho, linked_settle hl held, settle_next s held, hsame.globalLease, fun r hr => (hN r hr).2,
    fun i hi => inUse_of_settle hi, fun i _ => by rw [hsame.scope], fun i => by rw [hsame.scope],
    fun i r hr hi => ?_⟩
  exact .inr (liveLease?_isSome.2
    ⟨r, by rw [hsame.scope, hi], mem_cells_of_cell? (hN r hr).2 (hN r hr).1⟩)

theorem Frees.reclaims (h : Frees s v i) (ho : Orderly v) (hl : Linked v)
    (hN : ∀ r, N r → r ∈ s.cells) (hnone : s.liveLease? i = none) :
    Reclaims N s (fun j => (s.scope j).released = false ∧ j ≠ i) v := by
  refine ⟨ho, hl, h.next, h.globalLease, fun r _ => by simp only [cell?, h.cells],
    fun j hj => (h.inUse_iff.1 hj).2, fun j hj => by rw [h.scope_of_ne (h.inUse_iff.1 hj).1],
    fun j => ?_, fun j r hr hj => ?_⟩
  · by_cases hji : j = i
    · simp [hji, h.scope, vacated, Scope.vacant]
    · simp [hji, h.scope_of_ne hji]
  · refine h.inUse_iff.2 ⟨?_, .inr (liveLease?_isSome.2 ⟨r, hj, hN r hr⟩)⟩
    rintro rfl
    simp [liveLease?_eq_some.2 ⟨hj, hN r hr⟩] at hnone

theorem Retires.reclaims (h : Retires s v i) (ho : Orderly v) (hl : Linked v)
    (hN : ∀ r, N r → r ∈ s.cells) (hsome : (s.liveLease? i).isSome) :
    Reclaims N s (fun j => (s.scope j).released = false ∧ j ≠ i) v := by
  refine ⟨ho, hl, h.next, h.globalLease, fun r _ => by simp only [cell?, h.cells],
    fun j hj => (h.inUse_iff hsome).1 hj, fun j _ => ?_, fun j => ?_, fun j r hr hj => ?_⟩
  · rw [h.scope]
    split
    next hji => rw [hji]
    next => rfl
  · rw [h.released, and_comm]
  · exact (h.inUse_iff hsome).2 (.inr (liveLease?_isSome.2 ⟨r, hj, hN r hr⟩))

/-- A collection that reaches all nodes in `N`. -/
theorem Collects.reclaims (h : Collects s held v) (ho : Orderly s) (hl : Linked s)
    (hN : ∀ r, N r → r ∈ s.cells)
    (hreach : ∀ r, N r → s.Node s.candidates r → s.Reached held r) :
    Reclaims N s (fun j => (s.scope j).released = false) v := by
  refine ⟨h.orderly ho, h.linked hl, h.next, h.globalLease, fun r hr => h.same r (hreach r hr),
    fun j hj => (h.inUse_iff.1 hj).1, fun j hj => by rw [h.scope_of_inUse hj], fun j => ?_,
    fun j r hr hj => ?_⟩
  · constructor
    · intro hv
      rwa [h.scope_of_inUse (.inl hv)] at hv
    · intro hs
      rw [h.kept j fun hr => ?_, hs]
      simp [((ho.places.mem_retained j).1 hr).2.1] at hs
  · have hlive := liveLease?_eq_some.2 ⟨hj, hN r hr⟩
    refine h.inUse_iff.2 ⟨.inr (by simp [hlive]), fun hret => ⟨r, hlive, hreach r hr ?_⟩⟩
    exact ⟨j, mem_candidates.2 ⟨hret, by simp [hlive]⟩, r, hlive, .refl⟩

/-- A collection reaches every node that is needed: either a node refers to it, or it is held from
    outside. -/
theorem Needed.reached (hcell : ∀ r, Needed s held O r → u.cell? r = s.cell? r)
    (hrefs : ∀ i, (u.scope i).refs = (s.scope i).refs)
    (hlease : ∀ i, (u.scope i).lease = (s.scope i).lease)
    (hopen : ∀ i, O i → (u.scope i).released = false) (hg : u.globalLease = s.globalLease)
    (ho : Orderly u) (h : Needed s held O r) (hr : u.Node u.candidates r) : u.Reached held r := by
  have houtside : ∀ {x}, u.Node u.candidates x → u.HeldOutside held x → u.Reached held x :=
    fun hn hx => ⟨_, .inl ⟨hn, hx⟩, .refl⟩
  induction h with
  | globalLease => exact houtside hr (.inl (.inl hg.symm))
  | held hx => exact houtside hr (.inl (.inr hx))
  | @bound i r hi hx =>
    refine houtside hr (.inr (.inl ⟨i, fun hc => ?_, (hrefs i).symm ▸ hx⟩))
    have := ((ho.places.mem_retained i).1 (mem_candidates.1 hc).1).2.1
    simp [hopen i hi] at this
  | @inside x r c hx hc hxr ih =>
    have hxr' : r ∈ u.refsAt x := mem_refsAt.2 ⟨c, (hcell x hx).trans hc, hxr⟩
    by_cases hl : u.Node u.candidates x ∧ r ∈ u.linksAt x
    · exact (ih hl.1).link hl.2
    · exact houtside hr (.inr (.inr ⟨x, hxr', fun hn hm => hl ⟨hn, hm⟩⟩))
  | @leased i x r hx hi hxr ih =>
    by_cases hc : i ∈ u.candidates
    · -- the lease of a candidate stands for what is bound in it
      obtain ⟨y, hy⟩ := Option.isSome_iff_exists.1 (mem_candidates.1 hc).2
      have hyx : y = x := by
        have := (liveLease?_eq_some.1 hy).1
        rw [hlease, hi] at this
        exact (Option.some.inj this).symm
      subst hyx
      obtain ⟨z, hz, hzy⟩ := ih ⟨i, hc, y, hy, .refl⟩
      refine ⟨z, hz, hzy.tail ?_⟩
      rw [follow, successors_eq]
      refine List.mem_append_left _ ((mem_boundAt (apart_candidates ho.places ho.leases)).2 ?_)
      exact ⟨i, hc, hy, (hrefs i).symm ▸ hxr⟩
    · exact houtside hr (.inr (.inl ⟨i, hc, (hrefs i).symm ▸ hxr⟩))

/-- What is needed outlives a collection, if no scope was changed before it but by its end. -/
theorem Reclaims.collect (h : Reclaims (Needed s held O) s O u)
    (hN : ∀ r, Needed s held O r → r ∈ s.cells ∧ (u.settle held).cell? r = u.cell? r)
    (hrefs : ∀ i, (u.scope i).refs = (s.scope i).refs)
    (hlease : ∀ i, (u.scope i).lease = (s.scope i).lease) (ho : Orderly (u.settle held)) :
    Reclaims (Needed s held O) s O (u.collect held) := by
  have hsame := sameScopes_settle u held
  have hu : ∀ r, Needed s held O r → r ∈ u.cells ∧ (u.settle held).cell? r = u.cell? r :=
    fun r hr => ⟨mem_cells_of_cell? (h.cell r hr) (hN r hr).1, (hN r hr).2⟩
  have hsettle := reclaims_settle hu h.linked ho
  have hreach : ∀ r, Needed s held O r →
      (u.settle held).Node (u.settle held).candidates r → (u.settle held).Reached held r := by
    intro r hr hn
    refine hr.reached (fun r hr => ((hu r hr).2).trans (h.cell r hr))
      (fun i => by rw [hsame.scope, hrefs]) (fun i => by rw [hsame.scope, hlease])
      (fun i hi => ?_) (hsame.globalLease.trans h.globalLease) ho hn
    rw [hsame.scope]
    exact (h.opened i).2 hi
  have hcollect := (collects_collect ho).reclaims ho hsettle.linked
    (fun r hr => mem_cells_of_cell? (hu r hr).2 (hu r hr).1) hreach
  refine h.trans (hsettle.trans (hcollect.congr fun i => ?_))
  rw [hsame.scope]
  exact h.opened i

/-! ## A store that reclaims tracks its twin -/

/-- The first store reclaimed what is not needed and still tracks the second. The scopes of `O` have
    the twins they had. -/
structure Shrinks (G : Ref → Prop) (held : List Ref) (O : ScopeId → Prop) (s t v : Store) :
    Prop where
  tracks : Tracks (Needed s held O) v t
  reclaims : Reclaims (Needed s held O) s O v
  twin : ∀ i j, O i → Twin G s t i j → Twin (Needed s held O) v t i j

theorem Reclaims.twin (hv : Reclaims N s O v) (hi : O i) (hij : Twin G s t i j) :
    Twin N v t i j := by
  obtain ⟨r, hr, hj, _⟩ := hij
  have ho := (hv.opened i).2 hi
  exact ⟨r, (hv.lease (.inl ho)).trans hr, hj, .inl ho⟩

section

variable (h : Tracks G s t) (hheld : Good G held) (hO : ∀ i, O i → (s.scope i).released = false)
  (hv : Reclaims (Needed s held O) s O v)
include h hheld hO hv

theorem Tracks.inUse_of_reclaims (hij : Twin (Needed s held O) v t i j) : v.InUse i := by
  obtain ⟨r, hi, _, ho | hr⟩ := hij
  · exact .inl ho
  · have hm := h.mem_cells (hr.good h hheld hO)
    exact .inr (liveLease?_isSome.2 ⟨r, hi, mem_cells_of_cell? (hv.cell r hr) hm⟩)

theorem Tracks.twin_of_reclaims (hij : Twin (Needed s held O) v t i j) : Twin G s t i j := by
  have hi := hv.lease (h.inUse_of_reclaims hheld hO hv hij)
  obtain ⟨r, hr, hj, hgo⟩ := hij
  refine ⟨r, hi ▸ hr, hj, ?_⟩
  rcases hgo with ho | hg
  · exact .inl (hO i ((hv.opened i).1 ho))
  · exact .inr (hg.good h hheld hO)

/-- Every scope that is still open must be under one that is open, or hold a lease of the one
    above. -/
theorem Tracks.sameScope_of_reclaims (hanchor : ∀ i p, O i → (s.scope i).parent = some p →
      O p ∨ ∃ r ∈ held, (s.scope p).lease = some r) (hij : Twin (Needed s held O) v t i j) :
    SameScope (Needed s held O) v t i j := by
  have hi := h.inUse_of_reclaims hheld hO hv hij
  have hsame := h.scope i j (h.twin_of_reclaims hheld hO hv hij)
  have hscope := hv.same i hi
  refine ⟨by rw [hscope, hsame.bindings], by rw [hscope, hsame.kind], fun r hr => ?_, ?_⟩
  · rw [hscope] at hr
    obtain ⟨x, hx, _, ho | hg⟩ := hij
    · exact .bound ((hv.opened i).1 ho) hr
    · exact .leased hg (hv.lease hi ▸ hx) hr
  · have hrel := hsame.parent
    rw [hv.parent hi]
    generalize hp : (s.scope i).parent = above, (t.scope j).parent = above' at hrel
    cases hrel with
    | none => exact .none
    | @some p q hpq =>
      obtain ⟨b, hb, hq, _⟩ := hpq
      have hup := hv.orderly.upward i p hi (by rw [hv.parent hi, hp])
      refine .some ⟨b, (hv.lease hup).trans hb, hq, ?_⟩
      obtain ⟨x, hx, _, ho | hg⟩ := hij
      · rcases hanchor i p ((hv.opened i).1 ho) hp with hop | ⟨y, hy, hpy⟩
        · exact .inl ((hv.opened p).2 hop)
        · cases hb.symm.trans hpy
          exact .inr (.held hy)
      · -- a needed lease refers to the one above it
        have hx := hv.lease hi ▸ hx
        have hcell := h.orderly.leases.isLease i x
          (liveLease?_eq_some.2 ⟨hx, h.mem_cells (hg.good h hheld hO)⟩)
        refine .inr (.inside hg hcell ?_)
        simp [Cell.refs, Cell.links, leaseAbove, hp, hb]

/-- A store that reclaimed nothing that is needed. -/
theorem Tracks.reclaim (hlim : Limits v) (hanchor : ∀ i p, O i → (s.scope i).parent = some p →
      O p ∨ ∃ r ∈ held, (s.scope p).lease = some r) : Shrinks G held O s t v := by
  have hgood : ∀ {r}, Needed s held O r → G r := Needed.good h hheld hO
  refine ⟨⟨hv.orderly, hv.linked, hlim, ?_, h.leases, h.free, h.next.trans hv.next.symm,
    h.globalLease.trans hv.globalLease.symm, hv.globalLease ▸ .globalLease, ?_, ?_, ?_,
    fun i j => h.sameScope_of_reclaims hheld hO hv hanchor, ?_⟩, hv, fun i j hi => hv.twin hi⟩
  · intro i p a b hi hp ha hb
    have hu := hv.orderly.upward i p hi hp
    rw [hv.parent hi] at hp
    exact h.older i p a b (hv.inUse i hi) hp (hv.lease hi ▸ ha) (hv.lease hu ▸ hb)
  · intro r hr
    obtain ⟨c, d, hc, hd, hcd⟩ := h.cell r (hgood hr)
    refine ⟨c, d, (hv.cell r hr).trans hc, hd, hcd.mono (fun i hi => ?_) fun _ hj => hj⟩
    exact (hv.lease (hv.kept i r hr hi)).trans hi
  · intro r c hr hc q hq
    exact .inside hr (hv.cell r hr ▸ hc) hq
  · intro r c hr hc q hq
    have hc := hv.cell r hr ▸ hc
    obtain ⟨i, above, hl⟩ := h.handles r c (hgood hr) hc q hq
    exact ⟨i, above, (hv.cell q (.inside hr hc (Cell.mem_refs_of_handles hq))).trans hl⟩
  · intro i ho
    have hi := (hv.opened i).1 ho
    obtain ⟨j, hij⟩ := h.met i (hO i hi)
    exact ⟨j, hv.twin hi hij⟩

end

def Anchored (s : Store) (held : List Ref) : Prop :=
  ∀ i p, (s.scope i).released = false → (s.scope i).parent = some p →
    (s.scope p).released = false ∨ ∃ r ∈ held, (s.scope p).lease = some r

theorem Tracks.orderly_settle (h : Tracks G s t) (hheld : Good G held) (ha : Anchored s held) :
    Orderly (s.settle held) := by
  refine h.orderly.settle fun i p ho hp => ?_
  have hsame := sameScopes_settle s held
  rcases ha i p ho hp with hop | ⟨r, hr, hpr⟩
  · exact .inl (by rw [hsame.scope, hop])
  · exact .inr (liveLease?_isSome.2 ⟨r, by rw [hsame.scope, hpr],
      mem_settle_of_held (h.mem_cells (hheld r hr)) (.inr hr)⟩)

theorem Tracks.needed_settle (h : Tracks G s t) (hheld : Good G held)
    (hO : ∀ i, O i → (s.scope i).released = false) :
    ∀ r, Needed s held O r → r ∈ s.cells ∧ (s.settle held).cell? r = s.cell? r :=
  fun _ hr => ⟨h.mem_cells (hr.good h hheld hO), hr.cell?_settle⟩

/-- A collection leaves a store tracking its twin. -/
theorem Tracks.collect (h : Tracks G s t) (hheld : Good G held) (ha : Anchored s held) :
    let O := fun i => (s.scope i).released = false
    Shrinks G held O s t (s.collect held) := by
  intro O
  have hs := h.orderly_settle hheld ha
  have hN := h.needed_settle hheld (O := O) fun _ hi => hi
  refine h.reclaim hheld (fun _ hi => hi) ?_ (collects_collect hs).limits ha
  have hrefl := Reclaims.refl h.orderly h.linked fun r hr => (hN r hr).1
  exact hrefl.collect hN (fun _ => rfl) (fun _ => rfl) hs

/-- So does releasing a scope, if nothing runs under it. -/
theorem Tracks.release (h : Tracks G s t) (hheld : Good G held) (ha : Anchored s held)
    (hopen : (s.scope i).released = false)
    (hbelow : ∀ j, (s.scope j).released = false → (s.scope j).parent ≠ some i) :
    let O := fun j => (s.scope j).released = false ∧ j ≠ i
    Shrinks G held O s t (s.release held i) := by
  intro O
  have hs := h.orderly_settle hheld ha
  have hN := h.needed_settle hheld (O := O) fun _ hi => hi.1
  have hN' : ∀ r, Needed s held O r → r ∈ (s.settle held).cells := fun r hr =>
    mem_cells_of_cell? (hN r hr).2 (hN r hr).1
  have hsame := sameScopes_settle s held
  have hopen' : ((s.settle held).scope i).released = false := by rw [hsame.scope, hopen]
  obtain ⟨horder, hlinked, hlim⟩ := h.orderly.release h.linked h.limits hs hbelow
  have hsettle := reclaims_settle hN h.linked hs
  have hO : ∀ j, ((s.settle held).scope j).released = false ∧ j ≠ i ↔ O j := by
    intro j
    rw [hsame.scope]
  refine h.reclaim hheld (fun _ hi => hi.1) ?_ hlim fun j p hj hp => ?_
  · rcases release_cases held hopen (h.orderly.places.lt_of_open hopen).1 with
      ⟨hnone, hf⟩ | ⟨hnone, hf⟩ | ⟨hsome, u, hu, ⟨_, he⟩ | he⟩
    · exact hf.reclaims horder hlinked (fun r hr => (hN r hr).1) hnone
    · exact hsettle.trans ((hf.reclaims horder hlinked hN' hnone).congr hO)
    · rw [he] at horder hlinked ⊢
      exact hsettle.trans ((hu.reclaims horder hlinked hN' hsome).congr hO)
    · -- the scope is retained, and then the collection comes
      have horder' := hu.orderly hs hopen' hsome
      have hlinked' := hu.linked (linked_settle h.linked held)
      have hkept := hsettle.trans ((hu.reclaims horder' hlinked' hN' hsome).congr hO)
      rw [he]
      refine hkept.collect (fun r hr => ⟨(hN r hr).1, hu.settled h.linked r⟩) (fun j => ?_)
        (fun j => ?_) (hu.orderly_settle h.linked hs hopen' hsome)
      · rw [hu.refs, hsame.scope]
      · rw [hu.lease, hsame.scope]
  · rcases ha j p hj.1 hp with hop | hr
    · exact .inl ⟨hop, fun e => hbelow j hj.1 (e ▸ hp)⟩
    · exact .inr hr

/-- The twin only marks the scope, which nothing looks at. -/
theorem Tracks.retire (h : Tracks G s t) (hj : j < t.scopes.size) :
    Tracks G s (t.retire j) ∧ ∀ i k, Twin G s (t.retire j) i k ↔ Twin G s t i k := by
  have ht := retires_retire t hj
  generalize t.retire j = t' at ht
  have htwin : ∀ i k, Twin G s t' i k ↔ Twin G s t i k := by
    intro i k
    simp only [Twin, ht.lease]
  refine ⟨⟨h.orderly, h.linked, h.limits, h.older, ht.leases h.leases, ht.free.trans h.free,
    ht.next.trans h.next, ht.globalLease.trans h.globalLease, h.global, ?_, h.closed,
    h.handles, ?_, ?_⟩, htwin⟩
  · intro r hr
    obtain ⟨c, d, hc, hd, hcd⟩ := h.cell r hr
    refine ⟨c, d, hc, ?_, hcd.mono (fun _ hi => hi) fun k hk => (ht.lease k).trans hk⟩
    rw [cell?, ht.cells]
    exact hd
  · intro i k hik
    have hsame := h.scope i k ((htwin i k).1 hik)
    have hscope : (t'.scope k).bindings = (t.scope k).bindings ∧
        (t'.scope k).kind = (t.scope k).kind := by
      rw [ht.scope]
      split
      next hk => rw [hk]; exact ⟨rfl, rfl⟩
      next => exact ⟨rfl, rfl⟩
    refine ⟨hscope.1.trans hsame.bindings, hscope.2.trans hsame.kind, hsame.good, ?_⟩
    rw [ht.parent]
    exact rel_mono hsame.parent fun i k => (htwin i k).2
  · intro i ho
    obtain ⟨k, hik⟩ := h.met i ho
    exact ⟨k, (htwin i k).2 hik⟩

end TinyScript.Store
