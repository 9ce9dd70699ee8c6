/-
  TinyScript.Proofs.Store.Remaining — from where a scope is kept that a collection leaves.

  After a collection a path leads to the lease of every retained scope, along what cells refer to
  and what scopes bind (`ComesTo`). It starts at what is held, at the lease of a scope above one
  that runs, at what a scope binds that is not retained, at what a native function keeps, at a
  circle of cells that no scope comes to, or at what a forsaken scope bound: a scope that was freed
  because nobody held its lease, but was still counted (`Source`).
-/

import Mathlib.Order.WellFoundedSet
import TinyScript.Proofs.Store.Unreachable

namespace TinyScript.Store

open Relation

variable {s t u : Store} {held : List Ref} {i : ScopeId} {r x y : Ref}

/-! ## Paths -/

/-- A cell refers to another, or it is the lease of a scope in which the other is bound. -/
inductive PointsTo (s : Store) : Ref → Ref → Prop
  | cell {x y : Ref} {c : Cell} : s.cell? x = some c → Edge c y → PointsTo s x y
  | scope {i : ScopeId} {x y : Ref} : (s.scope i).lease = some x → s.Binds i y → PointsTo s x y

def ComesTo (s : Store) : Ref → Ref → Prop := ReflTransGen s.PointsTo

def OnCircle (s : Store) (r : Ref) : Prop := TransGen (fun x y => y ∈ s.linksAt x) r r

def HeldOpen (s : Store) (r : Ref) : Prop :=
  ∃ i x, (s.scope i).released = false ∧ s.Binds i x ∧ s.ComesTo x r

theorem mem_linksAt_iff_edge : y ∈ s.linksAt x ↔ ∃ c, s.cell? x = some c ∧ Edge c y := by
  simp only [mem_linksAt, mem_links]

theorem pointsTo_of_linksAt (h : y ∈ s.linksAt x) : s.PointsTo x y := by
  obtain ⟨c, hc, he⟩ := mem_linksAt_iff_edge.1 h
  exact .cell hc he

/-- The receiver of a method, or what a function of the host keeps. -/
def KeptByNative (s : Store) (r : Ref) : Prop :=
  ∃ x n v, s.cell? x = some (.native n) ∧ n.held? = some v ∧ v.ref? = some r

/-- Where a path to a retained scope starts when a collection made `t` of `s`. -/
inductive Source (s t : Store) (held : List Ref) : Ref → Prop
  | globalLease : Source s t held s.globalLease
  | held {r : Ref} : r ∈ held → Source s t held r
  | above {i : ScopeId} {r : Ref} : s.Above i → i ∈ s.retained → (s.scope i).lease = some r →
    Source s t held r
  | bound {i : ScopeId} {r : Ref} : (t.scope i).released = false → t.Binds i r → Source s t held r
  | native {r : Ref} : t.KeptByNative r → Source s t held r
  | circle {r : Ref} : t.OnCircle r → (∀ i y, t.Binds i y → ¬ t.ComesTo y r) → Source s t held r
  | forsaken {i : ScopeId} {r : Ref} : i ∈ s.forsaken → s.Binds i r → Source s t held r

/-! ## Who holds a cell -/

def Precedes (R : Ref → Ref → Prop) (x y : Ref) : Prop := TransGen R x y ∧ ¬ TransGen R y x

instance (R : Ref → Ref → Prop) : IsStrictOrder Ref (Precedes R) where
  irrefl _ h := h.2 h.1
  trans _ _ _ hxy hyz := ⟨hxy.1.trans hyz.1, fun hzx => hxy.2 (hyz.1.trans hzx)⟩

/-- Going back from one of finitely many cells to another, one comes to where it starts or to a
    circle. -/
theorem exists_start_or_circle {R : Ref → Ref → Prop} {P Q : Ref → Prop} {n : Ref}
    (hlt : ∀ y, Q y → y < n) (hback : ∀ y, Q y → P y ∨ ∃ x, R x y ∧ Q x) (hy : Q y) :
    ∃ x, ReflTransGen R x y ∧ (P x ∨ TransGen R x x) := by
  have hwf : (Set.Iio n).WellFoundedOn (Precedes R) := (Set.finite_Iio n).wellFoundedOn
  refine hwf.induction (P := fun y => Q y → ∃ x, ReflTransGen R x y ∧ (P x ∨ TransGen R x x))
    (hlt y hy) (fun y _ ih hy => ?_) hy
  rcases hback y hy with hp | ⟨x, hxy, hx⟩
  · exact ⟨y, .refl, .inl hp⟩
  · by_cases hcircle : TransGen R x x
    · exact ⟨x, .single hxy, .inr hcircle⟩
    · have hbefore : Precedes R x y := ⟨.single hxy, fun hyx => hcircle (.head hxy hyx)⟩
      obtain ⟨z, hz, hstart⟩ := ih x (hlt x hx) hbefore hx
      exact ⟨z, hz.tail hxy, hstart⟩

/-- A cell that keeps another is followed, or it is a native function. -/
theorem mem_linksAt_or_keptByNative (h : r ∈ s.refsAt x) : r ∈ s.linksAt x ∨ s.KeptByNative r := by
  obtain ⟨c, hc, hr⟩ := mem_refsAt.1 h
  cases c with
  | native n =>
    obtain ⟨v, hv, hr⟩ := mem_refs_native.1 hr
    exact .inr ⟨x, n, v, hc, hv, hr⟩
  | _ => exact .inl (mem_linksAt.2 ⟨_, hc, hr⟩)

/-- A cell is held directly: from outside the store, by a scope, or by a native function. -/
def HeldAt (s : Store) (held : List Ref) (r : Ref) : Prop :=
  (r = s.globalLease ∨ r ∈ held) ∨ (∃ i, r ∈ (s.scope i).refs) ∨ s.KeptByNative r

/-- Every cell of a settled store is kept by one that is held, or by a circle. -/
theorem exists_heldAt_or_circle (hl : Linked u) (hlt : ∀ r ∈ (u.settle held).cells, r < u.next)
    (hx : x ∈ (u.settle held).cells) :
    ∃ y, ReflTransGen (fun x y => y ∈ (u.settle held).linksAt x) y x ∧
      ((u.settle held).HeldAt held y ∨ (u.settle held).OnCircle y) := by
  refine exists_start_or_circle hlt (fun y hy => ?_) hx
  by_cases h0 : (u.settle held).counts.of y = 0
  · have hg := (sameScopes_settle u held).globalLease
    exact .inl (.inl (hg ▸ settle_complete hl hy h0))
  · rcases counts_pos.1 (Nat.pos_of_ne_zero h0) with hscope | ⟨z, c, hc, hyz⟩
    · exact .inl (.inr (.inl hscope))
    · rcases mem_linksAt_or_keptByNative (mem_refsAt.2 ⟨c, hc, hyz⟩) with hlink | hnative
      · exact .inr ⟨z, hlink, mem_cells.2 ⟨c, hc⟩⟩
      · exact .inl (.inr (.inr hnative))

/-! ## What a collection leaves -/

theorem Node.link {ids : List ScopeId} (h : s.Node ids x) (hy : y ∈ s.linksAt x) :
    s.Node ids y := by
  obtain ⟨i, hi, r, hr, hx⟩ := h
  exact ⟨i, hi, r, hr, hx.tail (mem_follow_of_linksAt hy)⟩

/-- What a candidate binds is in the graph. -/
theorem node_of_bound (ho : Orderly s) (hi : i ∈ s.candidates) (hy : y ∈ (s.scope i).refs) :
    s.Node s.candidates y := by
  obtain ⟨x, hx⟩ := Option.isSome_iff_exists.1 (mem_candidates.1 hi).2
  refine ⟨i, hi, x, hx, .single ?_⟩
  rw [follow, successors_eq, List.mem_append]
  exact .inl ((mem_boundAt (apart_candidates ho.places ho.leases)).2 ⟨i, hi, hx, hy⟩)

/-- A scope that binds something runs or is retained. -/
theorem Places.open_or_retained (hp : Places s) (hy : y ∈ (s.scope i).refs) :
    (s.scope i).released = false ∨ i ∈ s.retained := by
  cases hrel : (s.scope i).released with
  | false => exact .inl rfl
  | true =>
    refine .inr ((hp.mem_retained i).2 ⟨?_, hrel, fun hf => ?_⟩)
    · by_contra hlt
      rw [scope_of_ge (Nat.not_lt.1 hlt)] at hy
      simp [Scope.refs, Scope.vacant, mapRefs] at hy
    · rw [hp.vacant i hf] at hy
      simp [vacated, Scope.refs, Scope.vacant, mapRefs] at hy

namespace Collects

variable (h : Collects s held t)
include h

/-- Nothing is changed outside of the graph. -/
theorem linksAt_eq (hx : ¬ s.Node s.candidates x) : t.linksAt x = s.linksAt x := by
  rw [linksAt, linksAt, h.same x fun hn => absurd hn hx]

/-- Cells that are emptied refer to nothing new. -/
theorem mem_linksAt (hy : y ∈ t.linksAt x) : y ∈ s.linksAt x := by
  by_cases hx : s.Node s.candidates x → s.Reached held x
  · rwa [linksAt, h.same x hx] at hy
  · rw [Classical.not_imp] at hx
    obtain ⟨c, hc, hy⟩ := Store.mem_linksAt.1 hy
    rw [h.emptied x hx.1 hx.2] at hc
    obtain ⟨d, hd, rfl⟩ := Option.map_eq_some_iff.1 hc
    refine Store.mem_linksAt.2 ⟨d, hd, ?_⟩
    cases d with
    | array => simp [Cell.emptied, Cell.links] at hy
    | object k fields =>
      have hk : y = k := by simpa [Cell.emptied, Cell.links, mapRefs] using hy
      exact List.mem_cons.2 (.inl hk)
    | _ => exact hy

theorem keptByNative (hr : s.KeptByNative r) : t.KeptByNative r := by
  obtain ⟨x, n, v, hx, hv⟩ := hr
  refine ⟨x, n, v, ?_, hv⟩
  by_cases hn : s.Node s.candidates x → s.Reached held x
  · rw [h.same x hn, hx]
  · rw [Classical.not_imp] at hn
    rw [h.emptied x hn.1 hn.2, hx]
    rfl

/-- What leads on from a node that is reached is still there. -/
theorem pointsTo_of_follow (ho : Orderly s) (hx : s.Reached held x)
    (hy : y ∈ s.follow s.candidates x) : t.PointsTo x y := by
  rw [follow, successors_eq, List.mem_append,
    mem_boundAt (apart_candidates ho.places ho.leases)] at hy
  rcases hy with ⟨i, hi, hlease, hy⟩ | hy
  · have hsame : t.scope i = s.scope i := h.kept i fun _ => ⟨x, hlease, hx⟩
    refine .scope (i := i) (by rw [hsame]; exact (liveLease?_eq_some.1 hlease).1) ?_
    rw [binds_iff, hsame]
    exact hy
  · apply pointsTo_of_linksAt
    rwa [linksAt, h.same x fun _ => hx]

theorem comesTo_of_leads (ho : Orderly s) (hx : s.Reached held x)
    (hy : Leads (s.follow s.candidates) x y) : t.ComesTo x y := by
  induction hy with
  | refl => exact .refl
  | tail hxy hyz ih =>
    obtain ⟨r, hr, hrx⟩ := hx
    exact ih.tail (h.pointsTo_of_follow ho ⟨r, hr, hrx.trans hxy⟩ hyz)

/-- References between cells that are not in the graph are as they were. -/
theorem links_outside (hy : ¬ s.Node s.candidates y)
    (hxy : ReflTransGen (fun x y => y ∈ s.linksAt x) x y) :
    ¬ s.Node s.candidates x ∧ ReflTransGen (fun x y => y ∈ t.linksAt x) x y := by
  induction hxy using ReflTransGen.head_induction_on with
  | refl => exact ⟨hy, .refl⟩
  | head hxz _ ih =>
    have hx := fun hn : s.Node s.candidates _ => ih.1 (hn.link hxz)
    exact ⟨hx, .head (by rwa [h.linksAt_eq hx]) ih.2⟩

/-- A circle outside of the graph is as it was. -/
theorem onCircle (hy : ¬ s.Node s.candidates y) (hc : s.OnCircle y) : t.OnCircle y := by
  obtain ⟨x, hyx, hxy⟩ := TransGen.tail'_iff.1 hc
  have hx : ¬ s.Node s.candidates x := fun hn => hy (hn.link hxy)
  have hlast : y ∈ t.linksAt x := by rwa [h.linksAt_eq hx]
  exact TransGen.tail'_iff.2 ⟨x, (h.links_outside hx hyx).2, hlast⟩

variable (ho : Orderly s)
include ho

/-- Whatever binds something after a collection runs, or is a candidate that stays. -/
theorem binds_cases (hb : t.Binds i y) : t.scope i = s.scope i ∧
    ((t.scope i).released = false ∨ i ∈ s.candidates ∧ y ∈ (s.scope i).refs) := by
  rw [binds_iff] at hb
  rcases h.scope_cases i with ⟨_, _, hv⟩ | ⟨hstays, he⟩
  · rw [hv] at hb
    simp [vacated, Scope.refs, Scope.vacant, mapRefs] at hb
  · rw [he] at hb ⊢
    refine ⟨rfl, (ho.places.open_or_retained hb).imp_right fun hi => ?_⟩
    exact ⟨(hstays hi).mem_candidates hi, hb⟩

/-- A path from what a scope binds stays in the graph, or it comes through a scope that runs. -/
theorem node_or_heldOpen (hb : t.Binds i x) (hxy : t.ComesTo x y) :
    s.Node s.candidates y ∨ t.HeldOpen y := by
  induction hxy with
  | refl =>
    rcases (h.binds_cases ho hb).2 with hopen | ⟨hi, hx⟩
    · exact .inr ⟨i, x, hopen, hb, .refl⟩
    · exact .inl (node_of_bound ho hi hx)
  | tail _ hyz ih =>
    rcases ih with hnode | ⟨j, b, hopen, hb, hby⟩
    · cases hyz with
      | cell hc he => exact .inl (hnode.link (h.mem_linksAt (mem_linksAt_iff_edge.2 ⟨_, hc, he⟩)))
      | @scope j _ _ _ hz =>
        rcases (h.binds_cases ho hz).2 with hopen | ⟨hj, hz'⟩
        · exact .inr ⟨j, _, hopen, hz, .refl⟩
        · exact .inl (node_of_bound ho hj hz')
    · exact .inr ⟨j, b, hopen, hb, hby.tail hyz⟩

/-- What a scope binds that is no candidate is where a path starts. -/
theorem source_of_bound (hi : i ∉ s.candidates) (hr : r ∈ (s.scope i).refs) :
    Source s t held r := by
  rcases ho.places.open_or_retained hr with hopen | hret
  · have hsame := h.kept i fun hret => absurd hret (ho.places.not_retained hopen)
    refine .bound (i := i) (by rw [hsame, hopen]) ?_
    rw [binds_iff, hsame]
    exact hr
  · exact .forsaken ((mem_candidates_or_forsaken hret).resolve_left hi) (binds_iff.2 hr)

end Collects

variable (hl : Linked u) (ho : Orderly (u.settle held)) (h : Collects (u.settle held) held t)
include hl ho h

/-- Whatever refers to a node from outside of the graph, a path to it has a start. -/
theorem exists_source_of_outside (hx : ¬ (u.settle held).Node (u.settle held).candidates x)
    (hr : r ∈ (u.settle held).linksAt x) :
    ∃ y, t.ComesTo y r ∧ Source (u.settle held) t held y := by
  have hmem : x ∈ (u.settle held).cells := by
    obtain ⟨c, hc, _⟩ := mem_linksAt.1 hr
    exact mem_cells.2 ⟨c, hc⟩
  have hlt := ho.leases.cellLt
  rw [settle_next] at hlt
  obtain ⟨y, hyx, hy⟩ := exists_heldAt_or_circle hl hlt hmem
  obtain ⟨hnode, hpath⟩ := h.links_outside hx hyx
  have hyr : t.ComesTo y r := by
    have hlinks := hpath.tail (by rwa [h.linksAt_eq hx])
    exact ReflTransGen.mono (fun _ _ => pointsTo_of_linksAt) _ _ hlinks
  rcases hy with ((rfl | hheld) | ⟨i, hi⟩ | hnative) | hcircle
  · exact ⟨_, hyr, .globalLease⟩
  · exact ⟨y, hyr, .held hheld⟩
  · exact ⟨y, hyr, h.source_of_bound ho (fun hc => hnode (node_of_bound ho hc hi)) hi⟩
  · exact ⟨y, hyr, .native (h.keptByNative hnative)⟩
  · by_cases hopen : t.HeldOpen y
    · obtain ⟨i, b, hopen, hb, hby⟩ := hopen
      exact ⟨b, hby.trans hyr, .bound hopen hb⟩
    · refine ⟨y, hyr, .circle (h.onCircle hnode hcircle) fun i b hb hby => ?_⟩
      exact (h.node_or_heldOpen ho hb hby).elim hnode hopen

/-- A path leads to every scope that stays, from where one can start. -/
theorem exists_source_of_stays (hi : (u.settle held).Stays held i) :
    ∃ root r, ((u.settle held).scope i).lease = some r ∧ t.ComesTo root r ∧
      Source (u.settle held) t held root := by
  obtain ⟨r, hlive, root, hroot, hlead⟩ := hi
  have hpath : t.ComesTo root r := h.comesTo_of_leads ho ⟨root, hroot, .refl⟩ hlead
  have hlease := (liveLease?_eq_some.1 hlive).1
  rcases hroot with ⟨_, (rfl | hheld) | ⟨j, hj, hb⟩ | ⟨x, hx, hout⟩⟩ | ⟨j, hj, habove, hroot⟩
  · exact ⟨_, r, hlease, hpath, .globalLease⟩
  · exact ⟨root, r, hlease, hpath, .held hheld⟩
  · exact ⟨root, r, hlease, hpath, h.source_of_bound ho hj hb⟩
  · rcases mem_linksAt_or_keptByNative hx with hlink | hnative
    · obtain ⟨y, hy, hsource⟩ := exists_source_of_outside hl ho h (fun hn => hout hn hlink) hlink
      exact ⟨y, r, hlease, hy.trans hpath, hsource⟩
    · exact ⟨root, r, hlease, hpath, .native (h.keptByNative hnative)⟩
  · exact ⟨root, r, hlease, hpath, .above habove (mem_candidates.1 hj).1
      (liveLease?_eq_some.1 hroot).1⟩

end TinyScript.Store
