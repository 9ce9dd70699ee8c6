/-
  TinyScript.Proofs.Store.Graph — a graph that is numbered as it is found.

  A collection may find its graph piece by piece: each node gets the next number, waits until it is
  looked into, and then brings its references along, which are counted and noted as edges from
  number to number. In between, a node that waits has only what is bound in its scope, and every
  other one all its references (`Underway`); looking into a node keeps that (`Underway.look`).

  At the end no node waits. Then there is one node for everything that the leases lead to, with each
  of its references as often as it has it (`Exact`). So what was counted is how often the nodes
  refer to each other (`Exact.internal_eq`), and edges lead where references do (`Exact.mem_mark`),
  in whatever order all this was found.
-/

import Mathlib.Data.List.Nodup
import TinyScript.Proofs.Store.Collecting

namespace TinyScript

open Store (Leads reach)

variable {all : Finset Ref}

structure Graph where
  /-- The nodes, each at its number. -/
  nodes : List Ref
  /-- How often each node was referred to so far, by its number. -/
  internal : Counts
  /-- The references met so far, from number to number, the last one first. -/
  edges : List (Nat × Nat)
  /-- The nodes that were not looked into yet, by their number. -/
  pending : List Nat

namespace Graph

variable {g g' g'' : Graph} {r x y : Ref} {i j : Nat} {rs leases : List Ref}
  {bound links next : Ref → List Ref}

def empty : Graph := ⟨[], ∅, [], []⟩

def number (g : Graph) (r : Ref) : Nat := g.nodes.idxOf r

def insert (g : Graph) (r : Ref) : Graph :=
  if r ∈ g.nodes then g
  else { g with nodes := g.nodes ++ [r], pending := g.nodes.length :: g.pending }

def link (g : Graph) (i : Nat) (r : Ref) : Graph :=
  let g := g.insert r
  { g with internal := g.internal.add (g.number r), edges := (i, g.number r) :: g.edges }

def linkAll (g : Graph) (i : Nat) (rs : List Ref) : Graph := rs.foldl (fun g r => g.link i r) g

def look (links : Ref → List Ref) (g : Graph) : Graph :=
  match g.pending with
  | i :: rest => { g with pending := rest }.linkAll i ((g.nodes[i]?.map links).getD [])
  | [] => g

def expand (links : Ref → List Ref) : Nat → Graph → Graph
  | n + 1, g => expand links n (g.look links)
  | 0, g => g

def seed (leases : List Ref) (bound : Ref → List Ref) : Graph :=
  let g := leases.foldl insert empty
  g.nodes.foldl (fun h r => h.linkAll (h.number r) (bound r)) g

def external (g : Graph) (count : Ref → Nat) : List Nat :=
  (g.nodes.filter fun r => g.internal.of (g.number r) < count r).map g.number

def targets (g : Graph) (i : Nat) : List Nat := (g.edges.filter (·.1 = i)).map (·.2)

def mark (g : Graph) (roots : List Nat) : RefSet :=
  reach g.targets (roots.length + g.edges.length) roots ∅

def refs (g : Graph) (x : Ref) : List Ref := (g.targets (g.number x)).filterMap (g.nodes[·]?)

/-! ## Numbers -/

theorem number_lt (hx : x ∈ g.nodes) : g.number x < g.nodes.length := List.idxOf_lt_length_iff.2 hx

theorem number_of_not_mem (hx : x ∉ g.nodes) : g.number x = g.nodes.length :=
  List.idxOf_eq_length hx

theorem getElem?_number (hx : x ∈ g.nodes) : g.nodes[g.number x]? = some x := by
  rw [List.getElem?_eq_getElem (number_lt hx)]
  exact congrArg some (List.getElem_idxOf (number_lt hx))

theorem number_inj (hx : x ∈ g.nodes) (h : g.number x = g.number y) : x = y :=
  (List.idxOf_inj hx).1 h

/-- A node keeps its number while others are added behind it. -/
theorem number_stays (h : g.nodes <+: g'.nodes) (hx : x ∈ g.nodes) :
    g'.number x = g.number x := by
  obtain ⟨more, hmore⟩ := h
  rw [number, ← hmore, List.idxOf_append_of_mem hx]
  rfl

/-- Numbers below are taken by other nodes. -/
theorem length_le_number (h : g.nodes <+: g'.nodes) (hx : x ∉ g.nodes) :
    g.nodes.length ≤ g'.number x := by
  obtain ⟨more, hmore⟩ := h
  rw [number, ← hmore, List.idxOf_append_of_notMem hx]
  exact Nat.le_add_right _ _

/-! ## What each step does -/

/-- The graph is in order: every node has one number, edges go from number to number, and references
    were counted as they were met. -/
structure Wf (g : Graph) : Prop where
  nodup : g.nodes.Nodup
  edges : ∀ e ∈ g.edges, e.1 < g.nodes.length ∧ e.2 < g.nodes.length
  internal : ∀ i, g.internal.of i = (g.edges.map Prod.snd).count i
  pendingNodup : g.pending.Nodup
  pending : ∀ i ∈ g.pending, i < g.nodes.length

theorem wf_empty : Wf empty := ⟨.nil, nofun, fun _ => rfl, .nil, nofun⟩

structure Grows (g g' : Graph) : Prop where
  nodes : g.nodes <+: g'.nodes
  pending : ∀ i < g.nodes.length, i ∈ g'.pending ↔ i ∈ g.pending
  fresh : ∀ x ∈ g'.nodes, x ∉ g.nodes → g'.number x ∈ g'.pending

namespace Grows

theorem refl (g : Graph) : Grows g g :=
  ⟨List.prefix_refl _, fun _ _ => .rfl, fun _ hx hno => absurd hx hno⟩

theorem mem (h : Grows g g') (hx : x ∈ g.nodes) : x ∈ g'.nodes := h.nodes.subset hx

theorem number (h : Grows g g') (hx : x ∈ g.nodes) : g'.number x = g.number x :=
  number_stays h.nodes hx

theorem trans (h : Grows g g') (k : Grows g' g'') : Grows g g'' := by
  refine ⟨h.nodes.trans k.nodes, fun i hi => ?_, fun x hx hno => ?_⟩
  · rw [k.pending i (Nat.lt_of_lt_of_le hi h.nodes.length_le), h.pending i hi]
  · by_cases hm : x ∈ g'.nodes
    · rw [k.number hm, k.pending _ (number_lt hm)]
      exact h.fresh x hm hno
    · exact k.fresh x hx hm

end Grows

theorem mem_nodes_insert : x ∈ (g.insert r).nodes ↔ x ∈ g.nodes ∨ x = r := by
  unfold insert
  split
  next hr => exact ⟨.inl, fun h => h.elim id fun e => e ▸ hr⟩
  next => simp

theorem edges_insert : (g.insert r).edges = g.edges := by
  unfold insert
  split <;> rfl

theorem grows_insert (g : Graph) (r : Ref) : Grows g (g.insert r) := by
  unfold insert
  split
  next => exact .refl g
  next hr =>
    refine ⟨List.prefix_append _ _, fun i hi => ?_, fun x hx hno => ?_⟩
    · simp [Nat.ne_of_lt hi]
    · have hx : x = r := by simpa [hno] using hx
      subst hx
      simp [number, List.idxOf_append_of_notMem hno]

theorem Wf.insert (h : Wf g) (r : Ref) : Wf (g.insert r) := by
  unfold Graph.insert
  split
  next => exact h
  next hr =>
    refine ⟨?_, fun e he => ?_, h.internal, ?_, fun i hi => ?_⟩
    · simpa using h.nodup.concat hr
    · obtain ⟨h1, h2⟩ := h.edges e he
      simp only [List.length_append, List.length_singleton]
      omega
    · exact List.nodup_cons.2 ⟨fun hm => Nat.lt_irrefl _ (h.pending _ hm), h.pendingNodup⟩
    · simp only [List.length_append, List.length_singleton]
      rcases List.mem_cons.1 hi with rfl | hi
      · omega
      · have := h.pending i hi
        omega

structure Links (g g' : Graph) (y : Ref) (rs : List Ref) : Prop where
  wf : Wf g'
  grows : Grows g g'
  mem_nodes : ∀ x, x ∈ g'.nodes ↔ x ∈ g.nodes ∨ x ∈ rs
  refs : ∀ x, g'.refs x = if x = y then rs.reverse ++ g.refs x else g.refs x
  pending : g'.pending.length ≤ g.pending.length + rs.length

/-- No edge leaves a number that is not given yet. -/
theorem Wf.targets_of_le (h : Wf g) (hi : g.nodes.length ≤ i) : g.targets i = [] := by
  unfold targets
  rw [List.map_eq_nil_iff, List.filter_eq_nil_iff]
  intro e he hei
  have := (h.edges e he).1
  simp only [decide_eq_true_eq] at hei
  omega

theorem Wf.refs_of_not_mem (h : Wf g) (hx : x ∉ g.nodes) : g.refs x = [] := by
  rw [refs, h.targets_of_le (Nat.le_of_eq (number_of_not_mem hx).symm), List.filterMap_nil]

theorem Wf.lt_of_mem_targets (h : Wf g) (hj : j ∈ g.targets i) : j < g.nodes.length := by
  obtain ⟨e, he, rfl⟩ := List.mem_map.1 hj
  exact (h.edges e (List.mem_filter.1 he).1).2

/-- Numbers mean the same nodes after others were added. -/
theorem Wf.refs_eq (h : Wf g) (hp : g.nodes <+: g'.nodes) (i : Nat) :
    (g.targets i).filterMap (g'.nodes[·]?) = (g.targets i).filterMap (g.nodes[·]?) := by
  obtain ⟨more, hmore⟩ := hp
  refine List.filterMap_congr fun j hj => ?_
  rw [← hmore, List.getElem?_append_left (h.lt_of_mem_targets hj)]

theorem targets_link : (g.link i r).targets j =
    if j = i then (g.insert r).number r :: g.targets j else g.targets j := by
  by_cases h : j = i
  · simp [targets, link, edges_insert, h]
  · have h' : ¬ i = j := fun e => h e.symm
    simp [targets, link, edges_insert, h, h']

theorem refs_link (hw : Wf g) (hy : y ∈ g.nodes) (x : Ref) :
    (g.link (g.number y) r).refs x = if x = y then r :: g.refs x else g.refs x := by
  have hgrows := grows_insert g r
  have hmem : r ∈ (g.insert r).nodes := mem_nodes_insert.2 (.inr rfl)
  have hnumber : (g.link (g.number y) r).number x = (g.insert r).number x := rfl
  unfold refs
  rw [hnumber, targets_link]
  change List.filterMap ((g.insert r).nodes[·]?) _ = _
  by_cases hx : x ∈ g.nodes
  · rw [hgrows.number hx]
    by_cases hxy : x = y
    · rw [if_pos (by rw [hxy]), if_pos hxy, List.filterMap_cons_some (getElem?_number hmem),
        hw.refs_eq hgrows.nodes]
    · rw [if_neg fun e => hxy (number_inj hx e), if_neg hxy, hw.refs_eq hgrows.nodes]
  · -- a node that is new was not looked into
    have hxy : x ≠ y := fun e => hx (e ▸ hy)
    have hle := length_le_number hgrows.nodes hx
    have hne : ¬ (g.insert r).number x = g.number y := by
      have := number_lt hy
      omega
    rw [if_neg hne, if_neg hxy, hw.targets_of_le hle,
      hw.targets_of_le (Nat.le_of_eq (number_of_not_mem hx).symm)]
    rfl

theorem length_pending_insert : (g.insert r).pending.length ≤ g.pending.length + 1 := by
  unfold insert
  split
  · omega
  · simp

theorem links_link (hw : Wf g) (hy : y ∈ g.nodes) : Links g (g.link (g.number y) r) y [r] := by
  have hgrows := grows_insert g r
  have hwf := hw.insert r
  have hmem : r ∈ (g.insert r).nodes := mem_nodes_insert.2 (.inr rfl)
  refine ⟨⟨hwf.nodup, fun e he => ?_, fun i => ?_, hwf.pendingNodup, hwf.pending⟩,
    ⟨hgrows.nodes, hgrows.pending, hgrows.fresh⟩, fun x => ?_, fun x => ?_, length_pending_insert⟩
  · rcases List.mem_cons.1 he with rfl | he
    · exact ⟨Nat.lt_of_lt_of_le (number_lt hy) hgrows.nodes.length_le, number_lt hmem⟩
    · exact hwf.edges e he
  · change ((g.insert r).internal.add _).of i = _
    rw [Counts.of_add, hwf.internal]
    by_cases h : i = (g.insert r).number r
    · simp [link, h]
    · simp [link, h, List.count_cons_of_ne fun e => h e.symm]
  · rw [List.mem_singleton]
    exact mem_nodes_insert
  · simpa using refs_link hw hy x

theorem links_linkAll (hw : Wf g) (hy : y ∈ g.nodes) (rs : List Ref) :
    Links g (g.linkAll (g.number y) rs) y rs := by
  induction rs generalizing g with
  | nil => exact ⟨hw, .refl g, by simp [linkAll], by simp [linkAll], Nat.le_refl _⟩
  | cons r rs ih =>
    have hone := links_link (r := r) hw hy
    have hall := ih hone.wf (hone.grows.mem hy)
    rw [hone.grows.number hy] at hall
    refine ⟨hall.wf, hone.grows.trans hall.grows, fun x => (hall.mem_nodes x).trans ?_,
      fun x => (hall.refs x).trans ?_, hall.pending.trans ?_⟩
    · rw [hone.mem_nodes, List.mem_singleton, List.mem_cons, or_assoc]
    · rw [hone.refs]
      by_cases hx : x = y <;> simp [hx]
    · have := hone.pending
      simp only [List.length_cons, List.length_nil] at this ⊢
      omega

/-! ## The leases and what is bound in their scopes -/

theorem foldl_insert (hw : Wf g) (leases : List Ref) :
    Wf (leases.foldl insert g) ∧ Grows g (leases.foldl insert g) ∧
      (∀ x, x ∈ (leases.foldl insert g).nodes ↔ x ∈ g.nodes ∨ x ∈ leases) ∧
      (leases.foldl insert g).edges = g.edges ∧
      (leases.foldl insert g).pending.length ≤ g.pending.length + leases.length := by
  induction leases generalizing g with
  | nil => exact ⟨hw, .refl g, by simp, rfl, Nat.le_refl _⟩
  | cons r leases ih =>
    obtain ⟨hwf, hgrows, hmem, hedges, hpending⟩ := ih (hw.insert r)
    refine ⟨hwf, (grows_insert g r).trans hgrows, fun x => (hmem x).trans ?_,
      hedges.trans edges_insert, hpending.trans ?_⟩
    · rw [mem_nodes_insert, List.mem_cons, or_assoc]
    · have := length_pending_insert (g := g) (r := r)
      simp only [List.length_cons]
      omega

structure LinksAll (g g' : Graph) (ys : List Ref) (f : Ref → List Ref) : Prop where
  wf : Wf g'
  grows : Grows g g'
  mem_nodes : ∀ x, x ∈ g'.nodes ↔ x ∈ g.nodes ∨ ∃ y ∈ ys, x ∈ f y
  refs : ∀ x, g'.refs x = if x ∈ ys then (f x).reverse ++ g.refs x else g.refs x
  pending : g'.pending.length ≤ g.pending.length + (ys.map fun y => (f y).length).sum

theorem linksAll_foldl (hw : Wf g) {ys : List Ref} (f : Ref → List Ref) (hnodup : ys.Nodup)
    (hys : ∀ y ∈ ys, y ∈ g.nodes) :
    LinksAll g (ys.foldl (fun h y => h.linkAll (h.number y) (f y)) g) ys f := by
  induction ys generalizing g with
  | nil => exact ⟨hw, .refl g, by simp, by simp, Nat.le_refl _⟩
  | cons y ys ih =>
    obtain ⟨hy, hnodup⟩ := List.nodup_cons.1 hnodup
    have hone := links_linkAll hw (hys y List.mem_cons_self) (f y)
    have hall := ih hone.wf hnodup fun z hz => hone.grows.mem (hys z (List.mem_cons_of_mem _ hz))
    refine ⟨hall.wf, hone.grows.trans hall.grows, fun x => (hall.mem_nodes x).trans ?_,
      fun x => (hall.refs x).trans ?_, hall.pending.trans ?_⟩
    · rw [hone.mem_nodes]
      simp [or_assoc]
    · rw [hone.refs]
      by_cases hx : x = y
      · subst hx
        simp [hy]
      · simp [hx]
    · have := hone.pending
      simp only [List.map_cons, List.sum_cons]
      omega

/-! ## Looking into what is pending -/

/-- The graph in between: all that the leases lead to is found from pending nodes on. Pending nodes
    refer to what is bound in their scopes, and the others to all that they refer to. -/
structure Underway (g : Graph) (leases : List Ref) (bound links : Ref → List Ref) : Prop where
  wf : Wf g
  covers : ∀ r ∈ leases, r ∈ g.nodes
  refs : ∀ x ∈ g.nodes,
    (g.refs x).Perm (if g.number x ∈ g.pending then bound x else bound x ++ links x)
  reached : ∀ x ∈ g.nodes, ∃ r ∈ leases, Leads (fun x => bound x ++ links x) r x

theorem underway_seed (hbound : ∀ x, bound x ≠ [] → x ∈ leases) (links : Ref → List Ref) :
    Underway (seed leases bound) leases bound links ∧
      (seed leases bound).pending.length ≤
        leases.length + ∑ x ∈ leases.toFinset, (bound x).length := by
  obtain ⟨hwf, hgrows, hmem, hedges, hpending⟩ := foldl_insert wf_empty leases
  have hall : LinksAll _ (seed leases bound) _ bound :=
    linksAll_foldl hwf bound hwf.nodup fun _ hy => hy
  have hnodes : ∀ x, x ∈ (leases.foldl insert empty).nodes ↔ x ∈ leases := by
    intro x
    rw [hmem]
    simp [empty]
  have hrefs : ∀ x, (leases.foldl insert empty).refs x = [] := by
    intro x
    rw [refs, targets, hedges]
    rfl
  -- every node still waits
  have hwait : ∀ x ∈ (seed leases bound).nodes,
      (seed leases bound).number x ∈ (seed leases bound).pending := by
    intro x hx
    exact (hgrows.trans hall.grows).fresh x hx (by simp [empty])
  refine ⟨⟨hall.wf, fun r hr => hall.grows.mem ((hnodes r).2 hr), fun x hx => ?_, fun x hx => ?_⟩,
    ?_⟩
  · rw [if_pos (hwait x hx), hall.refs, hrefs]
    split
    next => simp
    next hno =>
      have : bound x = [] := by
        by_contra hne
        exact hno ((hnodes x).2 (hbound x hne))
      rw [this]
  · rcases (hall.mem_nodes x).1 hx with hx | ⟨y, hy, hx⟩
    · exact ⟨x, (hnodes x).1 hx, .refl⟩
    · exact ⟨y, (hnodes y).1 hy, .single (List.mem_append_left _ hx)⟩
  · refine hall.pending.trans ?_
    have hsum : ((leases.foldl insert empty).nodes.map fun y => (bound y).length).sum =
        ∑ x ∈ leases.toFinset, (bound x).length := by
      rw [← List.sum_toFinset _ hwf.nodup]
      congr 1
      ext x
      simp [hnodes]
    rw [hsum]
    simpa [empty] using hpending

structure Looks (g g' : Graph) (x : Ref) (links : Ref → List Ref) : Prop where
  wf : Wf g'
  mem : x ∈ g.nodes
  waited : g.number x ∈ g.pending
  mem_nodes : ∀ z, z ∈ g'.nodes ↔ z ∈ g.nodes ∨ z ∈ links x
  refs : ∀ z, g'.refs z = if z = x then (links x).reverse ++ g.refs z else g.refs z
  waits : ∀ z ∈ g.nodes, g'.number z ∈ g'.pending ↔ z ≠ x ∧ g.number z ∈ g.pending
  fresh : ∀ z ∈ g'.nodes, z ∉ g.nodes → g'.number z ∈ g'.pending
  pending : g'.pending.length + 1 ≤ g.pending.length + (links x).length

theorem Wf.looks (h : Wf g) (hp : g.pending ≠ []) (links : Ref → List Ref) :
    ∃ x, Looks g (g.look links) x links := by
  obtain ⟨i, rest, hp⟩ := List.exists_cons_of_ne_nil hp
  have hi := h.pending i (hp ▸ List.mem_cons_self)
  obtain ⟨x, hx⟩ : ∃ x, g.nodes[i]? = some x := ⟨_, List.getElem?_eq_getElem hi⟩
  have hmem : x ∈ g.nodes := List.mem_of_getElem? hx
  have hnumber : g.number x = i := by
    apply (List.getElem?_inj (number_lt hmem) h.nodup).1
    rw [getElem?_number hmem, hx]
  have hnodup := List.nodup_cons.1 (hp ▸ h.pendingNodup)
  have hlinks : Links { g with pending := rest } (g.look links) x (links x) := by
    have hwf : Wf { g with pending := rest } := ⟨h.nodup, h.edges, h.internal, hnodup.2,
      fun j hj => h.pending j (hp ▸ List.mem_cons_of_mem _ hj)⟩
    simp only [look, hp, hx, Option.map_some, Option.getD_some]
    exact hnumber ▸ links_linkAll (y := x) hwf hmem (links x)
  refine ⟨x, hlinks.wf, hmem, ?_, hlinks.mem_nodes, hlinks.refs, fun z hz => ?_,
    hlinks.grows.fresh, ?_⟩
  · rw [hp, hnumber]
    exact List.mem_cons_self
  · rw [hlinks.grows.number hz, hlinks.grows.pending _ (number_lt hz), hp, List.mem_cons, ← hnumber]
    change g.number z ∈ rest ↔ _
    constructor
    · intro hm
      exact ⟨fun e => hnodup.1 (hnumber ▸ e ▸ hm), .inr hm⟩
    · rintro ⟨hne, he | hm⟩
      · exact absurd (number_inj hz he) hne
      · exact hm
  · have := hlinks.pending
    simp only [hp, List.length_cons] at this ⊢
    omega

theorem Underway.look (h : Underway g leases bound links) (hbound : ∀ x, bound x ≠ [] → x ∈ leases)
    (hl : Looks g g' x links) : Underway g' leases bound links := by
  refine ⟨hl.wf, fun r hr => (hl.mem_nodes r).2 (.inl (h.covers r hr)), fun z hz => ?_,
    fun z hz => ?_⟩
  · rw [hl.refs]
    by_cases hzg : z ∈ g.nodes
    · have hrefs := h.refs z hzg
      by_cases hzx : z = x
      · subst hzx
        rw [if_pos hl.waited] at hrefs
        rw [if_pos rfl, if_neg fun hm => ((hl.waits z hzg).1 hm).1 rfl]
        exact ((links z).reverse_perm.append hrefs).trans List.perm_append_comm
      · simpa [hl.waits z hzg, hzx] using hrefs
    · -- a node that was found just now waits, and is no lease
      have hzx : z ≠ x := fun e => hzg (e ▸ hl.mem)
      have hnil : bound z = [] := by
        by_contra hne
        exact hzg (h.covers z (hbound z hne))
      rw [if_neg hzx, if_pos (hl.fresh z hz hzg), hnil, h.wf.refs_of_not_mem hzg]
  · rcases (hl.mem_nodes z).1 hz with hz | hz
    · exact h.reached z hz
    · obtain ⟨r, hr, hrx⟩ := h.reached x hl.mem
      exact ⟨r, hr, hrx.tail (List.mem_append_right _ hz)⟩

open Classical in
def ahead (g : Graph) (links : Ref → List Ref) (all : Finset Ref) : Nat :=
  ∑ x ∈ all with (x ∈ g.nodes → g.number x ∈ g.pending), (links x).length

/-- Looking into a node uses its references up. -/
theorem Looks.ahead (hl : Looks g g' x links) (hall : ∀ x, links x ≠ [] → x ∈ all) :
    g'.ahead links all + (links x).length ≤ g.ahead links all := by
  have hsub : ∀ z, (z ∈ g'.nodes → g'.number z ∈ g'.pending) →
      z ≠ x ∧ (z ∈ g.nodes → g.number z ∈ g.pending) := by
    intro z hz
    by_cases hzg : z ∈ g.nodes
    · have := (hl.waits z hzg).1 (hz ((hl.mem_nodes z).2 (.inl hzg)))
      exact ⟨this.1, fun _ => this.2⟩
    · exact ⟨fun e => hzg (e ▸ hl.mem), fun hm => absurd hm hzg⟩
  unfold Graph.ahead
  by_cases hnil : links x = []
  · rw [hnil, List.length_nil, Nat.add_zero]
    refine Finset.sum_le_sum_of_subset fun z hz => ?_
    rw [Finset.mem_filter] at hz ⊢
    exact ⟨hz.1, (hsub z hz.2).2⟩
  · classical
    have hmem : x ∈ all.filter fun x => x ∈ g.nodes → g.number x ∈ g.pending :=
      Finset.mem_filter.2 ⟨hall x hnil, fun _ => hl.waited⟩
    rw [← Finset.sum_erase_add _ _ hmem]
    refine Nat.add_le_add_right (Finset.sum_le_sum_of_subset fun z hz => ?_) _
    obtain ⟨hz, hw⟩ := Finset.mem_filter.1 hz
    exact Finset.mem_erase.2 ⟨(hsub z hw).1, Finset.mem_filter.2 ⟨hz, (hsub z hw).2⟩⟩

theorem expand_of_done (hp : g.pending = []) (n : Nat) : g.expand links n = g := by
  induction n with
  | zero => rfl
  | succ n ih => rw [expand, look, hp, ih]

/-- With enough rounds every node is looked into. -/
theorem Underway.expand (h : Underway g leases bound links)
    (hbound : ∀ x, bound x ≠ [] → x ∈ leases) (hall : ∀ x, links x ≠ [] → x ∈ all) {n : Nat}
    (hn : g.pending.length + g.ahead links all ≤ n) :
    Underway (g.expand links n) leases bound links ∧ (g.expand links n).pending = [] := by
  induction n generalizing g with
  | zero =>
    have hp : g.pending = [] := List.eq_nil_of_length_eq_zero (by omega)
    exact ⟨h, hp⟩
  | succ n ih =>
    by_cases hp : g.pending = []
    · rw [expand_of_done hp]
      exact ⟨h, hp⟩
    · obtain ⟨x, hl⟩ := h.wf.looks hp links
      have := hl.ahead hall
      have := hl.pending
      exact ih (h.look hbound hl) (by omega)

/-! ## The whole graph -/

/-- The graph has what the leases lead to, and the references of each node as often as it has
    them. -/
structure Exact (g : Graph) (leases : List Ref) (next : Ref → List Ref) : Prop where
  wf : Wf g
  done : g.pending = []
  mem_nodes : ∀ x, x ∈ g.nodes ↔ ∃ r ∈ leases, Leads next r x
  refs : ∀ x ∈ g.nodes, (g.refs x).Perm (next x)

theorem mem_nodes_of_refs (h : y ∈ g.refs x) : y ∈ g.nodes := by
  obtain ⟨j, _, hj⟩ := List.mem_filterMap.1 h
  exact List.mem_of_getElem? hj

theorem exact_expand (hbound : ∀ x, bound x ≠ [] → x ∈ leases)
    (hall : ∀ x, bound x ++ links x ≠ [] → x ∈ all) {n : Nat}
    (hn : leases.length + ∑ x ∈ all, (bound x ++ links x).length ≤ n) :
    Exact ((seed leases bound).expand links n) leases fun x => bound x ++ links x := by
  obtain ⟨hseed, hpending⟩ := underway_seed hbound links
  have hrounds : (seed leases bound).pending.length + (seed leases bound).ahead links all ≤ n := by
    have hb : ∑ x ∈ leases.toFinset, (bound x).length ≤ ∑ x ∈ all, (bound x).length := by
      refine Finset.sum_le_sum_of_ne_zero fun x _ hne => hall x fun e => hne ?_
      rw [(List.append_eq_nil_iff.1 e).1, List.length_nil]
    have hl : (seed leases bound).ahead links all ≤ ∑ x ∈ all, (links x).length :=
      Finset.sum_le_sum_of_subset (Finset.filter_subset _ _)
    simp only [List.length_append, Finset.sum_add_distrib] at hn
    omega
  obtain ⟨h, hdone⟩ := hseed.expand hbound
    (fun x hne => hall x fun e => hne (List.append_eq_nil_iff.1 e).2) hrounds
  generalize (seed leases bound).expand links n = g at h hdone
  have hrefs : ∀ x ∈ g.nodes, (g.refs x).Perm (bound x ++ links x) := by
    intro x hx
    simpa [hdone] using h.refs x hx
  refine ⟨h.wf, hdone, fun x => ⟨h.reached x, ?_⟩, hrefs⟩
  rintro ⟨r, hr, hrx⟩
  induction hrx with
  | refl => exact h.covers r hr
  | tail _ hy ih => exact mem_nodes_of_refs ((hrefs _ ih).mem_iff.2 hy)

/-- Edges are told apart by where they start. -/
theorem countP_edges (p : Nat × Nat → Bool) (n : Nat) {edges : List (Nat × Nat)}
    (h : ∀ e ∈ edges, e.1 < n) :
    edges.countP p = ∑ i ∈ Finset.range n, (edges.filter (·.1 = i)).countP p := by
  induction edges with
  | nil => simp
  | cons e edges ih =>
    have he := h e List.mem_cons_self
    rw [List.countP_cons, ih fun e' he' => h e' (List.mem_cons_of_mem _ he')]
    have hone : ∀ i, ((e :: edges).filter (·.1 = i)).countP p =
        (edges.filter (·.1 = i)).countP p + if i = e.1 then (if p e then 1 else 0) else 0 := by
      intro i
      by_cases hi : e.1 = i
      · simp [hi, List.countP_cons]
      · have hi' : ¬ i = e.1 := fun e' => hi e'.symm
        simp [hi, hi']
    simp only [hone, Finset.sum_add_distrib, Finset.sum_ite_eq', Finset.mem_range, he, if_true]

theorem Wf.getElem?_eq_some (h : Wf g) (hx : x ∈ g.nodes) :
    g.nodes[j]? = some x ↔ j = g.number x := by
  constructor
  · intro hj
    have hlt : j < g.nodes.length := (List.getElem?_eq_some_iff.1 hj).1
    exact (List.getElem?_inj hlt h.nodup).1 (hj.trans (getElem?_number hx).symm)
  · rintro rfl
    exact getElem?_number hx

theorem Wf.count_refs (h : Wf g) (hx : x ∈ g.nodes) (y : Ref) : (g.refs y).count x =
    (g.edges.filter (·.1 = g.number y)).countP (·.2 == g.number x) := by
  rw [refs, List.count_filterMap, targets, List.countP_map]
  refine List.countP_congr fun e _ => ?_
  simp [h.getElem?_eq_some hx]

/-- The marked numbers are those that edges lead to from the roots. -/
theorem Wf.mem_mark (h : Wf g) {roots : List Nat} :
    j ∈ g.mark roots ↔ ∃ i ∈ roots, Leads g.targets i j := by
  have hrounds : ∑ i ∈ Finset.range g.nodes.length, (g.targets i).length = g.edges.length := by
    have := countP_edges (fun _ => true) g.nodes.length fun e he => (h.edges e he).1
    simpa [targets] using this.symm
  have hall : ∀ i, g.targets i ≠ [] → i ∈ Finset.range g.nodes.length := by
    intro i hi
    exact Finset.mem_range.2 (Nat.lt_of_not_le fun hle => hi (h.targets_of_le hle))
  rw [mark, Store.mem_reach hall (Nat.add_le_add_left (Nat.le_of_eq hrounds) _)]

namespace Exact

variable (h : Exact g leases next)
include h

/-- A node has been referred to as often as all nodes together refer to it. -/
theorem internal_eq (hx : x ∈ g.nodes) :
    g.internal.of (g.number x) = ∑ y ∈ g.nodes.toFinset, (next y).count x := by
  rw [h.wf.internal, List.count, List.countP_map,
    countP_edges _ g.nodes.length fun e he => (h.wf.edges e he).1]
  symm
  refine Finset.sum_nbij g.number (fun y hy => ?_) (fun y hy z _ e => ?_) (fun i hi => ?_)
    fun y hy => ?_
  · exact Finset.mem_range.2 (number_lt (List.mem_toFinset.1 hy))
  · exact number_inj (List.mem_toFinset.1 hy) e
  · have hi : i < g.nodes.length := by simpa using hi
    have hmem := List.getElem_mem hi
    refine ⟨g.nodes[i], by simp, ?_⟩
    exact ((h.wf.getElem?_eq_some hmem).1 (List.getElem?_eq_getElem hi)).symm
  · have hy := List.mem_toFinset.1 hy
    rw [← (h.refs y hy).count_eq, h.wf.count_refs hx]
    rfl

theorem mem_targets (hx : x ∈ g.nodes) : j ∈ g.targets (g.number x) ↔
    ∃ y ∈ next x, j = g.number y := by
  have hrefs := h.refs x hx
  constructor
  · intro hj
    have hlt := h.wf.lt_of_mem_targets hj
    refine ⟨g.nodes[j], hrefs.mem_iff.1 ?_, ?_⟩
    · exact List.mem_filterMap.2 ⟨j, hj, List.getElem?_eq_getElem hlt⟩
    · exact (h.wf.getElem?_eq_some (List.getElem_mem hlt)).1 (List.getElem?_eq_getElem hlt)
  · rintro ⟨y, hy, rfl⟩
    have hy := hrefs.mem_iff.2 hy
    obtain ⟨j, hj, hjy⟩ := List.mem_filterMap.1 hy
    rwa [← (h.wf.getElem?_eq_some (mem_nodes_of_refs hy)).1 hjy]

theorem mem_next (hx : x ∈ g.nodes) (hy : y ∈ next x) : y ∈ g.nodes :=
  mem_nodes_of_refs ((h.refs x hx).mem_iff.2 hy)

/-- Edges lead from number to number just if references lead from node to node. -/
theorem leads_number (hr : r ∈ g.nodes) :
    Leads g.targets (g.number r) j ↔ ∃ x ∈ g.nodes, j = g.number x ∧ Leads next r x := by
  constructor
  · intro hj
    induction hj with
    | refl => exact ⟨r, hr, rfl, .refl⟩
    | tail _ hj ih =>
      obtain ⟨x, hx, rfl, hrx⟩ := ih
      obtain ⟨y, hy, rfl⟩ := (h.mem_targets hx).1 hj
      exact ⟨y, h.mem_next hx hy, rfl, hrx.tail hy⟩
  · rintro ⟨x, hx, rfl, hrx⟩
    clear hx
    have hboth : x ∈ g.nodes ∧ Leads g.targets (g.number r) (g.number x) := by
      induction hrx with
      | refl => exact ⟨hr, .refl⟩
      | tail _ hy ih =>
        exact ⟨h.mem_next ih.1 hy, ih.2.tail ((h.mem_targets ih.1).2 ⟨_, hy, rfl⟩)⟩
    exact hboth.2

/-- The marked nodes are those that references lead to from the roots. -/
theorem mem_mark {roots : List Ref} (hroots : ∀ r ∈ roots, r ∈ g.nodes) (hx : x ∈ g.nodes) :
    g.number x ∈ g.mark (roots.map g.number) ↔ ∃ r ∈ roots, Leads next r x := by
  rw [h.wf.mem_mark]
  constructor
  · rintro ⟨_, hi, hlead⟩
    obtain ⟨r, hr, rfl⟩ := List.mem_map.1 hi
    obtain ⟨y, hy, he, hry⟩ := (h.leads_number (hroots r hr)).1 hlead
    exact ⟨r, hr, number_inj hx he ▸ hry⟩
  · rintro ⟨r, hr, hrx⟩
    exact ⟨_, List.mem_map_of_mem hr, (h.leads_number (hroots r hr)).2 ⟨x, hx, rfl, hrx⟩⟩

end Exact

end Graph

end TinyScript
