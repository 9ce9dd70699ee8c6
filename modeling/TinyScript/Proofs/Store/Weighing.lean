/-
  TinyScript.Proofs.Store.Weighing — counts that are taken while the graph is found.

  A graph that holds its nodes adds to how often they are referred to, and so does whoever holds a
  reference while it is put in. Each node is therefore weighed when it is found, without the
  reference in hand (`Weighed`). The graph has none of its own then, nor is it the node that is
  looked into, so every weight is how often others refer to the node (`expand_weigh`).
-/

import TinyScript.Proofs.Store.Reordered

namespace TinyScript

/-- A graph with how often each node was referred to when it was found, by its number. -/
structure Weighed extends Graph where
  strong : List Nat

namespace Weighed

variable (count : Ref → Nat) {g : Graph} {r : Ref} {hand leases : List Ref}

/-- A reference in hand is put into the graph, unless it is there, while those in `hand` are held
    too. All references are counted, but the one that is put in. -/
def insert (hand : List Ref) (w : Weighed) (r : Ref) : Weighed :=
  let strong := count r + w.nodes.count r + (r :: hand).count r - 1
  ⟨w.toGraph.insert r, if r ∈ w.nodes then w.strong else w.strong ++ [strong]⟩

def link (hand : List Ref) (i : Nat) (w : Weighed) (r : Ref) : Weighed :=
  ⟨w.toGraph.link i r, (w.insert count hand r).strong⟩

def look (links : Ref → List Ref) (w : Weighed) : Weighed :=
  match w.pending with
  | i :: rest =>
    ((w.nodes[i]?.map links).getD []).foldl (link count w.nodes[i]?.toList i)
      ⟨{ w.toGraph with pending := rest }, w.strong⟩
  | [] => w

def expand (links : Ref → List Ref) : Nat → Weighed → Weighed
  | n + 1, w => expand links n (w.look count links)
  | 0, w => w

def seed (leases : List Ref) (bound : Ref → List Ref) : Weighed :=
  let w := leases.foldl (insert count []) ⟨.empty, []⟩
  w.nodes.foldl (fun w r => (bound r).foldl (link count [] (w.number r)) w) w

/-- A graph with weights that leave out what the graph itself holds. -/
def weigh (g : Graph) : Weighed := ⟨g, g.nodes.map count⟩

theorem insert_weigh (h : hand ⊆ g.nodes) (r : Ref) :
    (weigh count g).insert count hand r = weigh count (g.insert r) := by
  unfold insert weigh Graph.insert
  by_cases hr : r ∈ g.nodes
  · simp [hr]
  · have hhand : hand.count r = 0 := List.count_eq_zero.2 fun hm => hr (h hm)
    simp [hr, List.count_eq_zero.2 hr, hhand]

theorem link_weigh (h : hand ⊆ g.nodes) (i : Nat) (r : Ref) :
    (weigh count g).link count hand i r = weigh count (g.link i r) := by
  rw [link, insert_weigh count h]
  rfl

theorem foldl_link_weigh (h : hand ⊆ g.nodes) (i : Nat) (rs : List Ref) :
    rs.foldl (link count hand i) (weigh count g) = weigh count (g.linkAll i rs) := by
  induction rs generalizing g with
  | nil => rfl
  | cons r rs ih =>
    rw [List.foldl_cons, link_weigh count h]
    exact ih fun x hx => (Graph.grows_insert g r).mem (h hx)

theorem look_weigh (links : Ref → List Ref) (g : Graph) :
    (weigh count g).look count links = weigh count (g.look links) := by
  unfold look Graph.look
  cases hp : g.pending with
  | nil => simp only [weigh, hp]
  | cons i rest =>
    have hheld : (g.nodes[i]?).toList ⊆ g.nodes := by
      intro x hx
      exact List.mem_of_getElem? (Option.mem_toList.1 hx)
    simp only [weigh, hp]
    exact foldl_link_weigh (g := { g with pending := rest }) count hheld i _

/-- The weights do not count the graph's own references. -/
theorem expand_weigh (links : Ref → List Ref) (n : Nat) (g : Graph) :
    (weigh count g).expand count links n = weigh count (g.expand links n) := by
  induction n generalizing g with
  | zero => rfl
  | succ n ih => rw [expand, look_weigh, ih, Graph.expand]

theorem seed_weigh (leases : List Ref) (bound : Ref → List Ref) :
    seed count leases bound = weigh count (.seed leases bound) := by
  have hinsert (g : Graph) : leases.foldl (insert count []) (weigh count g) =
      weigh count (leases.foldl .insert g) := by
    induction leases generalizing g with
    | nil => rfl
    | cons r leases ih => rw [List.foldl_cons, insert_weigh count (by simp), ih, List.foldl_cons]
  have hbound (rs : List Ref) (g : Graph) :
      rs.foldl (fun w r => (bound r).foldl (link count [] (w.number r)) w) (weigh count g) =
        weigh count (rs.foldl (fun g r => g.linkAll (g.number r) (bound r)) g) := by
    induction rs generalizing g with
    | nil => rfl
    | cons r rs ih =>
      rw [List.foldl_cons, foldl_link_weigh count (by simp), ih, List.foldl_cons]
      rfl
  have hempty : (⟨.empty, []⟩ : Weighed) = weigh count .empty := rfl
  rw [seed, hempty, hinsert, hbound]
  rfl

end Weighed

namespace Store

variable (o : Listing) (s : Store) (ids : List ScopeId) {x : Ref}

def weighedIn (outside : List Ref) : Weighed :=
  let count := fun r => s.counts.of r + outside.count r
  let leases := ids.filterMap s.liveLease?
  (Weighed.seed count leases (s.boundIn o ids)).expand count (s.linksIn o)
    (leases.length + s.edgeCount)

theorem weighedIn_eq (outside : List Ref) : s.weighedIn o ids outside =
    .weigh (fun r => s.counts.of r + outside.count r) (s.graphIn o ids) := by
  simp only [weighedIn, graphIn, Weighed.seed_weigh, Weighed.expand_weigh]

/-- Nodes refer to each other no more often than all scopes and cells do. -/
theorem internal_le_counts (hx : x ∈ (s.graphIn o ids).nodes) :
    (s.graphIn o ids).internal.of ((s.graphIn o ids).number x) ≤ s.counts.of x := by
  rw [(s.exact_graphIn o ids).internal_eq hx, counts_eq_sum]
  refine le_trans ?_ (sum_follow_le s ids List.count_nil fun _ _ => List.count_append)
  refine Finset.sum_le_sum_of_ne_zero fun y _ hne => ?_
  have hfollow : s.follow ids y ≠ [] := fun e => hne (by rw [e, List.count_nil])
  exact mem_there_of_successors hfollow

/-- Nodes are referred to from within by what is bound in the candidates and by each other. -/
theorem internal_eq_bound_add (h : Apart s ids) (hlive : ∀ i ∈ ids, (s.liveLease? i).isSome)
    (hx : x ∈ (s.graphIn o ids).nodes) :
    (s.graphIn o ids).internal.of ((s.graphIn o ids).number x) =
      ∑ i ∈ ids.toFinset, (s.scope i).refs.count x +
        ∑ y ∈ (s.graphIn o ids).nodes.toFinset, (s.linksAt y).count x := by
  have hnodes : ∀ i ∈ ids, ∃ r ∈ (s.graphIn o ids).nodes.toFinset, s.liveLease? i = some r := by
    intro i hi
    obtain ⟨r, hr⟩ := Option.isSome_iff_exists.1 (hlive i hi)
    exact ⟨r, List.mem_toFinset.2 ((s.mem_graphIn o ids).2 ⟨i, hi, r, hr, .refl⟩), hr⟩
  rw [(s.exact_graphIn o ids).internal_eq hx, ← sum_boundAt h hnodes (List.count x) List.count_nil,
    ← Finset.sum_add_distrib]
  exact Finset.sum_congr rfl fun y _ => by rw [follow, successors_eq, List.count_append]

/-- The graph of a collection is exact, in whatever order it is found: there is one node for each
    cell that the candidates lead to, weighed by the references that others hold to it. What was
    counted from within are the references of the candidates and of the nodes, which are among
    those, and marks are where edges lead. A collection that numbers no nodes finds the same. -/
theorem graph_is_exact (outside : List Ref) :
    let w := s.weighedIn o ids outside
    let walk := fun rs => reach (s.follow ids) (rs.length + s.edgeCount) rs ∅
    let nodes := walk (ids.filterMap s.liveLease?)
    (w.pending = [] ∧ w.nodes.Nodup ∧
      ∀ x, (x ∈ w.nodes ↔ s.Node ids x) ∧ (x ∈ w.nodes ↔ x ∈ nodes)) ∧
    w.strong = w.nodes.map (fun r => s.counts.of r + outside.count r) ∧
    (∀ n x, w.nodes[n]? = some x →
      w.internal.of n ≤ s.counts.of x + outside.count x ∧
      w.internal.of n = (inner (s.follow ids) nodes).of x ∧
      (Apart s ids → (∀ i ∈ ids, (s.liveLease? i).isSome) → w.internal.of n =
        ∑ i ∈ ids.toFinset, (s.scope i).refs.count x +
          ∑ y ∈ w.nodes.toFinset, (s.linksAt y).count x)) ∧
    (∀ roots j, j ∈ w.mark roots ↔ ∃ i ∈ roots, Leads w.targets i j) ∧
    ∀ roots ⊆ w.nodes, ∀ x ∈ w.nodes,
      w.number x ∈ w.mark (roots.map w.number) ↔ x ∈ walk roots := by
  have hg := s.exact_graphIn o ids
  have hwalk : ∀ x, x ∈ reach (s.follow ids) _ (ids.filterMap s.liveLease?) ∅ ↔ s.Node ids x :=
    fun x => (mem_walk s ids).trans (exists_lease_leads s ids)
  have hnode := fun x => s.mem_graphIn o ids (x := x)
  rw [weighedIn_eq]
  refine ⟨⟨hg.done, hg.wf.nodup, fun x => ⟨hnode x, (hnode x).trans (hwalk x).symm⟩⟩, rfl,
    fun n x hn => ?_, fun roots j => hg.wf.mem_mark,
    fun roots hroots x hx => (hg.mem_mark hroots hx).trans (mem_walk s ids).symm⟩
  have hx : x ∈ (s.graphIn o ids).nodes := List.mem_of_getElem? hn
  rw [(hg.wf.getElem?_eq_some hx).1 hn]
  exact ⟨(s.internal_le_counts o ids hx).trans (Nat.le_add_right _ _),
    s.internal_graphIn o ids hwalk ((hnode x).1 hx),
    fun h hlive => s.internal_eq_bound_add o ids h hlive hx⟩

/-- A scope that was captured binds an array by two names, and the array contains itself. -/
def storeOfKnot : Store :=
  let s := ((Store.empty.push Store.global .function).2.capture 1).2
  let (r, s) := s.alloc (.array #[])
  ((s.append r (.array r)).bind 1 "a" ⟨.array r, false⟩).bind 1 "b" ⟨.array r, false⟩

/-- The array is referred to from within by both names and by itself, and the lease of the scope
    leads to it. -/
theorem knot_is_weighed :
    let w := storeOfKnot.weighedIn .backwards [1] []
    ∃ n, w.nodes[n]? = some 2 ∧ w.internal.of n = 3 ∧ w.number 2 ∈ w.mark ([1].map w.number) := by
  obtain ⟨_, _, hcounted, _, hmarked⟩ := graph_is_exact .backwards storeOfKnot [1] []
  have hnode : (storeOfKnot.weighedIn .backwards [1] []).nodes[1]? = some 2 := by decide +kernel
  have hapart : Apart storeOfKnot [1] := by
    refine ⟨by decide, fun i hi j hj _ _ _ => ?_⟩
    rw [List.mem_singleton.1 hi, List.mem_singleton.1 hj]
  refine ⟨1, hnode, ?_, (hmarked [1] ?_ 2 (List.mem_of_getElem? hnode)).2 ?_⟩
  · rw [(hcounted 1 2 hnode).2.2 hapart (by decide +kernel)]
    decide +kernel
  · decide +kernel
  · decide +kernel

end Store

end TinyScript
