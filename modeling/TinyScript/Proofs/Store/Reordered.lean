/-
  TinyScript.Proofs.Store.Reordered — collections while tables are gone through in any order.

  `judgeIn` finds the graph of the candidates in the order of a listing: nodes get their numbers as
  they are found, references are counted as they are met, and the walk from the roots goes along the
  edges in the order in which they were noted. Numbers and the order of edges differ from listing to
  listing, but not which nodes there are, how often each is referred to and what leads to it
  (`exact_graphIn`). So every verdict is the same (`judgeIn_eq`), and so is the store after a
  collection or a release (`collectIn_eq`, `releaseIn_eq`). How often a cell is referred to from
  anywhere needs no order: a store counts what its scopes and cells refer to, whoever comes first.
-/

import Mathlib.Data.List.Sort
import TinyScript.Proofs.Store.Enumeration
import TinyScript.Proofs.Store.Graph

namespace TinyScript

def Cell.linksIn (o : Listing) (r : Ref) : Cell → List Ref
  | object c fields => c :: o.fields.refs r fields Value.refs
  | classDef c => o.methods.refs r c.methods Function.refs ++ c.scope.toList
  | c => c.links

theorem Cell.linksIn_perm (o : Listing) (r : Ref) (c : Cell) : (c.linksIn o r).Perm c.links := by
  cases c with
  | object d fields => exact (o.fields.refs_perm r fields Value.refs).cons d
  | classDef d => exact (o.methods.refs_perm r d.methods Function.refs).append_right _
  | _ => exact .refl _

namespace Store

variable (o : Listing) (s : Store) (ids : List ScopeId) (count : Ref → Nat) {r x : Ref}

/-! ## The pass -/

def linksIn (r : Ref) : List Ref := ((s.cell? r).map (Cell.linksIn o r)).getD []

def boundIn (r : Ref) : List Ref :=
  (((s.candidatesOf ids)[r]?).map fun i =>
    o.bindings.refs i (s.scope i).bindings (·.value.refs)).getD []

def graphIn : Graph :=
  let leases := ids.filterMap s.liveLease?
  (Graph.seed leases (s.boundIn o ids)).expand (s.linksIn o) (leases.length + s.edgeCount)

def anchors : List Ref :=
  let above := s.ancestors
  ids.filterMap fun id => if above.contains id then s.liveLease? id else none

def markedIn : RefSet :=
  let g := s.graphIn o ids
  g.mark (g.external count ++ (s.anchors ids).map g.number)

/-- As `judge`, in that order. The nodes to be emptied are told as a set, because it makes no
    difference which one comes first (`sameCells_carryOut`). -/
def judgeIn : Verdict :=
  let g := s.graphIn o ids
  let marked := s.markedIn o ids count
  let stays := fun id => (s.liveLease? id).any fun r => marked.contains (g.number r)
  { kept := ids.filter stays
    lost := ids.filter fun id => !stays id
    unreached :=
      (Std.TreeSet.ofList (g.nodes.filter fun r => !marked.contains (g.number r))).toList }

/-! ## The graph in any order -/

theorem linksIn_perm (r : Ref) : (s.linksIn o r).Perm (s.linksAt r) := by
  unfold linksIn linksAt
  cases s.cell? r with
  | none => exact .refl _
  | some c => exact c.linksIn_perm o r

theorem boundIn_perm (r : Ref) : (s.boundIn o ids r).Perm (s.boundAt ids r) := by
  unfold boundIn boundAt
  cases (s.candidatesOf ids)[r]? with
  | none => exact .refl _
  | some i => exact o.bindings.refs_perm i (s.scope i).bindings (·.value.refs)

theorem followIn_perm (r : Ref) :
    (s.boundIn o ids r ++ s.linksIn o r).Perm (s.follow ids r) := by
  rw [follow, successors_eq]
  exact (s.boundIn_perm o ids r).append (s.linksIn_perm o r)

theorem leads_of_perm {f g : Ref → List Ref} (h : ∀ x, (f x).Perm (g x)) : Leads f = Leads g := by
  have hmem : (fun x y => y ∈ f x) = fun x y => y ∈ g x := by
    funext x y
    exact propext (h x).mem_iff
  unfold Leads
  rw [hmem]

theorem exact_graphIn : (s.graphIn o ids).Exact (ids.filterMap s.liveLease?) (s.follow ids) := by
  have hperm := s.followIn_perm o ids
  have hbound : ∀ x, s.boundIn o ids x ≠ [] → x ∈ ids.filterMap s.liveLease? := by
    intro x hx
    cases hc : (s.candidatesOf ids)[x]? with
    | none => exact absurd (by simp [boundIn, hc]) hx
    | some i => exact List.mem_filterMap.2 ⟨i, of_candidatesOf hc⟩
  have hthere : ∀ x, s.boundIn o ids x ++ s.linksIn o x ≠ [] → x ∈ s.there := by
    intro x hx
    have hfollow : s.follow ids x ≠ [] := fun e => hx (e ▸ hperm x).eq_nil
    exact mem_there_of_successors hfollow
  have hg : (s.graphIn o ids).Exact (ids.filterMap s.liveLease?)
      fun r => s.boundIn o ids r ++ s.linksIn o r := by
    refine Graph.exact_expand hbound hthere ?_
    simp only [fun x => (hperm x).length_eq]
    exact Nat.add_le_add_left (sum_successors_le s ids) _
  refine ⟨hg.wf, hg.done, fun x => ?_, fun x hx => (hg.refs x hx).trans (hperm x)⟩
  rw [hg.mem_nodes, leads_of_perm hperm]

theorem mem_graphIn : x ∈ (s.graphIn o ids).nodes ↔ s.Node ids x := by
  rw [(s.exact_graphIn o ids).mem_nodes, exists_lease_leads]

theorem mem_anchors : r ∈ s.anchors ids ↔
    ∃ i ∈ ids, i ∈ s.ancestors ∧ s.liveLease? i = some r := by
  rw [anchors, List.mem_filterMap]
  refine exists_congr fun i => and_congr_right fun _ => ?_
  by_cases hi : i ∈ s.ancestors <;> simp [hi]

/-- What the nodes count from within is what the graph counted when it was found. -/
theorem internal_graphIn {nodes : RefSet} (hnodes : ∀ x, x ∈ nodes ↔ s.Node ids x)
    (hx : s.Node ids x) : (s.graphIn o ids).internal.of ((s.graphIn o ids).number x) =
      (inner (s.follow ids) nodes).of x := by
  rw [(s.exact_graphIn o ids).internal_eq ((s.mem_graphIn o ids).2 hx), of_inner]
  refine Finset.sum_congr ?_ fun _ _ => rfl
  ext y
  simp [mem_graphIn, hnodes]

theorem mem_markedIn {nodes : RefSet} (hnodes : ∀ x, x ∈ nodes ↔ s.Node ids x)
    (hx : s.Node ids x) : (s.graphIn o ids).number x ∈ s.markedIn o ids count ↔
      ∃ r, (r ∈ nodes ∧ (inner (s.follow ids) nodes).of r < count r ∨
        ∃ i ∈ ids, i ∈ s.ancestors ∧ s.liveLease? i = some r) ∧ Leads (s.follow ids) r x := by
  have hg := s.exact_graphIn o ids
  rw [markedIn, Graph.external, ← List.map_append, hg.mem_mark _ ((s.mem_graphIn o ids).2 hx)]
  · refine exists_congr fun r => and_congr_left fun _ => ?_
    rw [List.mem_append, mem_anchors, List.mem_filter, mem_graphIn, hnodes, decide_eq_true_eq]
    refine or_congr_left (and_congr_right fun hr => ?_)
    rw [s.internal_graphIn o ids hnodes hr]
  · intro r hr
    rcases List.mem_append.1 hr with hr | hr
    · exact (List.mem_filter.1 hr).1
    · obtain ⟨i, hi, _, hl⟩ := (s.mem_anchors ids).1 hr
      exact (s.mem_graphIn o ids).2 ⟨i, hi, r, hl, .refl⟩

/-! ## The verdict -/

/-- A set lists its members in one order, however they came in. -/
theorem toList_sorted (nodes : RefSet) : nodes.toList.Pairwise (· < ·) :=
  nodes.ordered_toList.imp Nat.compare_eq_lt.1

theorem Verdict.eq_of {v w : Verdict} (hkept : v.kept = w.kept) (hlost : v.lost = w.lost)
    (hunreached : v.unreached = w.unreached) : v = w := by
  cases v
  cases w
  simp_all

/-- The verdict is the same in every order. -/
theorem judgeIn_eq : s.judgeIn o ids count = s.judge count ids := by
  obtain ⟨nodes, reached, hnodes, hreached, hkept, hlost, hunreached⟩ := judge_walks s ids count
  have hmark : ∀ x, s.Node ids x →
      (s.markedIn o ids count).contains ((s.graphIn o ids).number x) = reached.contains x := by
    intro x hx
    rw [Bool.eq_iff_iff, Std.TreeSet.contains_iff_mem, Std.TreeSet.contains_iff_mem, hreached]
    exact s.mem_markedIn o ids count hnodes hx
  have hstays : ∀ i ∈ ids, (s.liveLease? i).any
      (fun r => (s.markedIn o ids count).contains ((s.graphIn o ids).number r)) =
        (s.liveLease? i).any reached.contains := by
    intro i hi
    cases hl : s.liveLease? i with
    | none => rfl
    | some r => exact hmark r ⟨i, hi, r, hl, .refl⟩
  have hempty : (Std.TreeSet.ofList ((s.graphIn o ids).nodes.filter fun r =>
      !(s.markedIn o ids count).contains ((s.graphIn o ids).number r))).toList =
        nodes.toList.filter fun r => !reached.contains r := by
    refine (toList_sorted _).eq_of_mem_iff ((toList_sorted nodes).filter _) fun x => ?_
    rw [Std.TreeSet.mem_toList, Std.TreeSet.mem_ofList, List.contains_iff_mem, List.mem_filter,
      List.mem_filter, Std.TreeSet.mem_toList, hnodes, mem_graphIn]
    exact and_congr_right fun hx => by rw [hmark x hx]
  apply Verdict.eq_of
  · rw [hkept]
    exact List.filter_congr hstays
  · rw [hlost]
    exact List.filter_congr fun i hi => congrArg (!·) (hstays i hi)
  · rw [hunreached]
    exact hempty

/-! ## Collections and releases -/

def collectIn (held : List Ref) : Store :=
  let s := s.settle held
  let gone := s.forsaken.foldl freeScope s
  gone.carryOut (gone.judgeIn o s.candidates
    fun r => s.counts.of r + (s.globalLease :: held).count r)

theorem collectIn_eq (held : List Ref) : s.collectIn o held = s.collect held := by
  rw [collect_eq, collectIn]
  exact congrArg _ (judgeIn_eq ..)

def releaseLeasedIn (held : List Ref) (id : ScopeId) : Store :=
  let s := s.settle held
  match s.liveLease? id with
  | none => s.freeScope id
  | some _ =>
    let s := s.retire id
    if s.limit ≤ s.retained.size then s.collectIn o held else s

def releaseIn (held : List Ref) (id : ScopeId) : Store :=
  if (s.scope id).released then s
  else if (s.liveLease? id).isNone then s.freeScope id
  else s.releaseLeasedIn o held id

theorem releaseLeasedIn_eq (held : List Ref) (id : ScopeId) :
    s.releaseLeasedIn o held id = s.releaseLeased held id := by
  cases h : (s.settle held).liveLease? id with
  | none => simp only [releaseLeasedIn, releaseLeased, h]
  | some lease => simp only [releaseLeasedIn, releaseLeased, h, collectIn_eq]

theorem releaseIn_eq (held : List Ref) (id : ScopeId) :
    s.releaseIn o held id = s.release held id := by
  rw [releaseIn, release, releaseLeasedIn_eq]

/-- Which cell is emptied first makes no difference to scopes and cells. -/
theorem sameCells_carryOut (v : Verdict) {rs : List Ref} (h : rs.Perm v.unreached) :
    SameScopes (s.carryOut v) (s.carryOut { v with unreached := rs }) ∧
      ∀ r, (s.carryOut { v with unreached := rs }).cell? r = (s.carryOut v).cell? r := by
  have hone := emptiesAll_foldl (v.lost.foldl freeScope s) v.unreached
  have hother := emptiesAll_foldl (v.lost.foldl freeScope s) rs
  refine ⟨⟨hother.same.scopes.trans hone.same.scopes.symm,
    hother.same.free.trans hone.same.free.symm, rfl, rfl,
    hother.same.globalLease.trans hone.same.globalLease.symm⟩, fun r => ?_⟩
  exact (hother.cell? r).trans ((if_congr h.mem_iff rfl rfl).trans (hone.cell? r).symm)

end Store

end TinyScript
