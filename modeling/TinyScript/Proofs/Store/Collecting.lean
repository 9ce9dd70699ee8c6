/-
  TinyScript.Proofs.Store.Collecting — what a collection does.

  A retained scope stays if references lead to its lease from a node that is held from outside the
  graph, or from the lease of a scope above one that still runs (`Stays`). All other retained scopes
  are freed, and the nodes that nothing leads to are emptied (`collects_collect`). A scope that
  stays keeps those above it, so places, leases and chains are in order again afterwards
  (`Collects.orderly`).
-/

import TinyScript.Proofs.Store.Counting

namespace TinyScript.Store

variable {s t : Store} {held : List Ref} {ids : List ScopeId} {r x y : Ref} {i j p : ScopeId}

/-! ## Freeing and emptying one after the other -/

structure FreesAll (s t : Store) (ids : List ScopeId) : Prop where
  cells : t.cells = s.cells
  free : t.free = ids.reverse ++ s.free
  retained : t.retained = s.retained
  limit : t.limit = s.limit
  globalLease : t.globalLease = s.globalLease
  next : t.next = s.next
  size : t.scopes.size = s.scopes.size
  scope : ∀ j, t.scope j = if j ∈ ids then vacated (s.scope j) else s.scope j

theorem freesAll_foldl (s : Store) (ids : List ScopeId) (h : ∀ i ∈ ids, i < s.scopes.size) :
    FreesAll s (ids.foldl freeScope s) ids := by
  induction ids generalizing s with
  | nil => exact ⟨rfl, rfl, rfl, rfl, rfl, rfl, rfl, fun j => by simp⟩
  | cons i ids ih =>
    have hone := frees_freeScope s (h i (by simp))
    have hall := ih (s.freeScope i) fun j hj => by
      rw [hone.size]
      exact h j (List.mem_cons_of_mem _ hj)
    refine ⟨hall.cells.trans hone.cells, ?_, hall.retained.trans hone.retained,
      hall.limit.trans hone.limit, hall.globalLease.trans hone.globalLease,
      hall.next.trans hone.next, hall.size.trans hone.size, fun j => ?_⟩
    · rw [List.foldl_cons, hall.free, hone.free]
      simp
    · rw [List.foldl_cons, hall.scope, hone.scope]
      by_cases hj : j = i
      · subst hj
        simp [vacated]
      · simp [hj]

theorem emptied_emptied (c : Cell) : c.emptied.emptied = c.emptied := by cases c <;> rfl

structure EmptiesAll (s t : Store) (rs : List Ref) : Prop where
  same : SameScopes s t
  next : t.next = s.next
  cell? : ∀ r, t.cell? r = if r ∈ rs then (s.cell? r).map Cell.emptied else s.cell? r

theorem emptiesAll_foldl (s : Store) (rs : List Ref) : EmptiesAll s (rs.foldl emptyCell s) rs := by
  induction rs generalizing s with
  | nil => exact ⟨.refl s, rfl, fun r => by simp⟩
  | cons x rs ih =>
    have hone := changesCell_emptyCell s x
    have hall := ih (s.emptyCell x)
    refine ⟨hone.same.trans hall.same, hall.next.trans hone.next, fun r => ?_⟩
    rw [List.foldl_cons, hall.cell?, hone.cell?]
    by_cases hr : r = x
    · subst hr
      by_cases hm : r ∈ rs <;> simp [hm, Function.comp_def, emptied_emptied]
    · simp [hr]

/-! ## Scopes above those that run -/

theorem mem_foldl_insert (ids : List ScopeId) (above : Std.TreeSet ScopeId) :
    i ∈ ids.foldl (fun above id => above.insert id) above ↔ i ∈ above ∨ i ∈ ids := by
  induction ids generalizing above with
  | nil => simp
  | cons j ids ih =>
    rw [List.foldl_cons, ih, Std.TreeSet.mem_insert, List.mem_cons, Nat.compare_eq_eq]
    constructor
    · rintro ((h | h) | h)
      · exact .inr (.inl h.symm)
      · exact .inl h
      · exact .inr (.inr h)
    · rintro (h | h | h)
      · exact .inl (.inr h)
      · exact .inl (.inl h.symm)
      · exact .inr h

theorem mem_ancestors : i ∈ s.ancestors ↔
    ∃ j, (s.scope j).released = false ∧ i ∈ s.chainFrom s.scopes.size (s.scope j).parent := by
  have hfold : ∀ (scopes : List Scope) (above : Std.TreeSet ScopeId),
      i ∈ scopes.foldl (fun above scope => if scope.released then above
        else (s.chainFrom s.scopes.size scope.parent).foldl (fun above id => above.insert id) above)
        above ↔ i ∈ above ∨ ∃ scope ∈ scopes, scope.released = false ∧
          i ∈ s.chainFrom s.scopes.size scope.parent := by
    intro scopes
    induction scopes with
    | nil => simp
    | cons scope scopes ih =>
      intro above
      rw [List.foldl_cons, ih]
      cases hr : scope.released with
      | true => simp [hr]
      | false => simp [hr, mem_foldl_insert, or_assoc]
  rw [ancestors, ← Array.foldl_toList, hfold]
  simp only [Std.TreeSet.not_mem_emptyc, false_or]
  constructor
  · rintro ⟨scope, hs, ho, hi⟩
    obtain ⟨j, hj, rfl⟩ := List.getElem_of_mem hs
    have hj : j < s.scopes.size := by simpa using hj
    have he : s.scope j = s.scopes[j] := by simp [scope, Array.getD, hj]
    exact ⟨j, by simpa [he] using ho, by simpa [he] using hi⟩
  · rintro ⟨j, ho, hi⟩
    have hj : j < s.scopes.size := by
      by_contra hlt
      rw [scope_of_ge (Nat.not_lt.1 hlt)] at ho
      cases ho
    exact ⟨s.scope j, by simp [scope, Array.getD, hj], ho, hi⟩

/-! ## The verdict -/

abbrev follow (s : Store) (ids : List ScopeId) : Ref → List Ref := s.successors (s.candidatesOf ids)

def Node (s : Store) (ids : List ScopeId) (x : Ref) : Prop :=
  ∃ i ∈ ids, ∃ r, s.liveLease? i = some r ∧ Leads (s.follow ids) r x

theorem exists_lease_leads (s : Store) (ids : List ScopeId) :
    (∃ r ∈ ids.filterMap s.liveLease?, Leads (s.follow ids) r x) ↔ s.Node ids x := by
  simp only [List.mem_filterMap, Node]
  constructor
  · rintro ⟨r, ⟨i, hi, hr⟩, hx⟩
    exact ⟨i, hi, r, hr, hx⟩
  · rintro ⟨i, hi, r, hr, hx⟩
    exact ⟨r, ⟨i, hi, hr⟩, hx⟩

/-- As many rounds as there are references are enough for a walk. -/
theorem mem_walk (s : Store) (ids : List ScopeId) {todo : List Ref} :
    x ∈ reach (s.follow ids) (todo.length + s.edgeCount) todo ∅ ↔
      ∃ r ∈ todo, Leads (s.follow ids) r x :=
  mem_reach (fun _ hx => mem_there_of_successors hx)
    (Nat.add_le_add_left (sum_successors_le s ids) _)

/-- The verdict follows from two walks: one from all leases, and one from the nodes that are
    referred to more often than from within and from the leases of scopes above those that run. -/
theorem judge_walks (s : Store) (ids : List ScopeId) (count : Ref → Nat) :
    ∃ nodes reached : RefSet,
    (∀ x, x ∈ nodes ↔ s.Node ids x) ∧
    (∀ x, x ∈ reached ↔ ∃ r, (r ∈ nodes ∧ (inner (s.follow ids) nodes).of r < count r ∨
      ∃ i ∈ ids, i ∈ s.ancestors ∧ s.liveLease? i = some r) ∧ Leads (s.follow ids) r x) ∧
    (s.judge count ids).kept = (ids.filter fun i => (s.liveLease? i).any reached.contains) ∧
    (s.judge count ids).lost = (ids.filter fun i => !(s.liveLease? i).any reached.contains) ∧
    (s.judge count ids).unreached = nodes.toList.filter fun r => !reached.contains r := by
  refine ⟨_, _, ?_, ?_, rfl, rfl, rfl⟩
  · intro x
    rw [mem_walk, exists_lease_leads]
  · intro x
    rw [mem_walk]
    refine exists_congr fun r => and_congr_left fun _ => ?_
    rw [List.mem_append, List.mem_filter, Std.TreeSet.mem_toList, List.mem_filterMap]
    refine or_congr (and_congr_right fun _ => by simp) ?_
    refine exists_congr fun i => and_congr_right fun _ => ?_
    by_cases hi : i ∈ s.ancestors <;> simp [hi]

/-! ## What stays -/

def candidates (s : Store) : List ScopeId :=
  s.retained.toList.filter fun i => (s.liveLease? i).isSome

theorem mem_candidates : i ∈ s.candidates ↔ i ∈ s.retained ∧ (s.liveLease? i).isSome := by
  simp [candidates]

theorem apart_candidates (hp : Places s) (hl : Leases s) : Apart s s.candidates := by
  refine ⟨hp.retainedNodup.filter _, fun i _ j _ r hi hj => ?_⟩
  exact hl.distinct i j r (liveLease?_eq_some.1 hi).1 (liveLease?_eq_some.1 hj).1

/-- Someone who is not in the graph holds the cell: from outside the store, in a scope that is no
    candidate, or in a cell that is no node or is not looked into. -/
def HeldOutside (s : Store) (held : List Ref) (r : Ref) : Prop :=
  (r = s.globalLease ∨ r ∈ held) ∨ (∃ i, i ∉ s.candidates ∧ r ∈ (s.scope i).refs) ∨
    ∃ x, r ∈ s.refsAt x ∧ (s.Node s.candidates x → r ∉ s.linksAt x)

/-- A scope that is above one that runs. -/
def Above (s : Store) (i : ScopeId) : Prop :=
  ∃ j p chain, (s.scope j).released = false ∧ (s.scope j).parent = some p ∧ Chain s p chain ∧
    i ∈ chain

/-- References lead to the node from one that is held from outside, or from the lease of a scope
    above one that runs. -/
def Reached (s : Store) (held : List Ref) (x : Ref) : Prop :=
  ∃ r, (s.Node s.candidates r ∧ s.HeldOutside held r ∨
    ∃ i ∈ s.candidates, s.Above i ∧ s.liveLease? i = some r) ∧ Leads (s.follow s.candidates) r x

def Stays (s : Store) (held : List Ref) (i : ScopeId) : Prop :=
  ∃ r, s.liveLease? i = some r ∧ s.Reached held r

structure Verdict.Right (v : Verdict) (s : Store) (held : List Ref) : Prop where
  keptNodup : v.kept.Nodup
  lostNodup : v.lost.Nodup
  mem_kept : ∀ i, i ∈ v.kept ↔ i ∈ s.candidates ∧ s.Stays held i
  mem_lost : ∀ i, i ∈ v.lost ↔ i ∈ s.candidates ∧ ¬ s.Stays held i
  mem_unreached : ∀ r, r ∈ v.unreached ↔ s.Node s.candidates r ∧ ¬ s.Reached held r

/-! ## Scopes whose lease is gone are freed first -/

def forsaken (s : Store) : List ScopeId :=
  s.retained.toList.filter fun i => !(s.liveLease? i).isSome

theorem mem_forsaken : i ∈ s.forsaken ↔ i ∈ s.retained ∧ s.liveLease? i = none := by
  simp [forsaken]

theorem mem_candidates_or_forsaken (h : i ∈ s.retained) : i ∈ s.candidates ∨ i ∈ s.forsaken := by
  cases hl : s.liveLease? i with
  | none => exact .inr (mem_forsaken.2 ⟨h, hl⟩)
  | some r => exact .inl (mem_candidates.2 ⟨h, by simp [hl]⟩)

theorem not_mem_forsaken_of_candidate (h : i ∈ s.candidates) : i ∉ s.forsaken := by
  intro hm
  have hl := (mem_candidates.1 h).2
  simp [(mem_forsaken.1 hm).2] at hl

theorem not_mem_forsaken_of_inUse (h : Places s) (hi : s.InUse i) : i ∉ s.forsaken := by
  intro hm
  obtain ⟨hr, hl⟩ := mem_forsaken.1 hm
  have hrel := ((h.mem_retained i).1 hr).2.1
  rcases hi with ho | hi
  · simp [hrel] at ho
  · simp [hl] at hi

namespace FreesAll

variable (h : FreesAll s t s.forsaken)
include h

theorem scope_of_inUse (hp : Places s) (hi : s.InUse i) : t.scope i = s.scope i := by
  rw [h.scope, if_neg (not_mem_forsaken_of_inUse hp hi)]

theorem scope_of_candidate (hi : i ∈ s.candidates) : t.scope i = s.scope i := by
  rw [h.scope, if_neg (not_mem_forsaken_of_candidate hi)]

theorem liveLease?_of_candidate (hi : i ∈ s.candidates) : t.liveLease? i = s.liveLease? i := by
  simp only [liveLease?, h.scope_of_candidate hi, h.cells]

theorem follow_eq (hs : Apart s s.candidates) : t.follow s.candidates = s.follow s.candidates := by
  have hc : t.candidatesOf s.candidates = s.candidatesOf s.candidates := by
    unfold candidatesOf
    apply List.foldl_ext
    intro c i hi
    rw [h.liveLease?_of_candidate hi]
  funext x
  unfold follow successors
  rw [hc]
  simp only [cell?, h.cells]
  cases hx : (s.candidatesOf s.candidates)[x]? with
  | none => rfl
  | some i => simp only [h.scope_of_candidate ((getElem?_candidatesOf hs).1 hx).1]

/-- The scopes above those that run are still there. -/
theorem mem_ancestors (hs : Orderly s) : i ∈ t.ancestors ↔ s.Above i := by
  have hchain : ∀ p, s.InUse p → ∃ chain, Chain s p chain ∧
      t.chainFrom t.scopes.size (some p) = chain := by
    intro p hp
    obtain ⟨chain, hc, hu⟩ := hs.chain_inUse hp
    refine ⟨chain, hc, ?_⟩
    have hc' : Chain t p chain :=
      hc.congr fun j hj => by rw [h.scope_of_inUse hs.places (hu j hj)]
    apply hc'.chainFrom_eq
    rw [h.size]
    exact length_le_size hc.nodup fun j hj => (hs.places.lt_of_inUse (hu j hj)).1
  rw [Store.mem_ancestors]
  constructor
  · rintro ⟨j, ho, hi⟩
    have hj : j ∉ s.forsaken := by
      intro hm
      rw [h.scope, if_pos hm] at ho
      cases ho
    rw [h.scope, if_neg hj] at ho hi
    cases hp : (s.scope j).parent with
    | none =>
      rw [hp] at hi
      unfold chainFrom at hi
      split at hi <;> simp_all
    | some p =>
      obtain ⟨chain, hc, he⟩ := hchain p (hs.upward j p (.inl ho) hp)
      rw [hp, he] at hi
      exact ⟨j, p, chain, ho, hp, hc, hi⟩
  · rintro ⟨j, p, chain, ho, hp, hc, hi⟩
    obtain ⟨other, hc', he⟩ := hchain p (hs.upward j p (.inl ho) hp)
    refine ⟨j, ?_, ?_⟩
    · rw [h.scope_of_inUse hs.places (.inl ho), ho]
    · rw [h.scope_of_inUse hs.places (.inl ho), hp, he]
      rwa [hc.unique hc'] at hi

/-- The verdict about the candidates is right about the store before the others were freed. -/
theorem judge_right (hs : Orderly s) (held : List Ref) : Verdict.Right
    (t.judge (fun r => s.counts.of r + (s.globalLease :: held).count r) s.candidates) s held := by
  have ha := apart_candidates hs.places hs.leases
  obtain ⟨nodes, reached, hnodes, hreached, hkept, hlost, hunreached⟩ := judge_walks t s.candidates
    fun r => s.counts.of r + (s.globalLease :: held).count r
  have hnodes : ∀ x, x ∈ nodes ↔ s.Node s.candidates x := by
    intro x
    rw [hnodes, Node, Node, h.follow_eq ha]
    refine exists_congr fun i => and_congr_right fun hi => ?_
    rw [h.liveLease?_of_candidate hi]
  have hlease : ∀ i ∈ s.candidates, ∃ r ∈ nodes, s.liveLease? i = some r := by
    intro i hi
    obtain ⟨r, hr⟩ := Option.isSome_iff_exists.1 (mem_candidates.1 hi).2
    exact ⟨r, (hnodes r).2 ⟨i, hi, r, hr, .refl⟩, hr⟩
  have hreached : ∀ x, x ∈ reached ↔ s.Reached held x := by
    intro x
    rw [hreached, h.follow_eq ha]
    refine exists_congr fun r => and_congr_left fun _ => or_congr ?_ ?_
    · rw [hnodes, inner_lt_iff ha hlease, List.count_pos_iff, List.mem_cons]
      refine and_congr_right fun _ => or_congr_right (or_congr_right (exists_congr fun x => ?_))
      rw [hnodes]
    · refine exists_congr fun i => and_congr_right fun hi => ?_
      rw [h.mem_ancestors hs, h.liveLease?_of_candidate hi]
  have hstays : ∀ i ∈ s.candidates,
      (t.liveLease? i).any reached.contains = true ↔ s.Stays held i := by
    intro i hi
    simp [h.liveLease?_of_candidate hi, Stays, Option.any_eq_true, hreached]
  refine ⟨hkept ▸ ha.1.filter _, hlost ▸ ha.1.filter _, fun i => ?_, fun i => ?_, fun r => ?_⟩
  · rw [hkept, List.mem_filter]
    exact and_congr_right (hstays i)
  · rw [hlost, List.mem_filter, Bool.not_eq_true', ← Bool.not_eq_true]
    exact and_congr_right fun hi => not_congr (hstays i hi)
  · rw [hunreached, List.mem_filter, Std.TreeSet.mem_toList, hnodes, ← hreached,
      Bool.not_eq_true', ← Bool.not_eq_true, Std.TreeSet.contains_iff_mem]

end FreesAll

/-! ## A collection -/

structure Collects (s : Store) (held : List Ref) (t : Store) : Prop where
  size : t.scopes.size = s.scopes.size
  next : t.next = s.next
  globalLease : t.globalLease = s.globalLease
  limit : t.limit = max leastLimit (2 * t.retained.size)
  free : ∃ new : List ScopeId, t.free = new ++ s.free ∧ new.Nodup ∧
    ∀ i, i ∈ new ↔ i ∈ s.retained ∧ ¬ s.Stays held i
  retainedNodup : t.retained.toList.Nodup
  mem_retained : ∀ i, i ∈ t.retained ↔ i ∈ s.retained ∧ s.Stays held i
  freed : ∀ i, i ∈ s.retained → ¬ s.Stays held i → t.scope i = vacated (s.scope i)
  kept : ∀ i, (i ∈ s.retained → s.Stays held i) → t.scope i = s.scope i
  emptied : ∀ r, s.Node s.candidates r → ¬ s.Reached held r →
    t.cell? r = (s.cell? r).map Cell.emptied
  same : ∀ r, (s.Node s.candidates r → s.Reached held r) → t.cell? r = s.cell? r

theorem Stays.mem_candidates (h : s.Stays held i) (hi : i ∈ s.retained) : i ∈ s.candidates := by
  obtain ⟨r, hr, _⟩ := h
  exact Store.mem_candidates.2 ⟨hi, by simp [hr]⟩

def carryOut (s : Store) (v : Verdict) : Store :=
  { v.unreached.foldl emptyCell (v.lost.foldl freeScope s) with
    retained := v.kept.toArray
    limit := max leastLimit (2 * v.kept.length) }

theorem collect_eq (s : Store) (held : List Ref) :
    s.collect held = ((s.settle held).forsaken.foldl freeScope (s.settle held)).carryOut
      (((s.settle held).forsaken.foldl freeScope (s.settle held)).judge
        (fun r => (s.settle held).counts.of r + ((s.settle held).globalLease :: held).count r)
        (s.settle held).candidates) := by
  have hcount : (fun r => (s.settle held).counts.of r +
      (Counts.addAll ∅ ((s.settle held).globalLease :: held)).of r) =
      fun r => (s.settle held).counts.of r + ((s.settle held).globalLease :: held).count r := by
    funext r
    rw [Counts.of_addAll]
    exact congrArg _ (Nat.zero_add _)
  rw [← hcount]
  unfold collect
  simp only [List.partition_eq_filter_filter]
  rfl

/-- A collection frees the forsaken scopes and then those that it finds lost. -/
theorem Verdict.Right.mem_freed {v : Verdict} (h : v.Right s held) :
    i ∈ s.forsaken ++ v.lost ↔ i ∈ s.retained ∧ ¬ s.Stays held i := by
  rw [List.mem_append, h.mem_lost]
  constructor
  · rintro (hf | ⟨hc, hs⟩)
    · refine ⟨(mem_forsaken.1 hf).1, fun hs => ?_⟩
      exact not_mem_forsaken_of_candidate (hs.mem_candidates (mem_forsaken.1 hf).1) hf
    · exact ⟨(mem_candidates.1 hc).1, hs⟩
  · rintro ⟨hr, hs⟩
    rcases mem_candidates_or_forsaken hr with hc | hf
    · exact .inr ⟨hc, hs⟩
    · exact .inl hf

theorem Verdict.Right.freed_nodup {v : Verdict} (h : v.Right s held) (hp : Places s) :
    (s.forsaken ++ v.lost).Nodup := by
  refine List.nodup_append.2 ⟨hp.retainedNodup.filter _, h.lostNodup, ?_⟩
  rintro i hf j hl rfl
  exact not_mem_forsaken_of_candidate ((h.mem_lost i).1 hl).1 hf

/-- Carrying out the right verdict, once the forsaken scopes are freed, is a collection. -/
theorem collects_carryOut (hp : Places s) {v : Verdict} (hv : v.Right s held) :
    Collects s held ((s.forsaken.foldl freeScope s).carryOut v) := by
  have hfree : FreesAll s (v.lost.foldl freeScope (s.forsaken.foldl freeScope s))
      (s.forsaken ++ v.lost) := by
    rw [← List.foldl_append]
    exact freesAll_foldl s _ fun i hi => ((hp.mem_retained i).1 (hv.mem_freed.1 hi).1).1
  have hempty := emptiesAll_foldl (v.lost.foldl freeScope (s.forsaken.foldl freeScope s))
    v.unreached
  generalize s.forsaken.foldl freeScope s = gone at *
  have hscope : ∀ i, (gone.carryOut v).scope i =
      if i ∈ s.forsaken ++ v.lost then vacated (s.scope i) else s.scope i :=
    fun i => (hempty.same.scope i).trans (hfree.scope i)
  have hcell : ∀ r, (gone.carryOut v).cell? r =
      if r ∈ v.unreached then (s.cell? r).map Cell.emptied else s.cell? r := by
    intro r
    have := hempty.cell? r
    simp only [cell?, hfree.cells] at this
    exact this
  refine ⟨hempty.same.size.trans hfree.size, hempty.next.trans hfree.next,
    hempty.same.globalLease.trans hfree.globalLease, ?_,
    ⟨(s.forsaken ++ v.lost).reverse, hempty.same.free.trans hfree.free,
      List.nodup_reverse.2 (hv.freed_nodup hp), ?_⟩, hv.keptNodup, ?_, ?_, ?_, ?_, ?_⟩
  · simp [carryOut]
  · intro i
    rw [List.mem_reverse, hv.mem_freed]
  · intro i
    show i ∈ v.kept.toArray ↔ _
    rw [List.mem_toArray, hv.mem_kept]
    constructor
    · rintro ⟨hc, hs⟩
      exact ⟨(mem_candidates.1 hc).1, hs⟩
    · rintro ⟨hr, hs⟩
      exact ⟨hs.mem_candidates hr, hs⟩
  · intro i hi hs
    rw [hscope, if_pos (hv.mem_freed.2 ⟨hi, hs⟩)]
  · intro i hi
    rw [hscope, if_neg]
    intro hf
    obtain ⟨hr, hs⟩ := hv.mem_freed.1 hf
    exact hs (hi hr)
  · intro r hn hr
    rw [hcell, if_pos ((hv.mem_unreached r).2 ⟨hn, hr⟩)]
  · intro r hr
    rw [hcell, if_neg]
    intro hu
    obtain ⟨hn, hnot⟩ := (hv.mem_unreached r).1 hu
    exact hnot (hr hn)

theorem collects_collect (h : Orderly (s.settle held)) :
    Collects (s.settle held) held (s.collect held) := by
  rw [collect_eq]
  generalize s.settle held = t at h ⊢
  have hgone : FreesAll t (t.forsaken.foldl freeScope t) t.forsaken :=
    freesAll_foldl t _ fun i hi => ((h.places.mem_retained i).1 (mem_forsaken.1 hi).1).1
  exact collects_carryOut h.places (hgone.judge_right h held)

/-! ## Order after a collection -/

theorem mem_follow_of_linksAt (h : y ∈ s.linksAt x) : y ∈ s.follow ids x := by
  rw [follow, successors_eq]
  exact List.mem_append_right _ h

theorem Reached.link (h : s.Reached held x) (hy : y ∈ s.linksAt x) : s.Reached held y := by
  obtain ⟨r, hr, hx⟩ := h
  exact ⟨r, hr, hx.tail (mem_follow_of_linksAt hy)⟩

theorem Orderly.candidate_of_inUse (h : Orderly s) (hi : s.InUse i) (hr : i ∈ s.retained) :
    ∃ r, s.liveLease? i = some r ∧ i ∈ s.candidates := by
  rcases hi with ho | hl
  · exact absurd hr (h.places.not_retained ho)
  · obtain ⟨r, hr'⟩ := Option.isSome_iff_exists.1 hl
    exact ⟨r, hr', mem_candidates.2 ⟨hr, hl⟩⟩

/-- A scope that is in use and not freed keeps the one above it. -/
theorem Orderly.stays_above (h : Orderly s) (hj : s.InUse j) (hs : j ∈ s.retained → s.Stays held j)
    (hp : (s.scope j).parent = some p) (hr : p ∈ s.retained) : s.Stays held p := by
  have hup := h.upward j p hj hp
  obtain ⟨lease, hlease, hc⟩ := h.candidate_of_inUse hup hr
  refine ⟨lease, hlease, ?_⟩
  by_cases ho : (s.scope j).released = false
  · -- above one that runs
    obtain ⟨chain, hchain⟩ := h.rooted p hup
    exact ⟨lease, .inr ⟨p, hc, ⟨j, p, chain, ho, hp, hchain, hchain.head_mem⟩, hlease⟩, .refl⟩
  · -- the lease of one that stays refers to the lease above it
    have hj' : j ∈ s.retained := by
      obtain ⟨hlt, hf⟩ := h.places.lt_of_inUse hj
      exact (h.places.mem_retained j).2 ⟨hlt, by simpa using ho, hf⟩
    obtain ⟨below, hbelow, hreached⟩ := hs hj'
    refine hreached.link (mem_linksAt.2 ⟨_, h.leases.isLease j below hbelow, ?_⟩)
    simp [Cell.links, leaseAbove, hp, (liveLease?_eq_some.1 hlease).1]

/-- The store itself holds the lease of the global scope. -/
theorem Orderly.stays_global (h : Orderly s) (hr : global ∈ s.retained) : s.Stays held global := by
  obtain ⟨r, hl, hc⟩ := h.candidate_of_inUse h.leases.inUse_global hr
  cases hl.symm.trans h.leases.globalLease
  exact ⟨_, hl, _, .inl ⟨⟨global, hc, _, hl, .refl⟩, .inl (.inl rfl)⟩, .refl⟩

namespace Collects

variable (h : Collects s held t)
include h

theorem mem_cells : r ∈ t.cells ↔ r ∈ s.cells := by
  rw [Store.mem_cells, Store.mem_cells]
  by_cases hr : s.Node s.candidates r → s.Reached held r
  · rw [h.same r hr]
  · rw [Classical.not_imp] at hr
    rw [h.emptied r hr.1 hr.2]
    cases s.cell? r <;> simp

/-- A scope is freed, or it is as it was. -/
theorem scope_cases (i : ScopeId) :
    i ∈ s.retained ∧ ¬ s.Stays held i ∧ t.scope i = vacated (s.scope i) ∨
      (i ∈ s.retained → s.Stays held i) ∧ t.scope i = s.scope i := by
  by_cases hi : i ∈ s.retained → s.Stays held i
  · exact .inr ⟨hi, h.kept i hi⟩
  · rw [Classical.not_imp] at hi
    exact .inl ⟨hi.1, hi.2, h.freed i hi.1 hi.2⟩

theorem liveLease?_of_kept (hi : t.scope i = s.scope i) : t.liveLease? i = s.liveLease? i := by
  ext r
  rw [liveLease?_eq_some, liveLease?_eq_some, hi, h.mem_cells]

/-- Who is in use after a collection was in use before it, and was not freed. -/
theorem inUse_iff : t.InUse i ↔ s.InUse i ∧ (i ∈ s.retained → s.Stays held i) := by
  rcases h.scope_cases i with ⟨hr, hs, he⟩ | ⟨hs, he⟩
  · refine ⟨fun hi => ?_, fun hi => absurd (hi.2 hr) hs⟩
    rcases hi with ho | hl
    · rw [he] at ho
      cases ho
    · obtain ⟨r, hl, _⟩ := liveLease?_isSome.1 hl
      rw [he] at hl
      cases hl
  · simp only [InUse, he, h.liveLease?_of_kept he]
    exact ⟨fun hi => ⟨hi, hs⟩, fun hi => hi.1⟩

theorem scope_of_inUse (hi : t.InUse i) : t.scope i = s.scope i := h.kept i (h.inUse_iff.1 hi).2

theorem upward (ho : Orderly s) (hi : t.InUse i) (hp : (t.scope i).parent = some p) :
    t.InUse p := by
  obtain ⟨hu, hs⟩ := h.inUse_iff.1 hi
  rw [h.scope_of_inUse hi] at hp
  exact h.inUse_iff.2 ⟨ho.upward i p hu hp, ho.stays_above hu hs hp⟩

theorem mem_free : i ∈ t.free ↔ i ∈ s.free ∨ i ∈ s.retained ∧ ¬ s.Stays held i := by
  obtain ⟨new, he, _, hnew⟩ := h.free
  rw [he, List.mem_append, hnew, or_comm]

theorem places (ho : Orderly s) : Places t := by
  obtain ⟨new, hfree, hnodup, hnew⟩ := h.free
  have hp := ho.places
  have hglobal : global ∉ t.free := by
    rw [h.mem_free]
    rintro (hf | ⟨hr, hs⟩)
    · exact hp.globalStays hf
    · exact hs (ho.stays_global hr)
  refine ⟨?_, ?_, h.retainedNodup, ?_, ?_, ?_, ?_, h.size ▸ hp.globalLt, hglobal⟩
  · rw [hfree]
    refine List.nodup_append.2 ⟨hnodup, hp.freeNodup, ?_⟩
    rintro i hi j hj rfl
    exact ((hp.mem_retained i).1 ((hnew i).1 hi).1).2.2 hj
  · intro i hi
    rw [h.size]
    rcases h.mem_free.1 hi with hf | ⟨hr, _⟩
    · exact hp.freeLt i hf
    · exact ((hp.mem_retained i).1 hr).1
  · intro i
    rw [h.mem_retained, h.size, h.mem_free]
    constructor
    · rintro ⟨hr, hs⟩
      obtain ⟨hlt, hrel, hf⟩ := (hp.mem_retained i).1 hr
      refine ⟨hlt, by rw [h.kept i fun _ => hs, hrel], ?_⟩
      rintro (hf' | ⟨_, hns⟩)
      · exact hf hf'
      · exact hns hs
    · rintro ⟨hlt, hrel, hno⟩
      have hr : i ∈ s.retained := by
        rcases h.scope_cases i with ⟨hr, _, _⟩ | ⟨_, he⟩
        · exact hr
        · exact (hp.mem_retained i).2 ⟨hlt, he ▸ hrel, fun hf => hno (.inl hf)⟩
      by_contra hs
      exact hno (.inr ⟨hr, fun hst => hs ⟨hr, hst⟩⟩)
  · intro i hi
    rcases h.scope_cases i with ⟨_, _, he⟩ | ⟨hs, he⟩
    · rw [he]
      rfl
    · rcases h.mem_free.1 hi with hf | ⟨hr, hns⟩
      · rw [he]
        exact hp.vacant i hf
      · exact absurd (hs hr) hns
  · intro i hlt hno
    rw [h.kept i fun hr => by_contra fun hs => hno (h.mem_free.2 (.inr ⟨hr, hs⟩))]
    exact hp.leased i (h.size ▸ hlt) fun hf => hno (h.mem_free.2 (.inl hf))
  · intro i hlt hno
    rw [h.kept i fun hr => by_contra fun hs => hno (h.mem_free.2 (.inr ⟨hr, hs⟩))]
    exact hp.top i (h.size ▸ hlt) fun hf => hno (h.mem_free.2 (.inl hf))

theorem limits : Limits t := by
  have := h.limit
  have hleast : 0 < leastLimit := by decide
  exact ⟨by omega, by omega⟩

theorem leases (ho : Orderly s) : Leases t := by
  have hs := ho.leases
  -- whoever has a lease was not freed
  have hkept : ∀ i r, (t.scope i).lease = some r → t.scope i = s.scope i := by
    intro i r hr
    rcases h.scope_cases i with ⟨_, _, he⟩ | ⟨_, he⟩
    · rw [he] at hr
      cases hr
    · exact he
  refine ⟨fun i r hr => ?_, fun i p hi hp => ?_, fun i j r hi hj => ?_, fun i r hr => ?_,
    fun r hr => ?_, ?_⟩
  · have he := hkept i r (liveLease?_eq_some.1 hr).1
    have hlive := h.liveLease?_of_kept he ▸ hr
    have hcell := hs.isLease i r hlive
    rw [leaseAbove_congr he fun p hp => h.scope_of_inUse (h.upward ho (.inr (by simp [hr])) hp)]
    by_cases hn : s.Node s.candidates r → s.Reached held r
    · rw [h.same r hn, hcell]
    · rw [Classical.not_imp] at hn
      rw [h.emptied r hn.1 hn.2, hcell]
      rfl
  · obtain ⟨r, hr⟩ := Option.isSome_iff_exists.1 hi
    have hu := h.upward ho (.inr hi) hp
    have he := hkept i r (liveLease?_eq_some.1 hr).1
    rw [h.liveLease?_of_kept (h.scope_of_inUse hu)]
    exact hs.above i p (by simp [← h.liveLease?_of_kept he, hr]) (he ▸ hp)
  · exact hs.distinct i j r (hkept i r hi ▸ hi) (hkept j r hj ▸ hj)
  · rw [h.next]
    exact hs.leaseLt i r (hkept i r hr ▸ hr)
  · rw [h.next]
    exact hs.cellLt r (h.mem_cells.1 hr)
  · have he : t.scope global = s.scope global := h.kept global ho.stays_global
    rw [h.liveLease?_of_kept he, h.globalLease]
    exact hs.globalLease

theorem orderly (ho : Orderly s) : Orderly t := by
  refine ⟨h.places ho, h.leases ho, ?_, fun _ _ => h.upward ho⟩
  exact ho.rooted.of_kept (fun i hi => ⟨(h.inUse_iff.1 hi).1, h.scope_of_inUse hi⟩)
    fun _ _ => h.upward ho

/-- A collection adds no references. -/
theorem linked (hl : Linked s) : Linked t := by
  intro r hr
  rw [h.mem_cells]
  apply hl
  rw [counts_pos] at hr ⊢
  rcases hr with ⟨i, hi⟩ | ⟨x, c, hx, hc⟩
  · rcases h.scope_cases i with ⟨_, _, he⟩ | ⟨_, he⟩
    · rw [he] at hi
      simp [vacated, Scope.refs, Scope.vacant, mapRefs] at hi
    · exact .inl ⟨i, he ▸ hi⟩
  · by_cases hn : s.Node s.candidates x → s.Reached held x
    · exact .inr ⟨x, c, h.same x hn ▸ hx, hc⟩
    · rw [Classical.not_imp] at hn
      rw [h.emptied x hn.1 hn.2] at hx
      obtain ⟨d, hd, rfl⟩ := Option.map_eq_some_iff.1 hx
      refine .inr ⟨x, d, hd, ?_⟩
      cases d <;> simp_all [Cell.emptied, Cell.refs, Cell.links, mapRefs]

end Collects

end TinyScript.Store
