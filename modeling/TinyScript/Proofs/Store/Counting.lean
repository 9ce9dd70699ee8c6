/-
  TinyScript.Proofs.Store.Counting — counts tell who is held from outside.

  A collection compares how often a cell is referred to with how often it is referred to from
  within the graph of the candidates. Both are sums over the holders of references: the counts over
  all scopes and cells (`counts_eq_sum`), the inner ones over the candidates and the nodes
  (`sum_successors`). So the first is the greater exactly if a holder is not in the graph
  (`inner_lt_iff`).
-/

import Mathlib.Algebra.BigOperators.Fin
import TinyScript.Proofs.Store.Tracing

namespace TinyScript.Store

variable {s : Store} {ids : List ScopeId} {r x y : Ref} {i : ScopeId}

/-! ## Sums over holders -/

def refsAt (s : Store) (x : Ref) : List Ref := ((s.cell? x).map Cell.refs).getD []

def linksAt (s : Store) (x : Ref) : List Ref := ((s.cell? x).map Cell.links).getD []

def there (s : Store) : Finset Ref := s.cells.keys.toFinset

theorem mem_there : x ∈ s.there ↔ x ∈ s.cells := by simp [there]

theorem refsAt_of_not_mem (h : x ∉ s.cells) : s.refsAt x = [] := by
  simp [refsAt, cell?_eq_none.2 h]

theorem linksAt_of_not_mem (h : x ∉ s.cells) : s.linksAt x = [] := by
  simp [linksAt, cell?_eq_none.2 h]

theorem mem_refsAt : r ∈ s.refsAt x ↔ ∃ c, s.cell? x = some c ∧ r ∈ c.refs := by
  cases h : s.cell? x <;> simp [refsAt, h]

theorem mem_linksAt : r ∈ s.linksAt x ↔ ∃ c, s.cell? x = some c ∧ r ∈ c.links := by
  cases h : s.cell? x <;> simp [linksAt, h]

/-- A collection follows all references of a cell or none of them. -/
theorem links_cases (c : Cell) : c.links = c.refs ∨ c.links = [] := by
  cases c with
  | native => exact .inr rfl
  | _ => exact .inl rfl

theorem linksAt_cases (s : Store) (x : Ref) : s.linksAt x = s.refsAt x ∨ s.linksAt x = [] := by
  unfold linksAt refsAt
  cases s.cell? x with
  | none => exact .inr rfl
  | some c => exact links_cases c

theorem sum_entries (cells : Cells) (f : Cell → Nat) :
    (cells.toList.map fun e => f e.2).sum =
      ∑ x ∈ cells.keys.toFinset, (cells[x]?.map f).getD 0 := by
  have hd : cells.keys.Nodup := by simpa [List.Nodup] using cells.distinct_keys
  rw [List.sum_toFinset _ hd, ← Std.TreeMap.map_fst_toList_eq_keys, List.map_map]
  refine congrArg List.sum (List.map_congr_left fun e he => ?_)
  have := Std.TreeMap.mem_toList_iff_getElem?_eq_some.1 he
  simp [this]

theorem sum_scopes (scopes : Array Scope) (f : Scope → Nat) :
    (scopes.toList.map f).sum = ∑ i ∈ Finset.range scopes.size, f (scopes.getD i .vacant) := by
  rw [Finset.sum_range, ← List.sum_ofFn]
  refine congrArg List.sum (List.ext_getElem (by simp) fun n h1 h2 => ?_)
  simp [Array.getD]

/-- A reference is counted once for every time that a scope or a cell has it. -/
theorem counts_eq_sum (s : Store) (r : Ref) : s.counts.of r =
    ∑ i ∈ Finset.range s.scopes.size, (s.scope i).refs.count r +
      ∑ x ∈ s.there, (s.refsAt x).count r := by
  rw [s.counts_of, references, List.count_append, List.count_flatMap, mapRefs, List.count_flatMap]
  refine congrArg₂ (· + ·) ?_ ?_
  · exact sum_scopes s.scopes fun scope => scope.refs.count r
  · refine (sum_entries s.cells fun c => c.refs.count r).trans (Finset.sum_congr rfl fun x _ => ?_)
    unfold refsAt cell?
    cases s.cells[x]? <;> rfl

theorem foldl_add_eq {α : Type} (f : α → Nat) (xs : List α) (n : Nat) :
    xs.foldl (fun n x => n + f x) n = n + (xs.map f).sum := by
  induction xs generalizing n with
  | nil => rfl
  | cons x xs ih => rw [List.foldl_cons, ih, List.map_cons, List.sum_cons, Nat.add_assoc]

theorem edgeCount_eq_sum (s : Store) : s.edgeCount =
    ∑ i ∈ Finset.range s.scopes.size, (s.scope i).refs.length +
      ∑ x ∈ s.there, (s.refsAt x).length := by
  have hcells : s.edgeCount = s.scopes.foldl (fun n scope => n + scope.refs.length) 0 +
      (s.cells.toList.map fun e => e.2.refs.length).sum := by
    rw [edgeCount, Std.TreeMap.foldl_eq_foldl_toList]
    exact foldl_add_eq (fun e : Ref × Cell => e.2.refs.length) _ _
  rw [hcells, ← Array.foldl_toList, foldl_add_eq (fun scope : Scope => scope.refs.length),
    Nat.zero_add]
  refine congrArg₂ (· + ·) ?_ ?_
  · exact sum_scopes s.scopes fun scope => scope.refs.length
  · refine (sum_entries s.cells fun c => c.refs.length).trans (Finset.sum_congr rfl fun x _ => ?_)
    unfold refsAt cell?
    cases s.cells[x]? <;> rfl

/-! ## Candidates -/

def Apart (s : Store) (ids : List ScopeId) : Prop :=
  ids.Nodup ∧ ∀ i ∈ ids, ∀ j ∈ ids, ∀ r, s.liveLease? i = some r → s.liveLease? j = some r → i = j

theorem foldl_insert_candidates (found : Candidates) :
    (ids.foldl (fun c id => match s.liveLease? id with
      | some lease => c.insert lease id
      | none => c) found)[r]? = some i →
    found[r]? = some i ∨ i ∈ ids ∧ s.liveLease? i = some r := by
  induction ids generalizing found with
  | nil => exact .inl
  | cons j ids ih =>
    intro h
    rw [List.foldl_cons] at h
    rcases ih _ h with h | ⟨hi, h⟩
    · cases hl : s.liveLease? j with
      | none => exact .inl (by simpa [hl] using h)
      | some lease =>
        simp only [hl, Std.TreeMap.getElem?_insert] at h
        split at h
        next e =>
          cases h
          have e : lease = r := by simpa using e
          exact .inr ⟨by simp, e ▸ hl⟩
        next => exact .inl h
    · exact .inr ⟨List.mem_cons_of_mem _ hi, h⟩

theorem foldl_insert_candidates_of_mem (found : Candidates) (hl : s.liveLease? i = some r)
    (hu : ∀ j ∈ ids, s.liveLease? j = some r → j = i) (h : found[r]? = some i ∨ i ∈ ids) :
    (ids.foldl (fun c id => match s.liveLease? id with
      | some lease => c.insert lease id
      | none => c) found)[r]? = some i := by
  induction ids generalizing found with
  | nil => simpa using h
  | cons j ids ih =>
    rw [List.foldl_cons]
    refine ih _ (fun k hk => hu k (List.mem_cons_of_mem _ hk)) ?_
    by_cases hj : j = i
    · subst hj
      exact .inl (by simp [hl])
    · have hne : s.liveLease? j ≠ some r := fun e => hj (hu j (by simp) e)
      rcases h with h | h
      · left
        cases hlj : s.liveLease? j with
        | none => exact h
        | some lease =>
          have hr : ¬ lease = r := fun e => hne (e ▸ hlj)
          simpa [Std.TreeMap.getElem?_insert, hr] using h
      · rcases List.mem_cons.1 h with e | h
        · exact absurd e.symm hj
        · exact .inr h

theorem of_candidatesOf (h : (s.candidatesOf ids)[x]? = some i) :
    i ∈ ids ∧ s.liveLease? i = some x := by
  rcases foldl_insert_candidates ∅ h with h | h
  · simp at h
  · exact h

/-- Each candidate is found under its lease. -/
theorem getElem?_candidatesOf (h : Apart s ids) :
    (s.candidatesOf ids)[r]? = some i ↔ i ∈ ids ∧ s.liveLease? i = some r := by
  refine ⟨of_candidatesOf, fun ⟨hi, hl⟩ => ?_⟩
  exact foldl_insert_candidates_of_mem ∅ hl (fun j hj hlj => h.2 j hj i hi r hlj hl) (.inr hi)

def boundAt (s : Store) (ids : List ScopeId) (x : Ref) : List Ref :=
  (((s.candidatesOf ids)[x]?).map fun i => (s.scope i).refs).getD []

theorem successors_eq (s : Store) (ids : List ScopeId) (x : Ref) :
    s.successors (s.candidatesOf ids) x = s.boundAt ids x ++ s.linksAt x := by
  unfold successors boundAt linksAt
  cases (s.candidatesOf ids)[x]? <;> rfl

theorem boundAt_eq (h : Apart s ids) (hi : i ∈ ids) (hl : s.liveLease? i = some x) :
    s.boundAt ids x = (s.scope i).refs := by
  simp [boundAt, (getElem?_candidatesOf h).2 ⟨hi, hl⟩]

theorem mem_boundAt (h : Apart s ids) :
    y ∈ s.boundAt ids x ↔ ∃ i ∈ ids, s.liveLease? i = some x ∧ y ∈ (s.scope i).refs := by
  refine ⟨fun hy => ?_, fun ⟨i, hi, hl, hy⟩ => by rwa [boundAt_eq h hi hl]⟩
  cases hc : (s.candidatesOf ids)[x]? with
  | none => simp [boundAt, hc] at hy
  | some i =>
    obtain ⟨hi, hl⟩ := (getElem?_candidatesOf h).1 hc
    exact ⟨i, hi, hl, by rwa [boundAt_eq h hi hl] at hy⟩

/-- What is bound in the candidates, taken together over their leases. -/
theorem sum_boundAt (h : Apart s ids) {nodes : Finset Ref}
    (hnodes : ∀ i ∈ ids, ∃ r ∈ nodes, s.liveLease? i = some r) (f : List Ref → Nat)
    (hf : f [] = 0) :
    ∑ x ∈ nodes, f (s.boundAt ids x) = ∑ i ∈ ids.toFinset, f (s.scope i).refs := by
  symm
  choose! lease hmem hlease using hnodes
  refine Finset.sum_of_injOn lease ?_ ?_ ?_ ?_
  · intro i hi j hj e
    have hi := List.mem_toFinset.1 hi
    have hj := List.mem_toFinset.1 hj
    exact h.2 i hi j hj _ (hlease i hi) (e ▸ hlease j hj)
  · intro i hi
    exact hmem i (List.mem_toFinset.1 hi)
  · intro x _ hx
    cases hc : (s.candidatesOf ids)[x]? with
    | none => simp [boundAt, hc, hf]
    | some i =>
      obtain ⟨hi, hl⟩ := (getElem?_candidatesOf h).1 hc
      refine absurd ⟨i, List.mem_toFinset.2 hi, ?_⟩ hx
      exact Option.some.inj ((hlease i hi).symm.trans hl)
  · intro i hi
    have hi := List.mem_toFinset.1 hi
    rw [boundAt_eq h hi (hlease i hi)]

theorem lt_of_liveLease? (h : s.liveLease? i = some r) : i < s.scopes.size := by
  by_contra hi
  have hl := (liveLease?_eq_some.1 h).1
  rw [scope_of_ge (Nat.not_lt.1 hi)] at hl
  cases hl

/-- What is bound in the candidates is some of what is bound in all scopes. -/
theorem sum_boundAt_le (s : Store) (ids : List ScopeId) {f : List Ref → Nat} (hf : f [] = 0) :
    ∑ x ∈ s.there, f (s.boundAt ids x) ≤
      ∑ i ∈ Finset.range s.scopes.size, f (s.scope i).refs := by
  obtain ⟨leases, hleases⟩ : ∃ leases : Finset Ref, ∀ x, x ∈ leases ↔
      x ∈ s.there ∧ s.boundAt ids x ≠ [] := ⟨s.there.filter (s.boundAt ids · ≠ []), by simp⟩
  have hfound : ∀ x ∈ leases, ∃ i, s.liveLease? i = some x ∧
      s.boundAt ids x = (s.scope i).refs := by
    intro x hx
    cases hc : (s.candidatesOf ids)[x]? with
    | none => exact absurd (by simp [boundAt, hc]) ((hleases x).1 hx).2
    | some i => exact ⟨i, (of_candidatesOf hc).2, by simp [boundAt, hc]⟩
  choose! place hlease hbound using hfound
  -- a scope has one lease, so it is found under one at most
  have hinj : Set.InjOn place leases := by
    intro x hx y hy e
    have hx := hlease x hx
    rw [e, hlease y hy] at hx
    exact (Option.some.inj hx).symm
  have hsum : ∑ x ∈ s.there, f (s.boundAt ids x) =
      ∑ i ∈ leases.image place, f (s.scope i).refs := by
    rw [Finset.sum_image hinj, ← Finset.sum_subset (fun x hx => ((hleases x).1 hx).1)]
    · exact Finset.sum_congr rfl fun x hx => by rw [hbound x hx]
    · intro x hx hno
      by_contra hne
      exact hno ((hleases x).2 ⟨hx, fun e => hne (by rw [e, hf])⟩)
  rw [hsum]
  refine Finset.sum_le_sum_of_subset fun i hi => ?_
  obtain ⟨x, hx, rfl⟩ := Finset.mem_image.1 hi
  exact Finset.mem_range.2 (lt_of_liveLease? (hlease x hx))

/-- References that are followed are some of those that there are. -/
theorem sum_follow_le (s : Store) (ids : List ScopeId) {f : List Ref → Nat} (hf : f [] = 0)
    (happend : ∀ xs ys, f (xs ++ ys) = f xs + f ys) :
    ∑ x ∈ s.there, f (s.successors (s.candidatesOf ids) x) ≤
      ∑ i ∈ Finset.range s.scopes.size, f (s.scope i).refs + ∑ x ∈ s.there, f (s.refsAt x) := by
  simp only [successors_eq, happend]
  rw [Finset.sum_add_distrib]
  refine Nat.add_le_add (sum_boundAt_le s ids hf) (Finset.sum_le_sum fun x _ => ?_)
  rcases s.linksAt_cases x with e | e <;> simp [e, hf]

/-- No walk follows more references than there are. -/
theorem sum_successors_le (s : Store) (ids : List ScopeId) :
    ∑ x ∈ s.there, (s.successors (s.candidatesOf ids) x).length ≤ s.edgeCount := by
  rw [edgeCount_eq_sum]
  exact sum_follow_le s ids rfl fun _ _ => List.length_append

theorem mem_there_of_successors (hx : s.successors (s.candidatesOf ids) x ≠ []) : x ∈ s.there := by
  rw [mem_there]
  by_contra hno
  apply hx
  rw [successors_eq, linksAt_of_not_mem hno, List.append_nil]
  cases hc : (s.candidatesOf ids)[x]? with
  | none => simp [boundAt, hc]
  | some i => exact absurd (liveLease?_eq_some.1 (of_candidatesOf hc).2).2 hno

/-! ## References from within and from outside -/

theorem of_foldl_addAll (next : Ref → List Ref) (nodes : List Ref) (c : Counts) (r : Ref) :
    (nodes.foldl (fun c x => c.addAll (next x)) c).of r =
      c.of r + (nodes.map fun x => (next x).count r).sum := by
  induction nodes generalizing c with
  | nil => rfl
  | cons x nodes ih =>
    rw [List.foldl_cons, ih, Counts.of_addAll, List.map_cons, List.sum_cons, Nat.add_assoc]

/-- References from within are counted over the nodes. -/
theorem of_inner (next : Ref → List Ref) (nodes : RefSet) (r : Ref) :
    (inner next nodes).of r = ∑ x ∈ nodes.toList.toFinset, (next x).count r := by
  have hd : nodes.toList.Nodup := by simpa [List.Nodup] using nodes.distinct_toList
  rw [inner, Std.TreeSet.foldl_eq_foldl_toList, of_foldl_addAll, List.sum_toFinset _ hd]
  exact Nat.zero_add _

/-- All references to a cell are those from within and those from outside: from scopes that are no
    candidates, from cells that are no nodes, and references of nodes that are not followed. -/
theorem counts_eq_inner_add (h : Apart s ids) {nodes : RefSet}
    (hnodes : ∀ i ∈ ids, ∃ r ∈ nodes, s.liveLease? i = some r) (r : Ref) :
    s.counts.of r = (inner (s.successors (s.candidatesOf ids)) nodes).of r +
      (∑ i ∈ Finset.range s.scopes.size \ ids.toFinset, (s.scope i).refs.count r +
        ∑ x ∈ s.there,
          ((s.refsAt x).count r - if x ∈ nodes then (s.linksAt x).count r else 0)) := by
  have hsub : ids.toFinset ⊆ Finset.range s.scopes.size := by
    intro i hi
    obtain ⟨r, _, hr⟩ := hnodes i (List.mem_toFinset.1 hi)
    exact Finset.mem_range.2 (lt_of_liveLease? hr)
  have hmem : ∀ i ∈ ids, ∃ r ∈ nodes.toList.toFinset, s.liveLease? i = some r := fun i hi => by
    simpa using hnodes i hi
  have hbound := sum_boundAt h hmem (List.count r) rfl
  have hlinks : ∑ x ∈ nodes.toList.toFinset, (s.linksAt x).count r =
      ∑ x ∈ s.there, if x ∈ nodes then (s.linksAt x).count r else 0 := by
    rw [← Finset.sum_filter]
    refine (Finset.sum_subset (fun x hx => ?_) fun x hx hno => ?_).symm
    · simpa using (Finset.mem_filter.1 hx).2
    · have : x ∉ s.cells := by
        intro hm
        exact hno (Finset.mem_filter.2 ⟨mem_there.2 hm, by simpa using hx⟩)
      rw [linksAt_of_not_mem this, List.count_nil]
  have hcells : ∑ x ∈ s.there, (s.refsAt x).count r =
      ∑ x ∈ s.there, (if x ∈ nodes then (s.linksAt x).count r else 0) +
        ∑ x ∈ s.there, ((s.refsAt x).count r - if x ∈ nodes then (s.linksAt x).count r else 0) := by
    rw [← Finset.sum_add_distrib]
    refine Finset.sum_congr rfl fun x _ => ?_
    rcases s.linksAt_cases x with e | e <;> rw [e] <;> split <;> simp
  have hinner : (inner (s.successors (s.candidatesOf ids)) nodes).of r =
      ∑ i ∈ ids.toFinset, (s.scope i).refs.count r +
        ∑ x ∈ s.there, (if x ∈ nodes then (s.linksAt x).count r else 0) := by
    rw [of_inner, ← hlinks, ← hbound, ← Finset.sum_add_distrib]
    exact Finset.sum_congr rfl fun x _ => by rw [successors_eq, List.count_append]
  have hscopes : ∑ i ∈ Finset.range s.scopes.size \ ids.toFinset, (s.scope i).refs.count r +
      ∑ i ∈ ids.toFinset, (s.scope i).refs.count r =
        ∑ i ∈ Finset.range s.scopes.size, (s.scope i).refs.count r :=
    Finset.sum_sdiff hsub
  rw [counts_eq_sum, hinner, hcells]
  omega

/-- A cell is referred to more often than from within exactly if someone else refers to it. -/
theorem inner_lt_iff (h : Apart s ids) {nodes : RefSet}
    (hnodes : ∀ i ∈ ids, ∃ r ∈ nodes, s.liveLease? i = some r) (r : Ref) (others : Nat) :
    (inner (s.successors (s.candidatesOf ids)) nodes).of r < s.counts.of r + others ↔
      0 < others ∨ (∃ i, i ∉ ids ∧ r ∈ (s.scope i).refs) ∨
        ∃ x, r ∈ s.refsAt x ∧ (x ∈ nodes → r ∉ s.linksAt x) := by
  have hscope : 0 < ∑ i ∈ Finset.range s.scopes.size \ ids.toFinset, (s.scope i).refs.count r ↔
      ∃ i, i ∉ ids ∧ r ∈ (s.scope i).refs := by
    rw [Finset.sum_pos_iff]
    refine exists_congr fun i => ?_
    rw [Finset.mem_sdiff, Finset.mem_range, List.mem_toFinset, List.count_pos_iff]
    refine ⟨fun ⟨⟨_, hi⟩, hr⟩ => ⟨hi, hr⟩, fun ⟨hi, hr⟩ => ⟨⟨?_, hi⟩, hr⟩⟩
    by_contra hlt
    rw [scope_of_ge (Nat.not_lt.1 hlt)] at hr
    simp [Scope.refs, Scope.vacant, mapRefs] at hr
  have hcell : 0 < ∑ x ∈ s.there,
        ((s.refsAt x).count r - if x ∈ nodes then (s.linksAt x).count r else 0) ↔
      ∃ x, r ∈ s.refsAt x ∧ (x ∈ nodes → r ∉ s.linksAt x) := by
    rw [Finset.sum_pos_iff]
    refine exists_congr fun x => ?_
    rw [mem_there, ← List.count_pos_iff, ← List.count_eq_zero]
    have hmem : 0 < (s.refsAt x).count r → x ∈ s.cells := by
      intro hpos
      by_contra hno
      simp [refsAt_of_not_mem hno] at hpos
    -- a node's references are either all followed or not at all
    by_cases hx : x ∈ nodes
    · rcases s.linksAt_cases x with e | e
      · simp only [hx, e, if_true, true_implies]
        omega
      · simp only [hx, e, if_true, true_implies, List.count_nil]
        exact ⟨fun h => ⟨by omega, trivial⟩, fun h => ⟨hmem h.1, by omega⟩⟩
    · simp only [hx, if_false, false_implies]
      exact ⟨fun h => ⟨by omega, trivial⟩, fun h => ⟨hmem h.1, by omega⟩⟩
  rw [counts_eq_inner_add h hnodes r, ← hscope, ← hcell]
  omega

end TinyScript.Store
