/-
  TinyScript.Proofs.Store.Settling — what settling takes away.

  A cell is dropped when nobody holds it, no scope refers to it, and all cells that refer to it are
  dropped themselves (`Dropped`). Settling takes exactly the dropped cells away (`mem_settle`), as
  long as no reference leads nowhere (`Linked`). What supports itself stays in any case
  (`settle_keeps`), and leases stay in order (`leases_settle`).
-/

import TinyScript.Proofs.Store.Order

namespace TinyScript.Store

variable {s t : Store} {held todo : List Ref} {n : Nat} {r x q : Ref} {i : ScopeId}

/-! ## Counts -/

theorem mem_references : r ∈ references s.scopes s.cells ↔
    (∃ i, r ∈ (s.scope i).refs) ∨ ∃ x c, s.cell? x = some c ∧ r ∈ c.refs := by
  rw [references, List.mem_append, List.mem_flatMap]
  refine or_congr ⟨?_, ?_⟩ ?_
  · rintro ⟨scope, hs, hr⟩
    obtain ⟨i, hi, rfl⟩ := List.getElem_of_mem hs
    refine ⟨i, ?_⟩
    have hi : i < s.scopes.size := by simpa using hi
    simpa [scope, Array.getD, hi] using hr
  · rintro ⟨i, hr⟩
    by_cases hi : i < s.scopes.size
    · refine ⟨s.scope i, ?_, hr⟩
      simp [scope, Array.getD, hi]
    · rw [scope_of_ge (Nat.not_lt.1 hi)] at hr
      simp [Scope.refs, Scope.vacant, mapRefs] at hr
  · simp only [mapRefs, List.mem_flatMap, Prod.exists, cell?]
    refine exists_congr fun x => exists_congr fun c => ?_
    rw [Std.TreeMap.mem_toList_iff_getElem?_eq_some]

/-- A cell is counted as long as a scope or a cell refers to it. -/
theorem counts_pos : 0 < s.counts.of r ↔
    (∃ i, r ∈ (s.scope i).refs) ∨ ∃ x c, s.cell? x = some c ∧ r ∈ c.refs := by
  rw [s.counts_of, List.count_pos_iff, mem_references]

def Linked (s : Store) : Prop := ∀ r, 0 < s.counts.of r → r ∈ s.cells

theorem linked_empty : Linked empty := by
  intro r hr
  rcases counts_pos.1 hr with ⟨i, hi⟩ | ⟨x, c, hx, hc⟩
  · rw [scope_empty] at hi
    split at hi <;> cases hi
  · rw [cell?_empty] at hx
    split at hx
    · cases hx
      cases hc
    · cases hx

theorem counts_eraseCell_le (s : Store) (x r : Ref) :
    (s.eraseCell x).2.counts.of r ≤ s.counts.of r := by
  have h : (s.eraseCell x).2.counts =
      (s.counts.removeAll [] (entryRefs Cell.refs s.cells x)).1 := rfl
  rw [h, Counts.of_removeAll]
  omega

/-! ## References that lead somewhere -/

theorem linked_insertCell {c : Cell} (h : Linked s) (hc : ∀ q ∈ c.refs, q ∈ s.cells ∨ q = r) :
    Linked (s.insertCell r c) := by
  intro q hq
  have hmem : q ∈ s.cells ∨ q = r := by
    have hcount : (s.insertCell r c).counts = ((s.counts.addAll c.refs).removeAll (r :: s.idle)
      (entryRefs Cell.refs s.cells r)).1 := rfl
    rw [hcount, Counts.of_removeAll, Counts.of_addAll] at hq
    by_cases hm : q ∈ c.refs
    · exact hc q hm
    · rw [List.count_eq_zero.2 hm] at hq
      exact .inl (h q (by omega))
  rw [mem_cells]
  by_cases e : q = r
  · exact ⟨c, by rw [cell?_insertCell, if_pos e]⟩
  · obtain ⟨d, hd⟩ := mem_cells.1 (hmem.resolve_right e)
    exact ⟨d, by rw [cell?_insertCell, if_neg e, hd]⟩

theorem linked_alloc {c : Cell} (h : Linked s) (hc : ∀ q ∈ c.refs, q ∈ s.cells) :
    Linked (s.alloc c).2 :=
  linked_insertCell (s := s.reserve) h fun q hq => .inl (hc q hq)

theorem linked_changeCell {f : Cell → Cell} {added removed : List Ref}
    (h : ∀ c, s.cell? x = some c → Exchange c.refs (f c).refs added removed) (hl : Linked s)
    (hadd : ∀ q ∈ added, q ∈ s.cells) : Linked (s.changeCell x f added removed h) := by
  unfold changeCell
  split
  next =>
    intro q hq
    refine Std.TreeMap.mem_modify.2 ?_
    have hq : 0 < ((s.counts.addAll added).removeAll s.idle removed).1.of q := hq
    rw [Counts.of_removeAll, Counts.of_addAll] at hq
    by_cases hm : q ∈ added
    · exact hadd q hm
    · rw [List.count_eq_zero.2 hm] at hq
      exact hl q (by omega)
  next => exact hl

theorem linked_changeScope {f : Scope → Scope} {added removed : List Ref}
    (h : Exchange (s.scope i).refs (f (s.scope i)).refs added removed) (hl : Linked s)
    (hadd : ∀ q ∈ added, q ∈ s.cells) : Linked (s.changeScope i f added removed h) := by
  unfold changeScope
  split
  next =>
    intro q hq
    have hq : 0 < ((s.counts.addAll added).removeAll s.idle removed).1.of q := hq
    rw [Counts.of_removeAll, Counts.of_addAll] at hq
    by_cases hm : q ∈ added
    · exact hadd q hm
    · rw [List.count_eq_zero.2 hm] at hq
      exact hl q (by omega)
  next => exact hl

def putBy : Change → List Ref
  | .bind _ _ b => b.value.refs
  | .setField _ _ v | .setItem _ _ v | .append _ v => v.refs
  | .dropLast _ => []

theorem linked_apply (hl : Linked s) (c : Change) (hc : ∀ q ∈ putBy c, q ∈ s.cells) :
    Linked (s.apply c) := by
  cases c with
  | bind i name b =>
    show Linked (s.bind i name b)
    unfold Store.bind
    exact linked_changeScope _ hl hc
  | setField x name v =>
    show Linked (s.setField x name v)
    unfold setField
    split
    · exact linked_changeCell _ hl hc
    · exact hl
  | setItem x place v =>
    show Linked (s.setItem x place v)
    unfold setItem
    split
    · split
      · exact linked_changeCell _ hl hc
      · exact hl
    · exact hl
  | append x v =>
    show Linked (s.append x v)
    unfold append
    split
    · exact linked_changeCell _ hl hc
    · exact hl
  | dropLast x =>
    show Linked (s.dropLast x)
    unfold dropLast
    split
    · exact linked_changeCell _ hl hc
    · exact hl

/-! ## One cell after the other -/

theorem sameScopes_sweep (held : List Ref) (n : Nat) (todo : List Ref) (s : Store) :
    SameScopes s (sweep held n todo s) := by
  induction n generalizing todo s with
  | zero => cases todo <;> exact .refl s
  | succ n ih =>
    cases todo with
    | nil => exact .refl s
    | cons x todo =>
      rw [sweep]
      split
      · exact (sameScopes_eraseCell s x).trans (ih _ _)
      · exact ih _ _

theorem sweep_next (held : List Ref) (n : Nat) (todo : List Ref) (s : Store) :
    (sweep held n todo s).next = s.next := by
  induction n generalizing todo s with
  | zero => cases todo <;> rfl
  | succ n ih =>
    cases todo with
    | nil => rfl
    | cons x todo =>
      rw [sweep]
      split
      · exact ih _ _
      · exact ih _ _

/-- What a sweep takes away is not referred to and not held. To show that something about the cells
    that are left holds after a sweep, it is enough that it survives such a cell. -/
theorem sweep_induct {P : Store → Prop} (held : List Ref) (n : Nat) (todo : List Ref) (s : Store)
    (h : P s) (hP : ∀ s x, P s → s.counts.of x = 0 → x ∉ held → P (s.eraseCell x).2) :
    P (sweep held n todo s) := by
  induction n generalizing todo s with
  | zero => cases todo <;> exact h
  | succ n ih =>
    cases todo with
    | nil => exact h
    | cons x todo =>
      rw [sweep]
      split
      next hx =>
        simp only [Bool.and_eq_true, Bool.not_eq_true', decide_eq_true_eq,
          List.contains_eq_mem] at hx
        exact ih _ _ (hP s x h hx.1.1 (by simpa using hx.2))
      next => exact ih _ _ h

/-- A sweep changes no cell that it leaves. -/
theorem cell?_sweep (held : List Ref) (n : Nat) (todo : List Ref) (s : Store) (r : Ref) :
    (sweep held n todo s).cell? r = none ∨ (sweep held n todo s).cell? r = s.cell? r := by
  refine sweep_induct (P := fun t => t.cell? r = none ∨ t.cell? r = s.cell? r) held n todo s
    (.inr rfl) fun t x ht _ _ => ?_
  rw [cell?_eraseCell]
  split
  · exact .inl rfl
  · exact ht

/-- What is held, referred to by a scope, or referred to by what stays, stays. -/
theorem sweep_keeps {L : Ref → Prop} (hL : ∀ r, L r → r ∈ held ∨ (∃ i, r ∈ (s.scope i).refs) ∨
    ∃ x c, L x ∧ s.cell? x = some c ∧ r ∈ c.refs) (hr : L r) :
    (sweep held n todo s).cell? r = s.cell? r := by
  have h := sweep_induct
    (P := fun t => SameScopes s t ∧ ∀ r, L r → t.cell? r = s.cell? r) held n todo s
    ⟨.refl s, fun _ _ => rfl⟩ fun t x ⟨ht, hcell⟩ h0 hx => ?_
  · exact h.2 r hr
  · refine ⟨ht.trans (sameScopes_eraseCell t x), fun r hr => ?_⟩
    rw [cell?_eraseCell, if_neg]
    · exact hcell r hr
    rintro rfl
    -- a cell of `L` is held or counted, so it is not the one that goes
    have hpos : 0 < t.counts.of r := by
      rw [counts_pos]
      rcases hL r hr with h | ⟨i, h⟩ | ⟨x, c, hx, hc, h⟩
      · exact absurd h hx
      · exact .inl ⟨i, by rwa [ht.scope]⟩
      · exact .inr ⟨x, c, (hcell x hx).trans hc, h⟩
    omega

/-- Whatever is still referred to after a sweep was not taken away. -/
theorem mem_sweep_of_counts (hq : q ∈ s.cells) (hpos : 0 < (sweep held n todo s).counts.of q) :
    q ∈ (sweep held n todo s).cells := by
  refine sweep_induct (P := fun t => 0 < t.counts.of q → q ∈ t.cells) held n todo s
    (fun _ => hq) (fun t x ht h0 _ hpos => ?_) hpos
  have hle := counts_eraseCell_le t x q
  have hmem := ht (by omega)
  obtain ⟨c, hc⟩ := mem_cells.1 hmem
  refine mem_cells.2 ⟨c, ?_⟩
  rw [cell?_eraseCell, if_neg, hc]
  rintro rfl
  omega

/-! ## A sweep comes to its end -/

def busy (s : Store) : Finset Ref := s.cells.keys.toFinset.filter fun r => 0 < s.counts.of r

theorem mem_busy : r ∈ s.busy ↔ r ∈ s.cells ∧ 0 < s.counts.of r := by
  simp [busy]

/-- Of references that are all counted, those whose count runs out are told once each. -/
theorem removeAll_lost (c : Counts) (lost refs : List Ref) (h : ∀ r, refs.count r ≤ c.of r) :
    ∃ new : List Ref, (c.removeAll lost refs).2 = new ++ lost ∧ new.Nodup ∧
      ∀ r ∈ new, 0 < c.of r ∧ (c.removeAll lost refs).1.of r = 0 := by
  induction refs generalizing c lost with
  | nil => exact ⟨[], rfl, List.nodup_nil, by simp⟩
  | cons x refs ih =>
    have hrest : ∀ r, refs.count r ≤ (c.remove x).of r := by
      intro r
      have := h r
      rw [Counts.of_remove]
      rw [List.count_cons] at this
      by_cases hx : r = x
      · simp only [hx, beq_self_eq_true, if_true] at this ⊢; omega
      · have hx' : ¬ x = r := fun e => hx e.symm
        simp only [hx, beq_iff_eq, hx', if_false] at this ⊢; omega
    have hx : 0 < c.of x := by
      have := h x
      rw [List.count_cons_self] at this
      omega
    have hle : ∀ r, (c.remove x).of r ≤ c.of r := by
      intro r
      rw [Counts.of_remove]
      omega
    rw [Counts.removeAll]
    obtain ⟨new, hnew, hdup, hall⟩ := ih (c.remove x) (if (c.remove x).of x = 0 then x :: lost
      else lost) hrest
    have hall' : ∀ r ∈ new, 0 < c.of r ∧ ((c.remove x).removeAll
        (if (c.remove x).of x = 0 then x :: lost else lost) refs).1.of r = 0 := by
      intro r hr
      have := hle r
      have := hall r hr
      exact ⟨by omega, this.2⟩
    by_cases h0 : (c.remove x).of x = 0
    · rw [if_pos h0] at hnew hall' ⊢
      refine ⟨new ++ [x], by simp [hnew], ?_, ?_⟩
      · -- what runs out later was still counted, and `x` is not
        refine List.nodup_append.2 ⟨hdup, List.nodup_singleton x, ?_⟩
        intro y hy z hz e
        have := (hall y hy).1
        rw [e, List.mem_singleton.1 hz] at this
        omega
      · intro r hr
        rcases List.mem_append.1 hr with hr | hr
        · exact hall' r hr
        · cases List.mem_singleton.1 hr
          refine ⟨hx, ?_⟩
          rw [Counts.of_removeAll]
          omega
    · rw [if_neg h0] at hnew hall' ⊢
      exact ⟨new, hnew, hdup, hall'⟩

theorem Linked.eraseCell (h : Linked s) (h0 : s.counts.of x = 0) : Linked (s.eraseCell x).2 := by
  intro r hr
  have hle := counts_eraseCell_le s x r
  obtain ⟨c, hc⟩ := mem_cells.1 (h r (by omega))
  refine mem_cells.2 ⟨c, ?_⟩
  rw [cell?_eraseCell, if_neg, hc]
  rintro rfl
  omega

/-- Every cell that loses its last reference was busy before and is not any more. -/
theorem busy_eraseCell (h : Linked s) :
    (s.eraseCell x).1.length + (s.eraseCell x).2.busy.card ≤ s.busy.card := by
  have hcount : ∀ r, (entryRefs Cell.refs s.cells x).count r ≤ s.counts.of r := by
    intro r
    rw [s.counts_of, references, List.count_append, count_mapRefs Cell.refs s.cells x]
    omega
  obtain ⟨new, hnew, hdup, hall⟩ := removeAll_lost s.counts [] _ hcount
  have hlost : (s.eraseCell x).1 = new := hnew.trans (List.append_nil new)
  rw [hlost, ← List.toFinset_card_of_nodup hdup, ← Finset.card_union_of_disjoint]
  · apply Finset.card_le_card
    intro r hr
    rw [mem_busy]
    rcases Finset.mem_union.1 hr with hr | hr
    · have := (hall r (List.mem_toFinset.1 hr)).1
      exact ⟨h r this, this⟩
    · obtain ⟨_, hpos⟩ := mem_busy.1 hr
      have := counts_eraseCell_le s x r
      exact ⟨h r (by omega), by omega⟩
  · rw [Finset.disjoint_left]
    intro r hr hb
    have h1 := (hall r (List.mem_toFinset.1 hr)).2
    have h2 := (mem_busy.1 hb).2
    have h3 : (s.eraseCell x).2.counts.of r = 0 := h1
    omega

/-- A cell to which nothing refers once another is erased has just lost its last reference, or
    nothing referred to it before. -/
theorem idle_of_eraseCell (hr : r ∈ (s.eraseCell x).2.cells)
    (h0 : (s.eraseCell x).2.counts.of r = 0) :
    r ∈ (s.eraseCell x).1 ∨ r ≠ x ∧ r ∈ s.cells ∧ s.counts.of r = 0 := by
  by_cases hm : r ∈ entryRefs Cell.refs s.cells x
  · exact .inl (Counts.mem_removeAll hm h0)
  · obtain ⟨c, hc⟩ := mem_cells.1 hr
    rw [cell?_eraseCell] at hc
    split at hc
    next => cases hc
    next hne =>
      refine .inr ⟨hne, mem_cells.2 ⟨c, hc⟩, ?_⟩
      have h : (s.eraseCell x).2.counts =
          (s.counts.removeAll [] (entryRefs Cell.refs s.cells x)).1 := rfl
      rw [h, Counts.of_removeAll, List.count_eq_zero.2 hm] at h0
      omega

/-- After a sweep with enough rounds, everything that is left is held or referred to. -/
theorem sweep_complete (hs : Linked s) (hn : todo.length + s.busy.card ≤ n)
    (htodo : ∀ r ∈ s.cells, s.counts.of r = 0 → r ∈ held ∨ r ∈ todo) :
    ∀ r ∈ (sweep held n todo s).cells, (sweep held n todo s).counts.of r = 0 → r ∈ held := by
  induction n generalizing todo s with
  | zero =>
    have : todo = [] := List.eq_nil_of_length_eq_zero (by omega)
    subst this
    intro r hr h0
    simpa using htodo r hr h0
  | succ n ih =>
    cases todo with
    | nil =>
      intro r hr h0
      simpa using htodo r hr h0
    | cons x todo =>
      rw [sweep]
      split
      next hx =>
        simp only [Bool.and_eq_true, Bool.not_eq_true', decide_eq_true_eq] at hx
        have h0 := hx.1.1
        have hb := busy_eraseCell (x := x) hs
        apply ih (hs.eraseCell h0)
        · show ((s.eraseCell x).1 ++ todo).length + (s.eraseCell x).2.busy.card ≤ n
          simp only [List.length_append, List.length_cons] at hn ⊢
          omega
        · intro r hr hr0
          rcases idle_of_eraseCell hr hr0 with hm | ⟨hne, hr', hbefore⟩
          · exact .inr (List.mem_append_left _ hm)
          · rcases htodo r hr' hbefore with h | h
            · exact .inl h
            · exact .inr (List.mem_append_right _ ((List.mem_cons.1 h).resolve_left hne))
      next hx =>
        apply ih hs
        · simp only [List.length_cons] at hn
          omega
        · intro r hr hr0
          rcases htodo r hr hr0 with h | h
          · exact .inl h
          · rcases List.mem_cons.1 h with rfl | h
            · left
              by_contra hheld
              apply hx
              simp [hr0, hheld, Std.TreeMap.mem_iff_contains.1 hr]
            · exact .inr h

/-! ## Settling -/

theorem sameScopes_settle (s : Store) (held : List Ref) : SameScopes s (s.settle held) :=
  (sameScopes_sweep _ _ _ s).trans (sameScopes_tidy _)

@[simp] theorem settle_next (s : Store) (held : List Ref) : (s.settle held).next = s.next :=
  sweep_next _ _ _ s

/-- Settling changes no cell that it leaves. -/
theorem cell?_settle (s : Store) (held : List Ref) (r : Ref) :
    (s.settle held).cell? r = none ∨ (s.settle held).cell? r = s.cell? r :=
  cell?_sweep _ _ _ s r

theorem cell?_of_mem_settle (h : r ∈ (s.settle held).cells) :
    (s.settle held).cell? r = s.cell? r := by
  rcases cell?_settle s held r with hn | he
  · exact absurd h (cell?_eq_none.1 hn)
  · exact he

theorem mem_cells_of_settle (h : r ∈ (s.settle held).cells) : r ∈ s.cells := by
  obtain ⟨c, hc⟩ := mem_cells.1 h
  exact mem_cells.2 ⟨c, (cell?_of_mem_settle h) ▸ hc⟩

/-- What is held, referred to by a scope, or referred to by what stays, stays. -/
theorem settle_keeps {L : Ref → Prop} (hL : ∀ r, L r → r = s.globalLease ∨ r ∈ held ∨
    (∃ i, r ∈ (s.scope i).refs) ∨ ∃ x c, L x ∧ s.cell? x = some c ∧ r ∈ c.refs) (hr : L r) :
    (s.settle held).cell? r = s.cell? r := by
  refine sweep_keeps (L := L) (fun r hr => ?_) hr
  rcases hL r hr with h | h | h
  · exact .inl (List.mem_cons.2 (.inl h))
  · exact .inl (List.mem_cons_of_mem _ h)
  · exact .inr h

theorem mem_settle_of_held (hr : r ∈ s.cells) (h : r = s.globalLease ∨ r ∈ held) :
    r ∈ (s.settle held).cells := by
  obtain ⟨c, hc⟩ := mem_cells.1 hr
  refine mem_cells.2 ⟨c, ?_⟩
  rw [settle_keeps (L := (· = r)) (fun x hx => ?_) rfl, hc]
  subst hx
  rcases h with h | h
  · exact .inl h
  · exact .inr (.inl h)

/-- Whatever is still referred to was not taken away. -/
theorem mem_settle_of_counts (hq : q ∈ s.cells) (h : 0 < (s.settle held).counts.of q) :
    q ∈ (s.settle held).cells :=
  mem_sweep_of_counts hq h

theorem linked_settle (h : Linked s) (held : List Ref) : Linked (s.settle held) :=
  sweep_induct (P := Linked) _ _ _ s h fun _ _ ht h0 _ => ht.eraseCell h0

/-- In a settled store every cell is held or referred to. -/
theorem settle_complete (h : Linked s) (hr : r ∈ (s.settle held).cells)
    (h0 : (s.settle held).counts.of r = 0) : r = s.globalLease ∨ r ∈ held := by
  have hcard : s.busy.card ≤ s.cells.size := by
    refine (Finset.card_filter_le _ _).trans ((List.toFinset_card_le _).trans ?_)
    simp
  exact List.mem_cons.1
    (sweep_complete h (by omega) (fun r hr h0 => .inr (s.mem_idle hr h0)) r hr h0)

/-- A cell that nobody holds, to which no scope refers, and to which only such cells refer. -/
inductive Dropped (s : Store) (held : List Ref) : Ref → Prop
  | intro {r : Ref} : r ≠ s.globalLease → r ∉ held → (∀ i, r ∉ (s.scope i).refs) →
    (∀ x c, s.cell? x = some c → r ∈ c.refs → Dropped s held x) → Dropped s held r

theorem Dropped.not_mem_settle (hs : Linked s) (h : Dropped s held r) :
    r ∉ (s.settle held).cells := by
  induction h with
  | @intro r hg hheld hscope _ ih =>
    intro hr
    have h0 : (s.settle held).counts.of r = 0 := by
      refine Nat.eq_zero_of_not_pos fun hpos => ?_
      rcases counts_pos.1 hpos with ⟨i, hi⟩ | ⟨x, c, hc, hx⟩
      · rw [(sameScopes_settle s held).scope] at hi
        exact hscope i hi
      · have hm : x ∈ (s.settle held).cells := mem_cells.2 ⟨c, hc⟩
        rw [cell?_of_mem_settle hm] at hc
        exact ih x c hc hx hm
    rcases settle_complete hs hr h0 with h | h
    · exact hg h
    · exact hheld h

/-- Settling takes exactly the dropped cells away. -/
theorem mem_settle (hs : Linked s) :
    r ∈ (s.settle held).cells ↔ r ∈ s.cells ∧ ¬ Dropped s held r := by
  refine ⟨fun h => ⟨mem_cells_of_settle h, fun hd => hd.not_mem_settle hs h⟩, fun ⟨hr, hd⟩ => ?_⟩
  obtain ⟨c, hc⟩ := mem_cells.1 hr
  refine mem_cells.2 ⟨c, ?_⟩
  rw [settle_keeps (L := fun r => ¬ Dropped s held r) (fun x hx => ?_) hd, hc]
  by_contra hno
  simp only [not_or, not_exists, not_and] at hno
  obtain ⟨hg, hheld, hscope, hcell⟩ := hno
  refine hx (.intro hg hheld hscope fun y d hy hm => ?_)
  by_contra hlive
  exact hcell y d hlive hy hm

/-! ## Places and leases of a settled store -/

theorem SameScopes.places (h : SameScopes s t) (hs : Places s) : Places t where
  freeNodup := h.free ▸ hs.freeNodup
  freeLt := by rw [h.free, h.size]; exact hs.freeLt
  retainedNodup := h.retained ▸ hs.retainedNodup
  mem_retained i := by rw [h.retained, h.size, h.free, h.scope]; exact hs.mem_retained i
  vacant i := by rw [h.free, h.scope]; exact hs.vacant i
  leased i := by rw [h.size, h.free, h.scope]; exact hs.leased i
  top i := by rw [h.size, h.free, h.scope]; exact hs.top i
  globalLt := h.size ▸ hs.globalLt
  globalStays := h.free ▸ hs.globalStays

theorem SameScopes.limits (h : SameScopes s t) (hs : Limits s) : Limits t := by
  refine ⟨h.limit ▸ hs.least, ?_⟩
  rw [h.retained, h.limit]
  exact hs.below

theorem SameScopes.leaseAbove (h : SameScopes s t) (i : ScopeId) :
    t.leaseAbove i = s.leaseAbove i := by
  simp only [Store.leaseAbove, h.scope]

theorem liveLease?_settle (h : (s.settle held).liveLease? i = some r) :
    s.liveLease? i = some r := by
  rw [liveLease?_eq_some, (sameScopes_settle s held).scope] at h
  exact liveLease?_eq_some.2 ⟨h.1, mem_cells_of_settle h.2⟩

theorem inUse_of_settle (h : (s.settle held).InUse i) : s.InUse i := by
  rcases h with h | h
  · exact .inl ((sameScopes_settle s held).scope i ▸ h)
  · obtain ⟨r, hr⟩ := Option.isSome_iff_exists.1 h
    exact .inr (Option.isSome_iff_exists.2 ⟨r, liveLease?_settle hr⟩)

/-- A lease keeps those above it, so that leases are in order also after settling. -/
theorem leases_settle (hs : Leases s) (held : List Ref) : Leases (s.settle held) := by
  have hsame := sameScopes_settle s held
  refine ⟨fun i r hr => ?_, fun i p hi hp => ?_, fun i j r => ?_, fun i r => ?_, fun r hr => ?_, ?_⟩
  · rw [cell?_of_mem_settle (liveLease?_eq_some.1 hr).2, hsame.leaseAbove]
    exact hs.isLease i r (liveLease?_settle hr)
  · obtain ⟨r, hr⟩ := Option.isSome_iff_exists.1 hi
    rw [hsame.scope] at hp
    have hl := liveLease?_settle hr
    obtain ⟨q, hq⟩ := Option.isSome_iff_exists.1
      (hs.above i p (Option.isSome_iff_exists.2 ⟨r, hl⟩) hp)
    obtain ⟨hq, hmem⟩ := liveLease?_eq_some.1 hq
    refine Option.isSome_iff_exists.2 ⟨q, liveLease?_eq_some.2 ⟨by rw [hsame.scope, hq], ?_⟩⟩
    apply mem_settle_of_counts hmem
    rw [counts_pos]
    refine .inr ⟨r, .lease i (s.leaseAbove i), ?_, ?_⟩
    · rw [cell?_of_mem_settle (liveLease?_eq_some.1 hr).2]
      exact hs.isLease i r hl
    · simp [Cell.refs, Cell.links, Store.leaseAbove, hp, hq]
  · rw [hsame.scope, hsame.scope]
    exact hs.distinct i j r
  · rw [hsame.scope, settle_next]
    exact hs.leaseLt i r
  · rw [settle_next]
    exact hs.cellLt r (mem_cells_of_settle hr)
  · obtain ⟨hg, hmem⟩ := liveLease?_eq_some.1 hs.globalLease
    rw [liveLease?_eq_some, hsame.scope, hsame.globalLease]
    exact ⟨hg, mem_settle_of_held hmem (.inl rfl)⟩

theorem rooted_settle (hs : Rooted s) (held : List Ref) : Rooted (s.settle held) := by
  intro i hi
  obtain ⟨chain, hc⟩ := hs i (inUse_of_settle hi)
  exact ⟨chain, hc.congr fun j _ => by rw [(sameScopes_settle s held).scope]⟩

end TinyScript.Store
