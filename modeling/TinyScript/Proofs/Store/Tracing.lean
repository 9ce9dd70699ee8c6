/-
  TinyScript.Proofs.Store.Tracing — a walk reaches exactly what references lead to.

  The walk takes one reference after the other and is given as many rounds as there are references
  to follow. That is enough: every node is entered once, and brings its references along
  (`reach_closed`). So the nodes it returns are those that a path leads to (`mem_reach`).
-/

import Mathlib.Algebra.Order.BigOperators.Group.Finset
import Mathlib.Logic.Relation
import TinyScript.Proofs.Store.Settling

namespace TinyScript.Store

variable {next : Ref → List Ref} {todo : List Ref} {seen : RefSet} {n : Nat} {r x y : Ref}
  {all : Finset Ref}

def Leads (next : Ref → List Ref) : Ref → Ref → Prop := Relation.ReflTransGen fun x y => y ∈ next x

theorem mem_reach_of_seen (h : x ∈ seen) : x ∈ reach next n todo seen := by
  induction n generalizing todo seen with
  | zero => cases todo <;> exact h
  | succ n ih =>
    cases todo with
    | nil => exact h
    | cons r todo =>
      rw [reach]
      split
      · exact ih h
      · exact ih (Std.TreeSet.mem_insert.2 (.inr h))

/-- The walk comes only to what references lead to. -/
theorem leads_of_mem_reach (h : x ∈ reach next n todo seen) :
    x ∈ seen ∨ ∃ r ∈ todo, Leads next r x := by
  induction n generalizing todo seen with
  | zero => cases todo <;> exact .inl h
  | succ n ih =>
    cases todo with
    | nil => exact .inl h
    | cons r todo =>
      rw [reach] at h
      split at h
      · rcases ih h with h | ⟨r, hr, h⟩
        · exact .inl h
        · exact .inr ⟨r, List.mem_cons_of_mem _ hr, h⟩
      · rcases ih h with h | ⟨q, hq, h⟩
        · rcases Std.TreeSet.mem_insert.1 h with h | h
          · have e : r = x := by simpa using h
            exact .inr ⟨r, by simp, e ▸ .refl⟩
          · exact .inl h
        · rcases List.mem_append.1 hq with hq | hq
          · exact .inr ⟨r, by simp, .head hq h⟩
          · exact .inr ⟨q, List.mem_cons_of_mem _ hq, h⟩

def leftOver (next : Ref → List Ref) (all : Finset Ref) (seen : RefSet) : Nat :=
  ∑ x ∈ all with x ∉ seen, (next x).length

/-- Entering a node uses its references up. -/
theorem leftOver_insert (hall : ∀ x, next x ≠ [] → x ∈ all) (hr : r ∉ seen) :
    leftOver next all (seen.insert r) + (next r).length ≤ leftOver next all seen := by
  by_cases hnil : next r = []
  · simp only [hnil, List.length_nil, Nat.add_zero]
    apply Finset.sum_le_sum_of_subset
    intro x hx
    obtain ⟨hx, hs⟩ := Finset.mem_filter.1 hx
    exact Finset.mem_filter.2 ⟨hx, fun h => hs (Std.TreeSet.mem_insert.2 (.inr h))⟩
  · have hmem : r ∈ all.filter (· ∉ seen) := Finset.mem_filter.2 ⟨hall r hnil, hr⟩
    unfold leftOver
    rw [← Finset.sum_erase_add _ _ hmem]
    refine Nat.add_le_add_right (Finset.sum_le_sum_of_subset fun x hx => ?_) _
    obtain ⟨hx, hs⟩ := Finset.mem_filter.1 hx
    refine Finset.mem_erase.2 ⟨?_, Finset.mem_filter.2 ⟨hx, fun h => hs ?_⟩⟩
    · rintro rfl
      exact hs Std.TreeSet.mem_insert_self
    · exact Std.TreeSet.mem_insert.2 (.inr h)

/-- With enough rounds the walk enters all it has to do, and all that it enters leads to. -/
theorem reach_closed (hall : ∀ x, next x ≠ [] → x ∈ all)
    (hn : todo.length + leftOver next all seen ≤ n)
    (hseen : ∀ x ∈ seen, ∀ y ∈ next x, y ∈ seen ∨ y ∈ todo) :
    (∀ x ∈ todo, x ∈ reach next n todo seen) ∧
      ∀ x ∈ reach next n todo seen, ∀ y ∈ next x, y ∈ reach next n todo seen := by
  induction n generalizing todo seen with
  | zero =>
    have : todo = [] := List.eq_nil_of_length_eq_zero (by omega)
    subst this
    exact ⟨by simp, fun x hx y hy => by simpa [reach] using hseen x hx y hy⟩
  | succ n ih =>
    cases todo with
    | nil => exact ⟨by simp, fun x hx y hy => by simpa [reach] using hseen x hx y hy⟩
    | cons r todo =>
      simp only [List.length_cons] at hn
      rw [reach]
      split
      next hr =>
        have hr : r ∈ seen := Std.TreeSet.contains_iff_mem.1 hr
        have hrest : ∀ x ∈ seen, ∀ y ∈ next x, y ∈ seen ∨ y ∈ todo := by
          intro x hx y hy
          rcases hseen x hx y hy with h | h
          · exact .inl h
          · rcases List.mem_cons.1 h with rfl | h
            · exact .inl hr
            · exact .inr h
        obtain ⟨h1, h2⟩ := ih (by omega) hrest
        refine ⟨fun x hx => ?_, h2⟩
        rcases List.mem_cons.1 hx with rfl | hx
        · exact mem_reach_of_seen hr
        · exact h1 x hx
      next hr =>
        have hr : r ∉ seen := fun h => hr (Std.TreeSet.contains_iff_mem.2 h)
        have hleft := leftOver_insert hall hr
        have hrest : ∀ x ∈ seen.insert r, ∀ y ∈ next x, y ∈ seen.insert r ∨ y ∈ next r ++ todo := by
          intro x hx y hy
          rcases Std.TreeSet.mem_insert.1 hx with e | hx
          · have e : r = x := by simpa using e
            exact .inr (List.mem_append_left _ (e ▸ hy))
          · rcases hseen x hx y hy with h | h
            · exact .inl (Std.TreeSet.mem_insert.2 (.inr h))
            · rcases List.mem_cons.1 h with rfl | h
              · exact .inl Std.TreeSet.mem_insert_self
              · exact .inr (List.mem_append_right _ h)
        obtain ⟨h1, h2⟩ := ih (by simp only [List.length_append]; omega) hrest
        refine ⟨fun x hx => ?_, h2⟩
        rcases List.mem_cons.1 hx with rfl | hx
        · exact mem_reach_of_seen Std.TreeSet.mem_insert_self
        · exact h1 x (List.mem_append_right _ hx)

/-- The walk reaches exactly what references lead to from where it starts. -/
theorem mem_reach (hall : ∀ x, next x ≠ [] → x ∈ all)
    (hn : todo.length + ∑ x ∈ all, (next x).length ≤ n) :
    x ∈ reach next n todo ∅ ↔ ∃ r ∈ todo, Leads next r x := by
  refine ⟨fun h => ?_, fun ⟨r, hr, h⟩ => ?_⟩
  · rcases leads_of_mem_reach h with h | h
    · simp at h
    · exact h
  · have hleft : leftOver next all ∅ ≤ ∑ x ∈ all, (next x).length :=
      Finset.sum_le_sum_of_subset (Finset.filter_subset _ _)
    have hnone : ∀ x ∈ (∅ : RefSet), ∀ y ∈ next x, y ∈ (∅ : RefSet) ∨ y ∈ todo := by simp
    obtain ⟨h1, h2⟩ := reach_closed hall (Nat.le_trans (Nat.add_le_add_left hleft _) hn) hnone
    clear hn
    induction h with
    | refl => exact h1 r hr
    | tail _ hy ih => exact h2 _ (ih ⟨_, hr, ‹_›⟩) _ hy

end TinyScript.Store
