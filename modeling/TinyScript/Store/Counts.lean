/-
  TinyScript.Store.Counts — how often each cell is referred to.

  Counting a list of references raises the count of each cell by as often as it occurs in the list,
  and taking the list away lowers it again. Who takes references away learns which cells lost their
  last one.
-/

import Std.Data.TreeMap
import TinyScript.Value

namespace TinyScript

/-- How many references there are to each cell. Cells without any have no entry. -/
abbrev Counts := Std.TreeMap Ref Nat

namespace Counts

def of (c : Counts) (r : Ref) : Nat := c.getD r 0

def add (c : Counts) (r : Ref) : Counts := c.insert r (c.of r + 1)

def addAll (c : Counts) (refs : List Ref) : Counts := refs.foldl add c

/-- One reference less. -/
def remove (c : Counts) (r : Ref) : Counts :=
  if c.of r ≤ 1 then c.erase r else c.insert r (c.of r - 1)

/-- Takes references away and puts the cells that lost their last one before `lost`. -/
def removeAll (c : Counts) (lost : List Ref) : List Ref → Counts × List Ref
  | [] => (c, lost)
  | r :: refs =>
    let c := c.remove r
    c.removeAll (if c.of r = 0 then r :: lost else lost) refs

/-! ## What the counts are -/

/-- Counting a reference raises its own count by one and no other. -/
theorem of_add (c : Counts) (r t : Ref) : (c.add r).of t = c.of t + if t = r then 1 else 0 := by
  by_cases h : t = r
  · simp [add, of, h]
  · have hr : ¬ r = t := fun e => h e.symm
    simp [add, of, Std.TreeMap.getD_insert, h, hr]

/-- Counting a list of references counts each as often as it occurs. -/
theorem of_addAll (c : Counts) (refs : List Ref) (t : Ref) :
    (c.addAll refs).of t = c.of t + refs.count t := by
  induction refs generalizing c with
  | nil => simp [addAll]
  | cons r refs ih =>
    have := ih (c.add r)
    simp only [addAll, List.foldl_cons] at this ⊢
    rw [this, of_add, List.count_cons]
    by_cases h : t = r
    · simp [h]; omega
    · have hr : ¬ r = t := fun e => h e.symm
      simp [h, hr]

theorem of_remove (c : Counts) (r t : Ref) :
    (c.remove r).of t = c.of t - if t = r then 1 else 0 := by
  unfold remove
  by_cases h : t = r
  · subst h
    split
    next hle =>
      have hz : Counts.of (c.erase t) t = 0 := by simp [of]
      rw [hz]
      simp
      omega
    next => simp [of]
  · have hr : ¬ r = t := fun e => h e.symm
    split <;> simp [of, Std.TreeMap.getD_insert, Std.TreeMap.getD_erase, hr]

theorem of_removeAll (c : Counts) (lost refs : List Ref) (t : Ref) :
    (c.removeAll lost refs).1.of t = c.of t - refs.count t := by
  induction refs generalizing c lost with
  | nil => simp [removeAll]
  | cons r refs ih =>
    rw [removeAll, ih, of_remove, List.count_cons]
    by_cases h : t = r
    · simp [h]; omega
    · have hr : ¬ r = t := fun e => h e.symm
      simp [h, hr]

theorem mem_removeAll_of_mem {c : Counts} {lost refs : List Ref} {t : Ref} (h : t ∈ lost) :
    t ∈ (c.removeAll lost refs).2 := by
  induction refs generalizing c lost with
  | nil => exact h
  | cons r refs ih =>
    apply ih
    split
    · exact List.mem_cons_of_mem r h
    · exact h

/-- Whoever loses the last reference is told. -/
theorem mem_removeAll {c : Counts} {lost refs : List Ref} {t : Ref} (ht : t ∈ refs)
    (h0 : (c.removeAll lost refs).1.of t = 0) : t ∈ (c.removeAll lost refs).2 := by
  induction refs generalizing c lost with
  | nil => simp at ht
  | cons r refs ih =>
    by_cases hm : t ∈ refs
    · exact ih hm h0
    · have hr : t = r := by
        rcases List.mem_cons.1 ht with e | e
        · exact e
        · exact absurd e hm
      subst hr
      have hz : (c.remove t).of t = 0 := by
        rw [removeAll, of_removeAll, List.count_eq_zero.2 hm] at h0
        omega
      rw [removeAll]
      apply mem_removeAll_of_mem
      simp [hz]

end Counts

end TinyScript
