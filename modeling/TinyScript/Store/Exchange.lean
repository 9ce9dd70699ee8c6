/-
  TinyScript.Store.Exchange — references that come and go.

  Whatever changes, some references are added and some removed. Counts that are told of them stay
  right, so nobody has to count again.
-/

import TinyScript.Store.Counts

namespace TinyScript

/-- The new references are the old ones with those added and without those removed. -/
def Exchange (old new added removed : List Ref) : Prop :=
  ∀ r, new.count r + removed.count r = old.count r + added.count r

namespace Exchange

theorem refl (refs : List Ref) : Exchange refs refs [] [] := fun _ => by simp

/-- One list in place of the other. -/
theorem replace (old new : List Ref) : Exchange old new new old := fun _ => by omega

/-- Counts that are told what comes and what goes stay right. -/
theorem recount {c : Counts} {old new added removed : List Ref} (h : Exchange old new added removed)
    (hc : ∀ r, c.of r = old.count r) (lost : List Ref) (r : Ref) :
    ((c.addAll added).removeAll lost removed).1.of r = new.count r := by
  have := h r
  rw [Counts.of_removeAll, Counts.of_addAll, hc]
  omega

end Exchange

/-! ## Maps -/

section

variable {κ β : Type} [Ord κ] [Std.TransOrd κ] [Std.LawfulEqOrd κ]

/-- All references of the entries of a map. -/
def mapRefs (f : β → List Ref) (t : Std.TreeMap κ β) : List Ref := t.toList.flatMap fun e => f e.2

/-- The references of the entry at `k`, if there is one. -/
def entryRefs (f : β → List Ref) (t : Std.TreeMap κ β) (k : κ) : List Ref :=
  (t[k]?.map f).getD []

/-- All references are those of one entry and of the others. -/
theorem count_mapRefs (f : β → List Ref) (t : Std.TreeMap κ β) (k : κ) (r : Ref) :
    (mapRefs f t).count r = (entryRefs f t k).count r + (mapRefs f (t.erase k)).count r := by
  unfold mapRefs entryRefs
  cases h : t[k]? with
  | none =>
    have he : (t.erase k).Equiv t := by
      apply Std.TreeMap.Equiv.of_forall_constGet?_eq
      intro i
      by_cases hi : k = i
      · simp [← hi, h]
      · simp [Std.TreeMap.getElem?_erase, hi]
    simp [he.toList_eq]
  | some b =>
    have he : Std.TreeMap.Equiv ((t.erase k).insert k b) t := by
      apply Std.TreeMap.Equiv.of_forall_constGet?_eq
      intro i
      by_cases hi : k = i
      · simp [← hi, h]
      · simp [Std.TreeMap.getElem?_insert, Std.TreeMap.getElem?_erase, hi]
    have hne : ∀ e ∈ (t.erase k).toList, ¬ k = e.1 := by
      intro e he hk
      have := Std.TreeMap.mem_toList_iff_getElem?_eq_some.1 he
      simp [← hk] at this
    classical
    have hp := (Std.TreeMap.toList_insert_perm (t := t.erase k) (k := k) (v := b)).flatMap_right
      fun e : κ × β => f e.2
    rw [he.toList_eq] at hp
    rw [hp.count_eq, List.filter_eq_self.2 (by simpa using hne)]
    simp [List.count_append]

/-- An entry that is changed, made or taken away. -/
theorem Exchange.changeEntry {f : β → List Ref} {t u : Std.TreeMap κ β} {k : κ}
    {added removed : List Ref} (hne : ∀ i, i ≠ k → u[i]? = t[i]?)
    (h : Exchange (entryRefs f t k) (entryRefs f u k) added removed) :
    Exchange (mapRefs f t) (mapRefs f u) added removed := by
  intro r
  have he : (u.erase k).Equiv (t.erase k) := by
    apply Std.TreeMap.Equiv.of_forall_constGet?_eq
    intro i
    by_cases hi : k = i
    · simp [hi]
    · simp [Std.TreeMap.getElem?_erase, hi, hne i fun e => hi e.symm]
  have hrest : mapRefs f (u.erase k) = mapRefs f (t.erase k) := by
    simp [mapRefs, he.toList_eq]
  have := h r
  rw [count_mapRefs f t k, count_mapRefs f u k, hrest]
  omega

/-- An entry that is put in, in place of the one that was there. -/
theorem Exchange.insertEntry (f : β → List Ref) (t : Std.TreeMap κ β) (k : κ) (b : β) :
    Exchange (mapRefs f t) (mapRefs f (t.insert k b)) (f b) (entryRefs f t k) := by
  apply Exchange.changeEntry (k := k)
  · intro i hi
    have hk : ¬ k = i := fun e => hi e.symm
    simp [Std.TreeMap.getElem?_insert, hk]
  · simpa [entryRefs] using Exchange.replace (entryRefs f t k) (f b)

/-- An entry that is taken away. -/
theorem Exchange.eraseEntry (f : β → List Ref) (t : Std.TreeMap κ β) (k : κ) :
    Exchange (mapRefs f t) (mapRefs f (t.erase k)) [] (entryRefs f t k) := by
  apply Exchange.changeEntry (k := k)
  · intro i hi
    have hk : ¬ k = i := fun e => hi e.symm
    simp [Std.TreeMap.getElem?_erase, hk]
  · simpa [entryRefs] using Exchange.replace (entryRefs f t k) []

end

end TinyScript
