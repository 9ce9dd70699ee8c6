/-
  TinyScript.Proofs.Store.Indexing — reading and writing by an index.

  Reads, writes and loops all go by the place that an index means: itself, or counted from the end
  if it is negative (`elementPlace?_eq_some`). A write there changes no other place, and makes room
  for one element only right behind the last one (`setElement_cases`). So what is written is read
  again, and elements are read at their places from either end (`index_reads_agree`).
-/

import TinyScript.Machine.Step
import TinyScript.Proofs.Number.Doubles
import TinyScript.Proofs.Store.Effects

namespace TinyScript

open Number

variable {s t : Store} {r : Ref} {xs : Array Value} {i : Float} {v : Value} {n j : Nat} {k : Int}

theorem elementPlace?_eq_some : elementPlace? i n = some j ↔
    ∃ k : Int, valueOf i = some (k : ℚ) ∧ (if k < 0 then n + k else k) = j := by
  simp only [← toInt?_eq_some_iff, elementPlace?]
  cases toInt? i with
  | none => simp
  | some k =>
    simp only [Option.ite_none_right_eq_some, Option.some_inj, exists_eq_left']
    omega

/-- The indexes from one end to the other, and the one behind, mean places. -/
theorem exists_place_iff : (∃ j ≤ n, elementPlace? i n = some j) ↔
    ∃ k : Int, valueOf i = some (k : ℚ) ∧ -(n : Int) ≤ k ∧ k ≤ n := by
  simp only [elementPlace?_eq_some]
  constructor
  · rintro ⟨j, hj, k, hk, hplace⟩
    exact ⟨k, hk, by split at hplace <;> omega, by split at hplace <;> omega⟩
  · rintro ⟨k, hk, low, high⟩
    refine ⟨(if k < 0 then n + k else k).toNat, ?_, k, hk, ?_⟩ <;> split <;> omega

namespace Store

def written (xs : Array Value) (j : Nat) (v : Value) : Array Value :=
  if j < xs.size then xs.setIfInBounds j v else xs.push v

theorem getElem?_written (h : j ≤ xs.size) (p : Nat) :
    (written xs j v)[p]? = if p = j then some v else xs[p]? := by
  unfold written
  split
  · rw [Array.getElem?_setIfInBounds]
    grind
  · grind

theorem size_written : (written xs j v).size = if j < xs.size then xs.size else xs.size + 1 := by
  unfold written
  split <;> simp

/-- A write at a place makes a change of the array, and any other index makes none. -/
theorem setElement_cases (hr : s.cell? r = some (.array xs)) (p : Text.Position) :
    (∃ j ≤ xs.size, elementPlace? i xs.size = some j ∧ ∃ c,
      s.setElement (.array r) (.number i) v p = .ok c ∧
        (s.apply c).cell? r = some (.array (written xs j v))) ∨
    (¬ ∃ j ≤ xs.size, elementPlace? i xs.size = some j) ∧ ∃ f,
      s.setElement (.array r) (.number i) v p = .error f := by
  have items : s.items r = xs := by simp [items, hr]
  simp only [setElement, items]
  cases hplace : elementPlace? i xs.size with
  | none => exact .inr ⟨by simp, _, rfl⟩
  | some j =>
    rcases Nat.lt_trichotomy j xs.size with hlt | rfl | hgt
    · refine .inl ⟨j, hlt.le, rfl, .setItem r j v, if_pos hlt, ?_⟩
      have hcell := (changesCell_setItem s r j v).cell? r
      rw [if_pos rfl, hr] at hcell
      rw [written, if_pos hlt]
      exact hcell
    · refine .inl ⟨_, Nat.le_refl _, rfl, .append r v, by simp, ?_⟩
      have hcell := (changesCell_append s r v).cell? r
      rw [if_pos rfl, hr] at hcell
      rw [written, if_neg (Nat.lt_irrefl _)]
      exact hcell
    · refine .inr ⟨by simp; omega, .runtime (s.invalidIndex (.array r) (.number i)) p, ?_⟩
      simp only [if_neg (Nat.lt_asymm hgt), if_neg (Nat.ne_of_gt hgt)]

/-- What was written by an index is read by it. -/
theorem element_written (ht : t.cell? r = some (.array (written xs j v))) (hj : j ≤ xs.size)
    (hplace : elementPlace? i xs.size = some j) :
    t.element (.array r) (.number i) = .ok (v, t) := by
  have items : t.items r = written xs j v := by simp [items, ht]
  have hsame : elementPlace? i (written xs j v).size = some j := by
    obtain ⟨k, hk, hj'⟩ := elementPlace?_eq_some.1 hplace
    refine elementPlace?_eq_some.2 ⟨k, hk, ?_⟩
    rw [size_written]
    grind
  simp only [element, items, hsame]
  rw [Array.getD_eq_getD_getElem?, getElem?_written hj, if_pos rfl]
  rfl

/-- An element is read at its place, counted from either end. -/
theorem elementPlace?_of_place (hj : j < n)
    (hi : valueOf i = some (j : ℚ) ∨ valueOf i = some ((j : ℚ) - n)) :
    elementPlace? i n = some j := by
  rw [elementPlace?_eq_some]
  rcases hi with hi | hi
  · exact ⟨j, by simpa using hi, by simp⟩
  · exact ⟨j - n, by simpa using hi, by rw [if_pos (by omega)]; omega⟩

end Store

/-- Writing by an index and reading by it agree, and so do loops. -/
theorem index_reads_agree :
    (∀ (m : Machine) (r : Ref) (xs : Array Value) (i : Float) (v : Value) (p : Text.Position),
      m.store.cell? r = some (.array xs) →
      let next := m.resumeValue v (.storeElement p (.array r) (.number i))
      ((∃ t, next = ({ m with store := t } : Machine).give v) ↔
        ∃ k : Int, valueOf i = some (k : ℚ) ∧ -(xs.size : Int) ≤ k ∧ k ≤ xs.size) ∧
      (∀ t, next = ({ m with store := t } : Machine).give v →
        ∃ (k : Int) (ys : Array Value), valueOf i = some (k : ℚ) ∧ t.cell? r = some (.array ys) ∧
          t.element (.array r) (.number i) = .ok (v, t) ∧
          ys.size = (if k = xs.size then xs.size + 1 else xs.size) ∧
          ∀ j : Nat, (j : Int) ≠ (if k < 0 then xs.size + k else k) → ys[j]? = xs[j]?) ∧
      ((∀ t, next ≠ ({ m with store := t } : Machine).give v) → next.store = m.store)) ∧
    ∀ (s : Store) (c : Value), (∃ r, c = .array r) ∨ (∃ text, c = .string text) →
      ∃ n vs, s.length? c = some n ∧ s.elements c = .ok vs ∧ vs.length = n ∧
        ∀ k (hk : k < vs.length) (i : Float),
          valueOf i = some (k : ℚ) ∨ valueOf i = some ((k : ℚ) - n) →
            s.element c (.number i) = .ok (vs[k], s) := by
  refine ⟨fun m r xs i v p hr => ?_, fun s c hc => ?_⟩
  · intro next
    have hnext : next = m.change (m.store.setElement (.array r) (.number i) v p) (·.give v) := rfl
    rw [← exists_place_iff]
    rcases Store.setElement_cases (i := i) (v := v) hr p with
      ⟨j, hj, hplace, c, hc, hcell⟩ | ⟨hno, f, hf⟩
    · rw [hc] at hnext
      refine ⟨⟨fun _ => ⟨j, hj, hplace⟩, fun _ => ⟨_, hnext⟩⟩, fun t ht => ?_,
        fun hne => absurd hnext (hne _)⟩
      obtain ⟨k, hk, hkj⟩ := elementPlace?_eq_some.1 hplace
      have hstore : m.store.apply c = t := congrArg (·.store) (hnext.symm.trans ht)
      rw [hstore] at hcell
      refine ⟨k, _, hk, hcell, Store.element_written hcell hj hplace, ?_, fun p hp => ?_⟩
      · rw [Store.size_written]
        split at hkj <;> split <;> split <;> omega
      · rw [Store.getElem?_written hj, if_neg fun e => hp (by rw [hkj, e])]
    · rw [hf] at hnext
      refine ⟨⟨fun ⟨t, ht⟩ => ?_, fun h => absurd h hno⟩, fun t ht => ?_, fun _ => ?_⟩
      · cases congrArg Machine.control (hnext.symm.trans ht)
      · cases congrArg Machine.control (hnext.symm.trans ht)
      · rw [hnext]
        rfl
  · rcases hc with ⟨r, rfl⟩ | ⟨text, rfl⟩
    · refine ⟨_, (s.items r).toList, rfl, rfl, by simp, fun k hk i hi => ?_⟩
      have hk : k < (s.items r).size := by simpa using hk
      simp only [Store.element, Store.elementPlace?_of_place hk hi]
      simp [Array.getD, hk]
    · have hlength : text.length = text.toList.length := String.length_toList.symm
      refine ⟨_, text.toList.map charText, rfl, rfl, by simp [hlength], fun k hk i hi => ?_⟩
      have hk : k < text.length := by simpa [hlength] using hk
      simp only [Store.element, Store.elementPlace?_of_place hk hi, Text.charAt?_eq]
      simp [hlength ▸ hk]

end TinyScript
