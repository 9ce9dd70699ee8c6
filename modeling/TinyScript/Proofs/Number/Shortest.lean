/-
  TinyScript.Proofs.Number.Shortest — the decimal of a double rounds to it.

  The search goes from the leading digit to finer and finer grids. The leading digit is found
  (`leading_le`, `ten_zpow_le_two_zpow`), and the grid of the seventeenth digit is finer than what
  rounds to any double (`Canonical.fine`), so there is a point to be found on some grid
  (`nearest_ne_none`), and it rounds to the double (`Canonical.rounds_shortest`).
-/

import TinyScript.Number.Shortest
import TinyScript.Proofs.Number.Rounding

namespace TinyScript.Number

attribute [local instance (high)] instPowNat

variable {m n : Nat} {q p : Int} {x : ℚ}

/-! ## The grids -/

theorem ends_eq (pos : 0 < m) (q : Int) :
    ((Interval.ofBinary m q).low : ℚ) = lowEnd m q * (Interval.ofBinary m q).denominator ∧
    ((Interval.ofBinary m q).value : ℚ) = m * 2 ^ q * (Interval.ofBinary m q).denominator ∧
    ((Interval.ofBinary m q).high : ℚ) = highEnd m q * (Interval.ofBinary m q).denominator := by
  have scale : ((2 ^ (q - 2).toNat : Nat) : ℚ) * 4 = 2 ^ q * ((2 ^ (2 - q).toNat : Nat) : ℚ) := by
    have power := zpow_mul_toNat (b := 2) (by norm_num) (q - 2)
    rw [neg_sub, zpow_sub₀ (by norm_num)] at power
    push_cast
    linear_combination -4 * power
  simp only [Interval.ofBinary, lowEnd, highEnd, below]
  rw [Nat.cast_mul, Nat.cast_sub (by split <;> omega)]
  push_cast at scale ⊢
  refine ⟨?_, by linear_combination (m : ℚ) * scale,
    by linear_combination ((m : ℚ) + 1 / 2) * scale⟩
  split
  · linear_combination ((m : ℚ) - 1 / 4) * scale
  · linear_combination ((m : ℚ) - 1 / 2) * scale

/-- A point on a grid against a fraction. -/
theorem grid_le (a b : Nat) (p : Int) (x : ℚ) (h : (a : ℚ) = x * b) (pos : 0 < b) :
    (a * 10 ^ (-p).toNat ≤ n * b * 10 ^ p.toNat ↔ x ≤ n * 10 ^ p) ∧
      (n * b * 10 ^ p.toNat ≤ a * 10 ^ (-p).toNat ↔ n * 10 ^ p ≤ x) := by
  have unit : (0 : ℚ) < b * 10 ^ (-p).toNat := by positivity
  rw [← Nat.cast_le (α := ℚ), ← Nat.cast_le (α := ℚ)]
  push_cast
  rw [h, ← zpow_mul_toNat (by norm_num) p, ← mul_le_mul_iff_left₀ unit (b := x),
    ← mul_le_mul_iff_left₀ unit (c := x)]
  constructor
  · ring_nf
  · ring_nf

theorem contains_iff (pos : 0 < m) :
    (Interval.ofBinary m q).contains n p ↔ Rounds m q (n * 10 ^ p) := by
  obtain ⟨low, -, high⟩ := ends_eq pos q
  have unit : 0 < (Interval.ofBinary m q).denominator := Nat.two_pow_pos _
  have low := grid_le (n := n) _ _ p _ low unit
  have high := grid_le (n := n) _ _ p _ high unit
  have closed : (Interval.ofBinary m q).closed = decide (m % 2 = 0) := rfl
  simp only [Interval.contains, Rounds, closed, decide_eq_true_iff]
  split
  · rw [Bool.and_eq_true, decide_eq_true_iff, decide_eq_true_iff, low.1, high.2]
  · rw [Bool.and_eq_true, decide_eq_true_iff, decide_eq_true_iff, ← not_le, ← not_le, low.2, high.1,
      not_le, not_le]

theorem rounds_of_nearest (pos : 0 < m) (h : (Interval.ofBinary m q).nearest? p = some n) :
    Rounds m q (n * 10 ^ p) := by
  rw [← contains_iff pos]
  simp only [Interval.nearest?] at h
  split at h
  next lower upper =>
    split at h <;> cases h <;> assumption
  next lower upper =>
    cases h
    exact lower
  next lower upper =>
    cases h
    exact upper
  next => cases h

theorem le_lowEnd (le : x ≤ m * 2 ^ q) (out : ¬ Rounds m q x) : x ≤ lowEnd m q := by
  have high : m * 2 ^ q < highEnd m q := by
    unfold highEnd
    gcongr
    norm_num
  by_contra low
  apply out
  unfold Rounds
  split <;> constructor <;> linarith

theorem highEnd_le (le : m * 2 ^ q ≤ x) (out : ¬ Rounds m q x) : highEnd m q ≤ x := by
  have low : lowEnd m q < m * 2 ^ q := by
    unfold lowEnd below
    gcongr
    split <;> norm_num
  by_contra high
  apply out
  unfold Rounds
  split <;> constructor <;> linarith

/-- A grid that is finer than what rounds to a double has a point there. -/
theorem nearest_ne_none (pos : 0 < m) (fine : (10 : ℚ) ^ p < (below m q + 1 / 2) * 2 ^ q) :
    (Interval.ofBinary m q).nearest? p ≠ none := by
  intro none
  have unit : 0 < (Interval.ofBinary m q).denominator := Nat.two_pow_pos _
  have grid (n : Nat) := grid_le (n := n) _ _ p _ (ends_eq pos q).2.1 unit
  have whole : 0 < (Interval.ofBinary m q).denominator * 10 ^ p.toNat :=
    Nat.mul_pos unit (Nat.pow_pos (by decide))
  simp only [Interval.nearest?] at none
  generalize floor : (Interval.ofBinary m q).value * 10 ^ (-p).toNat /
    ((Interval.ofBinary m q).denominator * 10 ^ p.toNat) = n at none
  have lower : (n : ℚ) * 10 ^ p ≤ m * 2 ^ q := by
    rw [← (grid n).2, ← floor, Nat.mul_assoc]
    exact Nat.div_mul_le_self _ _
  have upper : m * 2 ^ q ≤ ((n + 1 : Nat) : ℚ) * 10 ^ p := by
    rw [← (grid (n + 1)).1, ← floor, Nat.mul_assoc, Nat.mul_comm (_ + 1)]
    exact (Nat.lt_mul_div_succ _ whole).le
  split at none
  · split at none <;> cases none
  · cases none
  · cases none
  next outLower outUpper =>
    have low := le_lowEnd lower (by rw [← contains_iff pos, outLower]; simp)
    have high := highEnd_le upper (by rw [← contains_iff pos, outUpper]; simp)
    unfold lowEnd at low
    unfold highEnd at high
    push_cast at high
    linarith

/-! ## The search -/

/-- The search ends at the first grid with a point that rounds to the double. -/
theorem search_rounds {k : Nat} (pos : 0 < m) (some : k < n)
    (found : (Interval.ofBinary m q).nearest? (p - k) ≠ none) :
    Rounds m q (((Interval.ofBinary m q).search n p).digits *
      10 ^ ((Interval.ofBinary m q).search n p).exponent) ∧
      p - k ≤ ((Interval.ofBinary m q).search n p).exponent := by
  induction n generalizing p k with
  | zero => omega
  | succ n ih =>
    rw [Interval.search]
    cases here : (Interval.ofBinary m q).nearest? p with
    | some d => exact ⟨rounds_of_nearest pos here, by simp⟩
    | none =>
      rcases k with _ | k
      · simp [here] at found
      · have step : p - ((k + 1 : Nat) : Int) = p - 1 - k := by omega
        rw [step] at found
        obtain ⟨near, le⟩ := ih (by omega) found
        exact ⟨near, step ▸ le⟩

theorem leading_le (pos : 0 < m) :
    ((10 : ℚ) ^ ((Interval.ofBinary m q).leading n p) ≤ m * 2 ^ q ∨
      (Interval.ofBinary m q).leading n p = p - n) ∧
      p - n ≤ (Interval.ofBinary m q).leading n p := by
  induction n generalizing p with
  | zero => simp [Interval.leading]
  | succ n ih =>
    rw [Interval.leading]
    split
    next fits =>
      have grid := (grid_le (n := 1) _ _ p _ (ends_eq pos q).2.1 (Nat.two_pow_pos _)).2
      rw [Nat.one_mul, Nat.cast_one, one_mul] at grid
      exact ⟨.inl (grid.1 fits), by omega⟩
    next =>
      have step : p - 1 - (n : Int) = p - ((n + 1 : Nat) : Int) := by omega
      have := @ih (p - 1)
      rwa [step] at this

theorem trim_value (n : Nat) (d : Decimal) :
    ((Decimal.trim n d).digits : ℚ) * 10 ^ (Decimal.trim n d).exponent =
      d.digits * 10 ^ d.exponent ∧
      d.exponent ≤ (Decimal.trim n d).exponent := by
  induction n generalizing d with
  | zero => exact ⟨rfl, Int.le_refl _⟩
  | succ n ih =>
    rw [Decimal.trim]
    split
    next zero =>
      obtain ⟨value, le⟩ := ih ⟨d.digits / 10, d.exponent + 1⟩
      have tenfold : ((d.digits / 10 : Nat) : ℚ) * 10 = d.digits := by
        exact_mod_cast Nat.div_mul_cancel (Nat.dvd_of_mod_eq_zero zero.1)
      refine ⟨value.trans ?_, by simp only at le; omega⟩
      rw [zpow_add_one₀ (by norm_num), ← tenfold]
      ring
    next => exact ⟨rfl, Int.le_refl _⟩

/-! ## The decimal of a double -/

/-- Forty places below the bound the powers of ten are small enough. -/
theorem ten_zpow_le_two_zpow {b : Int} (low : -1074 ≤ b) (high : b ≤ 1023) :
    (10 : ℚ) ^ (max (b / 3) (b * 3 / 10) + 1 - 40) ≤ 2 ^ b := by
  by_cases some : 0 ≤ b
  · obtain ⟨k, hk⟩ := Int.eq_ofNat_of_zero_le (by omega : 0 ≤ b / 10)
    calc (10 : ℚ) ^ (max (b / 3) (b * 3 / 10) + 1 - 40) ≤ 10 ^ (3 * (k : Int)) :=
          zpow_le_zpow_right₀ (by norm_num) (by omega)
      _ = (10 ^ (3 : Int)) ^ k := by rw [zpow_mul, zpow_natCast]
      _ ≤ (2 ^ (10 : Int)) ^ k := pow_le_pow_left₀ (by norm_num) (by norm_num) k
      _ = 2 ^ (10 * (k : Int)) := by rw [zpow_mul, zpow_natCast]
      _ ≤ 2 ^ b := zpow_le_zpow_right₀ (by norm_num) (by omega)
  · obtain ⟨k, hk⟩ := Int.eq_ofNat_of_zero_le (by omega : 0 ≤ (12 - b) / 13)
    calc (10 : ℚ) ^ (max (b / 3) (b * 3 / 10) + 1 - 40) ≤ 10 ^ (4 * -(k : Int)) :=
          zpow_le_zpow_right₀ (by norm_num) (by omega)
      _ = ((10 ^ (4 : Int)) ^ k)⁻¹ := by rw [zpow_mul, zpow_neg, zpow_natCast]
      _ ≤ ((2 ^ (13 : Int)) ^ k)⁻¹ :=
          inv_anti₀ (by positivity) (pow_le_pow_left₀ (by norm_num) (by norm_num) k)
      _ = 2 ^ (13 * -(k : Int)) := by rw [zpow_mul, zpow_neg, zpow_natCast]
      _ ≤ 2 ^ b := zpow_le_zpow_right₀ (by norm_num) (by omega)

namespace Canonical

variable (h : Canonical m q)
include h

/-- Seventeen digits from the leading one on are fine enough. -/
theorem fine (le : (10 : ℚ) ^ p ≤ m * 2 ^ q) :
    (10 : ℚ) ^ (p - 16) < (below m q + 1 / 2) * 2 ^ q := by
  have unit := two_zpow_pos q
  have wide : (m : ℚ) < (below m q + 1 / 2) * 10 ^ (16 : Int) := by
    unfold below
    split
    next power =>
      rw [power.1]
      norm_num [fractionBits]
    next =>
      have most : (m : ℚ) < (2 ^ 53 : Nat) := by exact_mod_cast h.lt
      norm_num at most ⊢
      linarith
  rw [zpow_sub₀ (by norm_num), div_lt_iff₀ (by norm_num), mul_right_comm]
  exact lt_of_le_of_lt le (mul_lt_mul_of_pos_right wide unit)

/-- The decimal of a double rounds to it. -/
theorem rounds_shortest (pos : 0 < m) : 0 < (shortest m q).digits ∧ -400 ≤ (shortest m q).exponent ∧
    Rounds m q ((shortest m q).digits * 10 ^ (shortest m q).exponent) := by
  have low := h.least
  have high := h.most
  have bits : m.log2 < 53 := (Nat.log2_lt (Nat.ne_of_gt pos)).2 h.lt
  rw [shortest]
  generalize start : max (((m.log2 : Int) + q) / 3) (((m.log2 : Int) + q) * 3 / 10) + 1 = bound
  have least := @leading_le m 40 q bound pos
  generalize (Interval.ofBinary m q).leading 40 bound = place at least
  obtain ⟨leads, least⟩ := least
  have le : (10 : ℚ) ^ place ≤ m * 2 ^ q := by
    refine leads.elim id fun last => ?_
    have size : (2 : ℚ) ^ ((m.log2 : Int) + q) ≤ m * 2 ^ q := by
      rw [zpow_add₀ (by norm_num), zpow_natCast]
      gcongr
      exact_mod_cast Nat.log2_self_le (Nat.ne_of_gt pos)
    rw [last, ← start]
    exact (ten_zpow_le_two_zpow (by omega) (by omega)).trans size
  obtain ⟨near, far⟩ := search_rounds (n := maxDigits) (k := 16) pos (by decide)
    (nearest_ne_none pos (h.fine le))
  obtain ⟨value, up⟩ := trim_value (maxDigits + 1) ((Interval.ofBinary m q).search maxDigits place)
  rw [value]
  refine ⟨?_, by omega, near⟩
  apply Nat.pos_of_ne_zero
  intro none
  rw [none, Nat.cast_zero, zero_mul] at value
  rw [← value] at near
  exact absurd near.ends.1 (not_le.2 (lowEnd_pos pos))

end Canonical

end TinyScript.Number
