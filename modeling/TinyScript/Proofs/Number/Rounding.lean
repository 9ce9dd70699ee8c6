/-
  TinyScript.Proofs.Number.Rounding — what is nearest to a double is read as it.

  The numbers that round to a double reach half way to its neighbours, with the ends when the
  mantissa is even (`Rounds`). Reading takes the exponent of the doubles around a fraction
  (`exponentAround_eq`) and rounds to whole multiples of its unit (`roundHalf_eq`). So a decimal
  that rounds to a double is read as that double (`ofDecimal_eq`).
-/

import TinyScript.Number.Reading
import TinyScript.Proofs.Number.Doubles

namespace TinyScript.Number

attribute [local instance (high)] instPowNat

variable {m n d : Nat} {q e : Int} {x : ℚ}

theorem two_zpow_pos (q : Int) : (0 : ℚ) < 2 ^ q := zpow_pos (by norm_num) q

/-- A power as a fraction, whatever the sign of its exponent. -/
theorem zpow_mul_toNat {b : ℚ} (some : b ≠ 0) (p : Int) : b ^ p * b ^ (-p).toNat = b ^ p.toNat := by
  rw [← zpow_natCast, ← zpow_natCast, ← zpow_add₀ some]
  congr 1
  omega

/-! ## Numbers that round to a double -/

/-- How far below `m * 2 ^ q` numbers round to it, in units of `2 ^ q`. -/
def below (m : Nat) (q : Int) : ℚ :=
  if m = 2 ^ fractionBits ∧ q > leastExponent then 1 / 4 else 1 / 2

theorem below_le (m : Nat) (q : Int) : below m q ≤ 1 / 2 := by
  unfold below
  split <;> norm_num

def lowEnd (m : Nat) (q : Int) : ℚ := (m - below m q) * 2 ^ q

def highEnd (m : Nat) (q : Int) : ℚ := (m + 1 / 2) * 2 ^ q

def Rounds (m : Nat) (q : Int) (x : ℚ) : Prop :=
  if m % 2 = 0 then lowEnd m q ≤ x ∧ x ≤ highEnd m q else lowEnd m q < x ∧ x < highEnd m q

theorem Rounds.ends (h : Rounds m q x) : lowEnd m q ≤ x ∧ x ≤ highEnd m q := by
  unfold Rounds at h
  split at h
  · exact h
  · exact ⟨h.1.le, h.2.le⟩

theorem Rounds.lt_ends (h : Rounds m q x) (odd : m % 2 = 1) : lowEnd m q < x ∧ x < highEnd m q := by
  rwa [Rounds, if_neg (by omega)] at h

theorem lowEnd_pos (pos : 0 < m) : 0 < lowEnd m q := by
  have one : (1 : ℚ) ≤ m := by exact_mod_cast pos
  have small := below_le m q
  exact mul_pos (by linarith) (two_zpow_pos q)

theorem Canonical.highEnd_lt (h : Canonical m q) : highEnd m q < 2 ^ (53 + q) := by
  have most : (m : ℚ) + 1 / 2 < 2 ^ (53 : Int) := by
    have : (m : ℚ) + 1 ≤ 2 ^ (53 : Int) := by exact_mod_cast h.lt
    linarith
  rw [zpow_add₀ (by norm_num)]
  exact mul_lt_mul_of_pos_right most (two_zpow_pos q)

/-! ## Rounding a fraction -/

theorem roundHalf_eq {k : Nat} (pos : 0 < d) (low : k - 1 / 2 ≤ (n : ℚ) / d)
    (high : (n : ℚ) / d ≤ k + 1 / 2)
    (ties : k % 2 = 1 → k - 1 / 2 < (n : ℚ) / d ∧ (n : ℚ) / d < k + 1 / 2) :
    roundHalf n d = k := by
  have unit : (0 : ℚ) < d := by exact_mod_cast pos
  rw [le_div_iff₀ unit] at low
  rw [div_le_iff₀ unit] at high
  rw [lt_div_iff₀ unit, div_lt_iff₀ unit] at ties
  have low : 2 * (k * d) ≤ 2 * n + d := by
    have : (2 * (k * d) : ℚ) ≤ 2 * n + d := by linarith
    exact_mod_cast this
  have high : 2 * n ≤ 2 * (k * d) + d := by
    have : (2 * n : ℚ) ≤ 2 * (k * d) + d := by linarith
    exact_mod_cast this
  have ties : k % 2 = 1 → 2 * (k * d) < 2 * n + d ∧ 2 * n < 2 * (k * d) + d := by
    intro odd
    obtain ⟨low, high⟩ := ties odd
    have low : (2 * (k * d) : ℚ) < 2 * n + d := by linarith
    have high : (2 * n : ℚ) < 2 * (k * d) + d := by linarith
    exact ⟨by exact_mod_cast low, by exact_mod_cast high⟩
  by_cases le : k * d ≤ n
  · have div : n / d = k := Nat.div_eq_of_lt_le le (by rw [Nat.succ_mul]; omega)
    have := Nat.div_add_mod' n d
    rw [div] at this
    simp only [roundHalf, div]
    rw [if_neg (by omega)]
  · obtain ⟨j, rfl⟩ : ∃ j, k = j + 1 := Nat.exists_eq_succ_of_ne_zero (by rintro rfl; omega)
    have step : (j + 1) * d = j * d + d := Nat.succ_mul j d
    have div : n / d = j := Nat.div_eq_of_lt_le (by omega) (by omega)
    have := Nat.div_add_mod' n d
    rw [div] at this
    simp only [roundHalf, div]
    rw [if_pos (by omega)]

theorem two_zpow_mul (a b : Int) : (2 : ℚ) ^ a * 2 ^ b = 2 ^ (a + b) :=
  (zpow_add₀ two_ne_zero a b).symm

/-- The binary places of a fraction follow from those above and below its line, but for one. -/
theorem fraction_bounds (hn : 0 < n) (hd : 0 < d) :
    (2 : ℚ) ^ ((n.log2 : Int) - d.log2 - 1) < n / d ∧
      (n : ℚ) / d < 2 ^ ((n.log2 : Int) - d.log2 + 1) := by
  have unit : (0 : ℚ) < d := by exact_mod_cast hd
  rw [lt_div_iff₀ unit, div_lt_iff₀ unit]
  constructor
  · calc _ < 2 ^ ((n.log2 : Int) - d.log2 - 1) * 2 ^ ((d.log2 : Int) + 1) :=
          mul_lt_mul_of_pos_left (by exact_mod_cast Nat.lt_log2_self) (two_zpow_pos _)
      _ = 2 ^ (n.log2 : Int) := by rw [two_zpow_mul]; congr 1; omega
      _ ≤ n := by exact_mod_cast Nat.log2_self_le (Nat.ne_of_gt hn)
  · calc (n : ℚ) < 2 ^ ((n.log2 : Int) + 1) := by exact_mod_cast Nat.lt_log2_self
      _ = 2 ^ ((n.log2 : Int) - d.log2 + 1) * 2 ^ (d.log2 : Int) := by
        rw [two_zpow_mul]; congr 1; omega
      _ ≤ 2 ^ ((n.log2 : Int) - d.log2 + 1) * d := by
        gcongr
        exact_mod_cast Nat.log2_self_le (Nat.ne_of_gt hd)

theorem exponentAround_eq (hn : 0 < n) (hd : 0 < d) (least : leastExponent ≤ q)
    (low : q = leastExponent ∨ (2 : ℚ) ^ (52 + q) ≤ n / d) (high : (n : ℚ) / d < 2 ^ (53 + q)) :
    exponentAround n d = q := by
  have unit : (0 : ℚ) < d := by exact_mod_cast hd
  have places := fraction_bounds hn hd
  unfold exponentAround fractionBits
  generalize first : (n.log2 : Int) - d.log2 - (52 : Nat) = e
  have line : (n.log2 : Int) - d.log2 = 52 + e := by omega
  rw [line, show 52 + e - 1 = 52 + (e - 1) by omega, show 52 + e + 1 = 53 + e by omega] at places
  have few : n * 2 ^ (-e).toNat < 2 ^ 52 * (d * 2 ^ e.toNat) ↔ (n : ℚ) / d < 2 ^ (52 + e) := by
    have scale : (0 : ℚ) < 2 ^ (-e).toNat := by positivity
    rw [← Nat.cast_lt (α := ℚ), div_lt_iff₀ unit, ← two_zpow_mul]
    push_cast
    rw [← zpow_mul_toNat two_ne_zero e, ← mul_assoc, ← mul_assoc, mul_lt_mul_iff_left₀ scale,
      mul_right_comm]
  have bounds {t : Int} (lower : (2 : ℚ) ^ (52 + t) ≤ n / d) (upper : (n : ℚ) / d < 2 ^ (53 + t)) :
      max leastExponent t = q := by
    have order {a b : Int} : (2 : ℚ) ^ a < 2 ^ b → a < b :=
      (zpow_lt_zpow_iff_right₀ (by norm_num)).1
    have le := order (lower.trans_lt high)
    rcases low with least | low
    · omega
    · have := order (low.trans_lt upper)
      omega
  simp only [few]
  split
  next short =>
    rw [show 52 + e = 53 + (e - 1) by omega] at short
    exact bounds places.1.le short
  next long => exact bounds (not_lt.1 long) places.2

/-- A fraction is read from the exponent around it and its multiple of the unit. -/
theorem ofFraction_of {k : Nat} (hn : 0 < n) (hd : 0 < d) (least : leastExponent ≤ q)
    (low : q = leastExponent ∨ (2 : ℚ) ^ (52 + q) ≤ n / d) (high : (n : ℚ) / d < 2 ^ (53 + q))
    (near : (k - 1 / 2) * (2 : ℚ) ^ q ≤ n / d ∧ (n : ℚ) / d ≤ (k + 1 / 2) * 2 ^ q)
    (ties : k % 2 = 1 →
      (k - 1 / 2) * (2 : ℚ) ^ q < n / d ∧ (n : ℚ) / d < (k + 1 / 2) * 2 ^ q)
    (finite : (q + 1074).toNat * 2 ^ 52 + k < 2047 * 2 ^ 52) :
    ofFraction n d = Float.ofBits ((q + 1074).toNat * 2 ^ 52 + k).toUInt64 := by
  have unit := two_zpow_pos q
  have scaled : ((n * 2 ^ (-q).toNat : Nat) : ℚ) / (d * 2 ^ q.toNat : Nat) = n / d / 2 ^ q := by
    push_cast
    rw [← zpow_mul_toNat two_ne_zero q]
    field_simp
  rw [← le_div_iff₀ unit, ← div_le_iff₀ unit, ← scaled] at near
  rw [← lt_div_iff₀ unit, ← div_lt_iff₀ unit, ← scaled] at ties
  rw [ofFraction, exponentAround_eq hn hd least low high,
    roundHalf_eq (Nat.mul_pos hd (Nat.two_pow_pos _)) near.1 near.2 ties]
  exact if_pos finite

/-- Below a power of two the unit is half as great, and the mantissa comes to the next power. -/
theorem ofFraction_below (hn : 0 < n) (hd : 0 < d) (least : leastExponent < q) (most : q ≤ 971)
    (low : (2 ^ 52 - 1 / 4) * (2 : ℚ) ^ q ≤ n / d) (high : (n : ℚ) / d < 2 ^ (52 + q)) :
    ofFraction n d = Float.ofBits ((q + 1074).toNat * 2 ^ 52 + 2 ^ 52).toUInt64 := by
  unfold leastExponent at least
  have unit := two_zpow_pos (q - 1)
  have next : 53 + (q - 1) = 52 + q := by omega
  have start : ((2 ^ 53 : Nat) - 1 / 2 : ℚ) * 2 ^ (q - 1) ≤ n / d := by
    refine le_trans (le_of_eq ?_) low
    have double : (2 : ℚ) ^ q = 2 * 2 ^ (q - 1) := by
      rw [← zpow_one_add₀ two_ne_zero, add_sub_cancel]
    rw [double]
    push_cast
    ring
  have shift : (q - 1 + 1074).toNat * 2 ^ 52 + 2 ^ 53 = (q + 1074).toNat * 2 ^ 52 + 2 ^ 52 := by
    omega
  rw [← shift]
  refine ofFraction_of hn hd (by unfold leastExponent; omega) (.inr (le_trans ?_ start))
    (by rwa [next]) ⟨start, le_trans high.le ?_⟩ (fun odd => absurd odd (by decide)) (by omega)
  · rw [← two_zpow_mul]
    gcongr
    norm_num
  · rw [← next, ← two_zpow_mul]
    gcongr
    norm_num

theorem ofFraction_eq (h : Canonical m q) (hn : 0 < n) (hd : 0 < d) (near : Rounds m q (n / d)) :
    ofFraction n d = Float.ofBits ((q + 1074).toNat * 2 ^ 52 + m).toUInt64 := by
  have small := below_le m q
  have bits := h.lt
  have most := h.most
  have least := h.least
  obtain ⟨low, high⟩ := near.ends
  have half : (m - 1 / 2) * (2 : ℚ) ^ q ≤ lowEnd m q := by
    unfold lowEnd
    gcongr
  by_cases there : q = leastExponent ∨ (2 : ℚ) ^ (52 + q) ≤ n / d
  · exact ofFraction_of hn hd least there (high.trans_lt h.highEnd_lt) ⟨half.trans low, high⟩
      (fun odd => ⟨half.trans_lt (near.lt_ends odd).1, (near.lt_ends odd).2⟩) (by omega)
  · obtain ⟨more, there⟩ := not_or.1 there
    rw [not_le] at there
    have power : m = 2 ^ 52 := by
      refine Nat.le_antisymm ?_ (h.full.resolve_left more)
      rw [← two_zpow_mul] at there
      have := lt_of_mul_lt_mul_right ((half.trans low).trans_lt there) (two_zpow_pos q).le
      have : (m : ℚ) < (2 ^ 52 + 1 : Nat) := by
        push_cast
        linarith
      exact Nat.lt_succ_iff.1 (by exact_mod_cast this)
    have above : leastExponent < q := lt_of_le_of_ne least (Ne.symm more)
    rw [lowEnd, below, if_pos ⟨power, above⟩] at low
    subst power
    exact ofFraction_below hn hd above most (by exact_mod_cast low) there

/-! ## Rounding a decimal -/

theorem two_zpow_le_ten_zpow (e : Int) : (2 : ℚ) ^ (if 0 ≤ e then 3 * e else 4 * e) ≤ 10 ^ e := by
  split
  next some =>
    obtain ⟨k, rfl⟩ := Int.eq_ofNat_of_zero_le some
    rw [zpow_mul, zpow_natCast, zpow_natCast]
    exact pow_le_pow_left₀ (by norm_num) (by norm_num) k
  next none =>
    obtain ⟨k, rfl⟩ := Int.exists_eq_neg_ofNat (by omega : e ≤ 0)
    rw [zpow_mul, zpow_neg, zpow_neg, zpow_natCast, zpow_natCast]
    exact inv_anti₀ (by positivity) (pow_le_pow_left₀ (by norm_num) (by norm_num) k)

theorem Canonical.lt_of_rounds (h : Canonical m q) (near : Rounds m q x) : x < 2 ^ (1024 : Int) :=
  calc x ≤ highEnd m q := near.ends.2
    _ < 2 ^ (53 + q) := h.highEnd_lt
    _ ≤ 2 ^ (1024 : Int) := zpow_le_zpow_right₀ (by norm_num) (by have := h.most; omega)

/-- A decimal that rounds to a double is read as the double. -/
theorem ofDecimal_eq (h : Canonical m q) (pos : 0 < d) (far : -400 ≤ e)
    (near : Rounds m q (d * 10 ^ e)) :
    ofDecimal d e = Float.ofBits ((q + 1074).toNat * 2 ^ 52 + m).toUInt64 := by
  have bits : (d.log2 : Int) + (if 0 ≤ e then 3 * e else 4 * e) < 1024 := by
    rw [← zpow_lt_zpow_iff_right₀ (by norm_num : (1 : ℚ) < 2), zpow_add₀ (by norm_num)]
    refine lt_of_le_of_lt ?_ (h.lt_of_rounds near)
    have some : (2 : ℚ) ^ (d.log2 : Int) ≤ d := by
      exact_mod_cast Nat.log2_self_le (Nat.ne_of_gt pos)
    have scale := two_zpow_le_ten_zpow e
    gcongr
  have high : ¬ e + (d.log2 : Int) * 30103 / 100000 > farPlaces := by
    unfold farPlaces
    split at bits <;> omega
  have low : ¬ e + (d.log2 : Int) * 30103 / 100000 < -farPlaces := by
    unfold farPlaces
    omega
  rw [ofDecimal, if_neg (Nat.ne_of_gt pos), if_neg high, if_neg low]
  refine ofFraction_eq h (Nat.mul_pos pos (Nat.pow_pos (by decide))) (Nat.pow_pos (by decide)) ?_
  push_cast
  rwa [← zpow_mul_toNat (by norm_num) e, ← mul_assoc, mul_div_cancel_right₀ _ (by positivity)]

end TinyScript.Number
