/-
  TinyScript.Proofs.Number.Doubles — the bits, the sign and the value of a double.

  The magnitude of a double gives its bits back but for the sign (`bits_of_magnitude`), which is a
  bit of its own (`negate_unsigned`). The rational number that a finite double stands for is its
  value (`valueOf`), and `toInt?` finds those that are whole (`toInt?_eq_some_iff`).
-/

import Mathlib
import TinyScript.Number.Binary

namespace TinyScript.Number

open Float.Model Float.Model.UnpackedFloat

attribute [local instance (high)] instPowNat

variable {x : Float} {m : Nat} {q : Int}

/-! ## Bits -/

/-- The form that a double has: as many bits as there is room for, unless the exponent is the
    least one. -/
structure Canonical (m : Nat) (q : Int) : Prop where
  lt : m < 2 ^ 53
  least : -1074 ≤ q
  most : q ≤ 971
  full : q = -1074 ∨ 2 ^ 52 ≤ m

/-- The bits of a double without its sign. -/
theorem bits_of_magnitude (x : Float) :
    match magnitude x with
    | .finite m q => x.toBits.toNat % 2 ^ 63 = (q + 1074).toNat * 2 ^ 52 + m ∧ Canonical m q
    | .infinite => x.toBits.toNat % 2 ^ 63 = 2047 * 2 ^ 52
    | .nan => 2047 * 2 ^ 52 < x.toBits.toNat % 2 ^ 63 := by
  have room : x.toBits.toNat % 2 ^ 63 < 2 ^ 63 := Nat.mod_lt _ (by decide)
  unfold magnitude fractionBits leastExponent
  extract_lets bits fraction biased
  by_cases special : biased = 2047
  · rw [if_pos special]
    by_cases zero : fraction = 0
    · rw [if_pos zero]
      show bits = _
      omega
    · rw [if_neg zero]
      show _ < bits
      omega
  · rw [if_neg special]
    by_cases zero : biased = 0
    · rw [if_pos zero]
      exact ⟨by omega, by omega, by omega, by omega, .inl rfl⟩
    · rw [if_neg zero]
      exact ⟨by omega, by omega, by omega, by omega, .inr (by omega)⟩

theorem bits_of_finite (h : magnitude x = .finite m q) :
    x.toBits.toNat % 2 ^ 63 = (q + 1074).toNat * 2 ^ 52 + m ∧ Canonical m q := by
  simpa only [h] using bits_of_magnitude x

/-! ## Signs -/

theorem toNat_packComponents (s : Sign) (e : BitVec 11) (f : BitVec 52) :
    (packComponents .binary64 s e f).toNat =
      s.toBitVec.toNat * 2 ^ 63 + (e.toNat * 2 ^ 52 + f.toNat) := by
  rw [packComponents, BitVec.toNat_append, ← Nat.shiftLeft_add_eq_or_of_lt f.isLt,
    BitVec.toNat_append, ← Nat.shiftLeft_add_eq_or_of_lt e.isLt, Nat.shiftLeft_eq, Nat.shiftLeft_eq]
  omega

/-- The parts of the bits. -/
theorem exists_components (x : Float) : ∃ (s : Sign) (e : BitVec 11) (f : BitVec 52),
    x.toBits.toBitVec = packComponents .binary64 s e f ∧
      x.toBits.toNat % 2 ^ 63 = e.toNat * 2 ^ 52 + f.toNat ∧
      (isNegative x = true → s = .negative) := by
  obtain ⟨s, e, f, bits⟩ : ∃ s e f, packComponents .binary64 s e f = x.toBits.toBitVec :=
    ⟨_, _, _, packComponents_unpackSign_unpackExponent_unpackMantissa _⟩
  have total := (toNat_packComponents s e f).symm.trans (congrArg BitVec.toNat bits)
  have : e.toNat < 2 ^ 11 := e.isLt
  have : f.toNat < 2 ^ 52 := f.isLt
  rw [UInt64.toNat_toBitVec] at total
  refine ⟨s, e, f, bits.symm, ?_, fun h => ?_⟩
  · omega
  · rw [isNegative, decide_eq_true_iff] at h
    cases s with
    | negative => rfl
    | positive =>
      change 0 * 2 ^ 63 + _ = _ at total
      omega

theorem unpack_neg (e : BitVec 11) (f : BitVec 52) :
    (UnpackedFloat.unpack .binary64 (packComponents .binary64 .positive e f)).neg =
      UnpackedFloat.unpack .binary64 (packComponents .binary64 .negative e f) := by
  simp only [UnpackedFloat.unpack, unpackExponent_packComponents, unpackMantissa_packComponents,
    unpackSign_packComponents, Sign.ofBitVec_toBitVec]
  split
  · split <;> rfl
  · split
    · split <;> rfl
    · rfl

/-- A negative double is the opposite of the one without its sign. -/
theorem neg_unsigned (h : isNegative x = true) :
    -Float.ofBits (x.toBits.toNat % 2 ^ 63).toUInt64 = x := by
  obtain ⟨s, e, f, bits, low, negative⟩ := exists_components x
  cases negative h
  have valid : Format.binary64.Valid (packComponents .binary64 .positive e f) := by
    have valid : Format.binary64.Valid (packComponents .binary64 .negative e f) :=
      bits ▸ x.toModel.valid
    refine ⟨fun exponent fraction => ?_⟩
    have nan := valid.eq_packedNaN (by simpa using exponent) (by simpa using fraction)
    have sign := congrArg unpackSign nan
    simp [packedNaN] at sign
    cases sign
  have toBits (c : UInt64) : (-Float.ofBits c).toBits.toBitVec = UnpackedFloat.pack .binary64
      (UnpackedFloat.unpack .binary64 (UnpackedFloat.pack .binary64
        (UnpackedFloat.unpack .binary64 c.toBitVec))).neg := rfl
  have low : (x.toBits.toNat % 2 ^ 63).toUInt64.toBitVec =
      packComponents .binary64 .positive e f := by
    have total := toNat_packComponents .positive e f
    change _ = 0 * 2 ^ 63 + _ at total
    apply BitVec.eq_of_toNat_eq
    rw [low, ← Nat.zero_add (_ + _), ← Nat.zero_mul (2 ^ 63), ← total]
    simp
  apply Float.toBits_inj.1
  apply UInt64.toBitVec_inj.1
  rw [toBits, low, pack_unpack_of_valid valid, unpack_neg, ← bits]
  exact pack_unpack_of_valid x.toModel.valid

/-- A double from its sign and its other bits. -/
theorem negate_unsigned (x : Float) :
    negate (isNegative x) (Float.ofBits (x.toBits.toNat % 2 ^ 63).toUInt64) = x := by
  rw [negate]
  split
  next negative => exact neg_unsigned negative
  next positive =>
    have small : x.toBits.toNat % 2 ^ 63 = x.toBits.toNat := by
      have := x.toBits.toNat_lt
      rw [isNegative, decide_eq_true_iff] at positive
      omega
    rw [small]
    exact (congrArg _ UInt64.ofNat_toNat).trans (Float.ofBits_toBits x)

theorem eq_nan (h : magnitude x = .nan) : x = Float.nan := by
  obtain ⟨s, e, f, bits, low, -⟩ := exists_components x
  have special : 2047 * 2 ^ 52 < x.toBits.toNat % 2 ^ 63 := by
    simpa only [h] using bits_of_magnitude x
  have : e.toNat < 2 ^ 11 := e.isLt
  have : f.toNat < 2 ^ 52 := f.isLt
  have valid : Format.binary64.Valid (packComponents .binary64 s e f) := bits ▸ x.toModel.valid
  apply Float.toBits_inj.1
  apply UInt64.toBitVec_inj.1
  rw [bits]
  apply valid.eq_packedNaN
  · rw [unpackExponent_packComponents]
    apply BitVec.eq_of_toNat_eq
    change _ = 2047
    omega
  · rw [unpackMantissa_packComponents]
    rintro rfl
    change _ = _ + 0 at low
    omega

/-- No negative double is at least a positive one. -/
theorem isNegative_eq_false {y : Float} (pos : (UnpackedFloat.zero .positive).lt y.toModel.unpack)
    (le : y ≤ x) : isNegative x = false := by
  by_contra negative
  obtain ⟨s, e, f, bits, -, sign⟩ := exists_components x
  cases sign (by simpa using negative)
  have le : y.toModel.unpack.le (UnpackedFloat.unpack .binary64 x.toBits.toBitVec) = true :=
    of_decide_eq_true (p := y.toModel ≤ x.toModel) le
  rw [bits] at le
  simp only [UnpackedFloat.unpack, unpackExponent_packComponents, unpackMantissa_packComponents,
    unpackSign_packComponents, Sign.ofBitVec_toBitVec] at le
  generalize y.toModel.unpack = u at pos le
  rcases u with (_ | _) | _ | _ | ⟨_ | _, m, q, h⟩
  · cases pos
  rotate_left
  · cases pos
  · cases pos
  · cases pos
  all_goals
    split at le
    · split at le <;> cases le
    · split at le
      · split at le <;> cases le
      · cases le

/-! ## Values -/

def valueOf (x : Float) : Option ℚ :=
  match magnitude x with
  | .finite m q => some (if isNegative x then -(m * 2 ^ q) else m * 2 ^ q)
  | _ => none

/-- A double is a whole number exactly when `toInt?` gives it. -/
theorem toInt?_eq_some_iff {k : Int} : toInt? x = some k ↔ valueOf x = some (k : ℚ) := by
  cases parts : magnitude x with
  | infinite => simp [toInt?, valueOf, parts]
  | nan => simp [toInt?, valueOf, parts]
  | finite m q =>
    have signed (n : Nat) : ((if isNegative x then -(n : Int) else n : Int) : ℚ) =
        if isNegative x then -(n : ℚ) else n := by split <;> simp
    simp only [toInt?, valueOf, parts]
    by_cases whole : 0 ≤ q
    · have value : (m : ℚ) * 2 ^ q = (m * 2 ^ q.toNat : Nat) := by
        push_cast
        rw [← zpow_natCast, Int.toNat_of_nonneg whole]
      rw [if_pos whole, value, ← signed, Option.some_inj, Option.some_inj, Int.cast_inj]
    · rw [if_neg whole]
      have unit : (0 : ℚ) < (2 ^ (-q).toNat : Nat) := by exact_mod_cast Nat.two_pow_pos _
      have value : (m : ℚ) * 2 ^ q = m / (2 ^ (-q).toNat : Nat) := by
        rw [div_eq_mul_inv, Nat.cast_pow, Nat.cast_ofNat, ← zpow_natCast, ← zpow_neg,
          Int.toNat_of_nonneg (by omega), neg_neg]
      by_cases divides : m % 2 ^ (-q).toNat = 0
      · rw [if_pos divides, value, ← Nat.cast_div (Nat.dvd_of_mod_eq_zero divides) unit.ne',
          ← signed, Option.some_inj, Option.some_inj, Int.cast_inj]
      · rw [if_neg divides, value, Option.some_inj]
        refine ⟨fun none => (by cases none), fun equal => absurd ?_ divides⟩
        -- A multiple of the unit leaves nothing over.
        have size : ((k.natAbs : Nat) : ℚ) = m / (2 ^ (-q).toNat : Nat) := by
          have some : (0 : ℚ) ≤ m / (2 ^ (-q).toNat : Nat) := by positivity
          rw [Nat.cast_natAbs, Int.cast_abs, ← equal]
          split
          · rw [abs_neg, abs_of_nonneg some]
          · rw [abs_of_nonneg some]
        have scaled : k.natAbs * 2 ^ (-q).toNat = m := by
          exact_mod_cast (eq_div_iff unit.ne').1 size
        rw [← scaled]
        exact Nat.mul_mod_left _ _

end TinyScript.Number
