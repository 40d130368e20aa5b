import Mathlib.Algebra.Order.Field.Power
import Mathlib.Algebra.Order.Floor.Ring
import Mathlib.Data.Rat.Floor
import Mathlib.Tactic.Linarith
import Mathlib.Tactic.NormNum
import TreeScript.Decimal.Basic

set_option autoImplicit false

/- The double of a decimal. A decimal that is told by its size alone, before its power of ten is
computed, is given the double nearest to it as all others are. -/
namespace TreeScript

namespace Binary64

variable {x : ℚ}

theorem le_roundHalfEven {low : Nat} (atLeast : (low : ℚ) ≤ x) : low ≤ roundHalfEven x := by
  have floor : (low : Int) ≤ x.floor := Int.le_floor.mpr (by exact_mod_cast atLeast)
  have whole : low ≤ x.floor.toNat := by omega
  simp only [roundHalfEven]
  split
  · exact whole
  · split
    · split <;> omega
    · omega

theorem roundHalfEven_of_lt_half (nonneg : 0 ≤ x) (below : x < 1 / 2) : roundHalfEven x = 0 := by
  have floor : x.floor = 0 := Int.floor_eq_zero_iff.mpr ⟨nonneg, by linarith⟩
  have rest : x - (x.floor.toNat : ℚ) < 1 / 2 := by simpa [floor] using below
  simp only [roundHalfEven]
  rw [if_pos rest, floor]
  rfl

/-- The powers of two around a positive rational. -/
theorem pow_log2_le_and_lt (positive : 0 < x) :
    (2 : ℚ) ^ log2 x ≤ x ∧ x < (2 : ℚ) ^ (log2 x + 1) := by
  have numerator : 0 < x.num := Rat.num_pos.mpr positive
  have isQuotient : x = (x.num.natAbs : ℚ) / x.den := by
    conv_lhs => rw [← Rat.num_div_den x]
    rw [Nat.cast_natAbs, abs_of_pos numerator]
  generalize p_def : x.num.natAbs = p at isQuotient
  generalize q_def : x.den = q at isQuotient
  have p_pos : 0 < p := by omega
  have q_pos : 0 < q := by
    rw [← q_def]
    exact x.den_pos
  have p_low : (2 : ℚ) ^ p.log2 ≤ p := by exact_mod_cast Nat.log2_self_le p_pos.ne'
  have p_high : (p : ℚ) < 2 ^ (p.log2 + 1) := by exact_mod_cast Nat.lt_log2_self
  have q_low : (2 : ℚ) ^ q.log2 ≤ q := by exact_mod_cast Nat.log2_self_le q_pos.ne'
  have q_high : (q : ℚ) < 2 ^ (q.log2 + 1) := by exact_mod_cast Nat.lt_log2_self
  have q_rat : (0 : ℚ) < q := by exact_mod_cast q_pos
  have low : (2 : ℚ) ^ ((p.log2 : Int) - q.log2 - 1) ≤ x := by
    have split : (2 : ℚ) ^ ((p.log2 : Int) - q.log2 - 1) = 2 ^ p.log2 / 2 ^ (q.log2 + 1) := by
      rw [sub_sub, zpow_sub₀ two_ne_zero]
      norm_cast
    rw [split, isQuotient]
    gcongr
  have high : x < (2 : ℚ) ^ ((p.log2 : Int) - q.log2 + 1) := by
    have split : (2 : ℚ) ^ ((p.log2 : Int) - q.log2 + 1) = 2 ^ (p.log2 + 1) / 2 ^ q.log2 := by
      rw [sub_add_eq_add_sub, zpow_sub₀ two_ne_zero]
      norm_cast
    rw [split, isQuotient]
    gcongr
  simp only [log2, p_def, q_def]
  split
  · next below => exact ⟨low, by simpa using below⟩
  · next above => exact ⟨not_lt.mp above, high⟩

/-- A rational beyond all doubles is as good as infinite. -/
theorem nearest_of_le (large : (2 : ℚ) ^ 1024 ≤ x) :
    nearest x = Float.ofBits 0x7FF0000000000000 := by
  have positive : 0 < x := lt_of_lt_of_le (by positivity) large
  obtain ⟨low, high⟩ := pow_log2_le_and_lt positive
  have power : 1024 ≤ log2 x := by
    by_contra less
    have atMost : (2 : ℚ) ^ (log2 x + 1) ≤ 2 ^ (1024 : Int) :=
      zpow_le_zpow_right₀ one_le_two (by omega)
    have below : x < 2 ^ 1024 := lt_of_lt_of_le high atMost
    exact absurd large (not_le.mpr below)
  have normal : max (log2 x - 52) leastExponent = log2 x - 52 :=
    max_eq_left (by rw [leastExponent]; omega)
  have mantissa : hiddenBit ≤ roundHalfEven (x / 2 ^ (log2 x - 52)) := by
    apply le_roundHalfEven
    rw [le_div_iff₀ (by positivity)]
    have shifted : (hiddenBit : ℚ) * 2 ^ (log2 x - 52) = 2 ^ log2 x := by
      rw [show (hiddenBit : ℚ) = 2 ^ (52 : Int) by norm_num [hiddenBit], ← zpow_add₀ two_ne_zero]
      congr 1
      omega
    rw [shifted]
    exact low
  simp only [nearest, normal]
  generalize roundHalfEven (x / 2 ^ (log2 x - 52)) = significand at mantissa
  have scaled : 2047 * hiddenBit ≤ (log2 x - 52 + 1075).toNat * hiddenBit :=
    Nat.mul_le_mul_right _ (by omega)
  rw [if_neg (not_le.mpr positive), if_neg (by omega), min_eq_right (by omega)]
  rfl

/-- A rational below half the least double vanishes. -/
theorem nearest_of_lt (positive : 0 < x) (small : x < (2 : ℚ) ^ (leastExponent - 1)) :
    nearest x = Float.ofBits 0 := by
  obtain ⟨low, high⟩ := pow_log2_le_and_lt positive
  have power : log2 x < leastExponent - 1 := by
    by_contra more
    have atLeast : (2 : ℚ) ^ (leastExponent - 1) ≤ 2 ^ log2 x :=
      zpow_le_zpow_right₀ one_le_two (by omega)
    linarith
  have subnormal : max (log2 x - 52) leastExponent = leastExponent := max_eq_right (by omega)
  have mantissa : roundHalfEven (x / 2 ^ leastExponent) = 0 := by
    have unit : (0 : ℚ) < 2 ^ leastExponent := zpow_pos two_pos _
    apply roundHalfEven_of_lt_half (div_pos positive unit).le
    rw [div_lt_iff₀ unit]
    rw [zpow_sub_one₀ two_ne_zero] at small
    linarith
  simp only [nearest, subnormal, mantissa]
  rw [if_neg (not_le.mpr positive), if_pos (by decide)]
  rfl

end Binary64

namespace Decimal

theorem length_pos (n : Nat) : 0 < length n := Nat.length_toDigits_pos

theorem lt_pow_length (n : Nat) : n < 10 ^ length n :=
  (Nat.length_toDigits_le_iff (by omega) (length_pos n)).mp (Nat.le_refl _)

theorem pow_length_le {n : Nat} (positive : 0 < n) : 10 ^ (length n - 1) ≤ n := by
  by_contra less
  have some : 0 < length n - 1 := by
    by_contra none
    have one : length n - 1 = 0 := by omega
    rw [one] at less
    omega
  have shorter : length n ≤ length n - 1 :=
    (Nat.length_toDigits_le_iff (by omega) some).mpr (by omega)
  omega

/-- Decimals with as many digits and the same exponent stand between two powers of ten. -/
theorem pow_le_toRat_and_lt {d : Decimal} (positive : 0 < d.digits) :
    (10 : ℚ) ^ ((length d.digits : Int) + d.exponent - 1) ≤ d.toRat ∧
      d.toRat < (10 : ℚ) ^ ((length d.digits : Int) + d.exponent) := by
  have some : 0 < length d.digits := length_pos d.digits
  have low : (10 : ℚ) ^ (length d.digits - 1) ≤ d.digits := by exact_mod_cast pow_length_le positive
  have high : (d.digits : ℚ) < 10 ^ length d.digits := by exact_mod_cast lt_pow_length d.digits
  constructor
  · calc (10 : ℚ) ^ ((length d.digits : Int) + d.exponent - 1)
        = 10 ^ (length d.digits - 1) * 10 ^ d.exponent := by
          rw [← zpow_natCast, ← zpow_add₀ (by norm_num)]
          congr 1
          omega
      _ ≤ d.digits * 10 ^ d.exponent := by gcongr
  · calc (d.digits : ℚ) * 10 ^ d.exponent
        < 10 ^ length d.digits * 10 ^ d.exponent := by gcongr
      _ = 10 ^ ((length d.digits : Int) + d.exponent) := by
          rw [← zpow_natCast, ← zpow_add₀ (by norm_num)]

theorem two_pow_1024_le_ten_pow : 2 ^ 1024 ≤ 10 ^ 400 := by decide +kernel

theorem two_pow_1075_le_ten_pow : 2 ^ 1075 ≤ 10 ^ 401 := by decide +kernel

/-- The double of a decimal is the one nearest to it, also where its size alone tells it. -/
theorem toFloat_eq (d : Decimal) : d.toFloat = Binary64.nearest d.toRat := by
  rw [toFloat]
  by_cases zero : d.digits = 0
  · have vanishes : d.toRat ≤ 0 := by simp [toRat, zero]
    rw [if_pos zero, Binary64.nearest, if_pos vanishes]
  have positive : 0 < d.digits := Nat.pos_of_ne_zero zero
  obtain ⟨low, high⟩ := pow_le_toRat_and_lt positive
  rw [if_neg zero]
  dsimp only
  split
  · next large =>
      rw [Binary64.nearest_of_le]
      calc (2 : ℚ) ^ 1024 ≤ 10 ^ (400 : Int) := by exact_mod_cast two_pow_1024_le_ten_pow
        _ ≤ 10 ^ ((length d.digits : Int) + d.exponent - 1) :=
            zpow_le_zpow_right₀ (by norm_num) (by omega)
        _ ≤ d.toRat := low
  · split
    · next small =>
        rw [Binary64.nearest_of_lt (lt_of_lt_of_le (by positivity) low)]
        calc d.toRat < 10 ^ ((length d.digits : Int) + d.exponent) := high
          _ ≤ 10 ^ (-(401 : Nat) : Int) := zpow_le_zpow_right₀ (by norm_num) (by omega)
          _ ≤ 2 ^ (-(1075 : Nat) : Int) := by
            rw [zpow_neg, zpow_neg, zpow_natCast, zpow_natCast]
            gcongr
            exact_mod_cast two_pow_1075_le_ten_pow
    · rfl

end Decimal
end TreeScript
