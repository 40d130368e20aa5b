import Mathlib.Tactic.FieldSimp
import Mathlib.Tactic.Ring
import TreeScript.Decimal.Shortest
import TreeScript.Proofs.Numerals.Nearest

set_option autoImplicit false

/- The shortest decimal of a double rounds to that double and to no other. Seventeen digits are
enough: multiples of the last power of ten stand closer to one another than the ends of the interval
of what rounds to the double. The intervals of two doubles share at most an end, and one of the two
does not have it. -/
namespace TreeScript

/-- The mantissa and the exponent of a double: at the least exponent, or with the leading bit. -/
structure Binary64.Normalized (mantissa : Nat) (exponent : Int) : Prop where
  bounded : mantissa < 2 * hiddenBit
  least : leastExponent ≤ exponent
  normal : leastExponent < exponent → hiddenBit ≤ mantissa

namespace Decimal

open Binary64 (Normalized hiddenBit leastExponent)

/-! Intervals -/

section intervals

variable {r : Rounding} {y : ℚ}

theorem Rounding.contains_of_between (low : r.low < y) (high : y < r.high) : r.contains y = true := by
  unfold Rounding.contains
  split <;> simp [low, high, low.le, high.le]

theorem Rounding.between_of_contains (inside : r.contains y = true) :
    r.low ≤ y ∧ y ≤ r.high ∧ ((y = r.low ∨ y = r.high) → r.closed = true) := by
  unfold Rounding.contains at inside
  split at inside
  · next closed =>
      simp only [Bool.and_eq_true, decide_eq_true_eq] at inside
      exact ⟨inside.1, inside.2, fun _ => closed⟩
  · simp only [Bool.and_eq_true, decide_eq_true_eq] at inside
    refine ⟨inside.1.le, inside.2.le, fun isEnd => ?_⟩
    rcases isEnd with isLow | isHigh
    · exact absurd inside.1 (by rw [isLow]; exact lt_irrefl _)
    · exact absurd inside.2 (by rw [isHigh]; exact lt_irrefl _)

end intervals

section doubles

variable {mantissa mantissa' : Nat} {exponent exponent' : Int}

/-- How far the interval of a double reaches down, in quarters of its last place. -/
def gapBelow (mantissa : Nat) (exponent : Int) : ℚ :=
  if mantissa = hiddenBit ∧ leastExponent < exponent then 1 else 2

theorem gapBelow_bounds (mantissa : Nat) (exponent : Int) :
    1 ≤ gapBelow mantissa exponent ∧ gapBelow mantissa exponent ≤ 2 := by
  unfold gapBelow
  split <;> norm_num

theorem low_rounding (mantissa : Nat) (exponent : Int) :
    (rounding mantissa exponent).low =
      (4 * mantissa - gapBelow mantissa exponent) * 2 ^ (exponent - 2) := rfl

theorem high_rounding (mantissa : Nat) (exponent : Int) :
    (rounding mantissa exponent).high = (4 * mantissa + 2) * 2 ^ (exponent - 2) := rfl

theorem value_in_quarters (mantissa : Nat) (exponent : Int) :
    (mantissa : ℚ) * 2 ^ exponent = 4 * mantissa * 2 ^ (exponent - 2) := by
  have quarter : (2 : ℚ) ^ exponent = 4 * 2 ^ (exponent - 2) := by
    rw [zpow_sub₀ two_ne_zero]
    norm_num
    ring
  rw [quarter]
  ring

theorem closed_rounding {mantissa : Nat} {exponent : Int}
    (closed : (rounding mantissa exponent).closed = true) : mantissa % 2 = 0 := by
  simpa [rounding] using closed

/-- A double stands inside its own interval. -/
theorem value_inside (mantissa : Nat) (exponent : Int) :
    (rounding mantissa exponent).low < mantissa * 2 ^ exponent ∧
      (mantissa : ℚ) * 2 ^ exponent < (rounding mantissa exponent).high := by
  have unit : (0 : ℚ) < 2 ^ (exponent - 2) := by positivity
  obtain ⟨atLeast, -⟩ := gapBelow_bounds mantissa exponent
  rw [low_rounding, high_rounding, value_in_quarters]
  exact ⟨mul_lt_mul_of_pos_right (by linarith) unit, mul_lt_mul_of_pos_right (by linarith) unit⟩

/-! Two doubles -/

/-- The interval of the next double begins where that of a double ends, at the earliest. -/
theorem high_le_low (normalized : Normalized mantissa exponent)
    (normalized' : Normalized mantissa' exponent')
    (before : exponent < exponent' ∨ exponent = exponent' ∧ mantissa < mantissa') :
    (rounding mantissa exponent).high ≤ (rounding mantissa' exponent').low ∧
      ((rounding mantissa exponent).high = (rounding mantissa' exponent').low →
        mantissa % 2 = 0 → mantissa' % 2 = 1) := by
  have unit : (0 : ℚ) < 2 ^ (exponent - 2) := by positivity
  obtain ⟨-, atMost⟩ := gapBelow_bounds mantissa' exponent'
  rw [high_rounding, low_rounding]
  rcases before with further | ⟨rfl, greater⟩
  · have leading : hiddenBit ≤ mantissa' := normalized'.normal (lt_of_le_of_lt normalized.least further)
    have doubled : 2 * (2 : ℚ) ^ (exponent - 2) ≤ 2 ^ (exponent' - 2) := by
      calc 2 * (2 : ℚ) ^ (exponent - 2) = 2 ^ (exponent - 2 + 1) := by
            rw [zpow_add_one₀ two_ne_zero, mul_comm]
        _ ≤ 2 ^ (exponent' - 2) := zpow_le_zpow_right₀ one_le_two (by omega)
    have bounded : (mantissa : ℚ) + 1 ≤ 2 * hiddenBit := by exact_mod_cast normalized.bounded
    have large : (1 : ℚ) ≤ hiddenBit := by norm_num [hiddenBit]
    by_cases isLeast : mantissa' = hiddenBit
    · have isPower : gapBelow mantissa' exponent' = 1 :=
        if_pos ⟨isLeast, lt_of_le_of_lt normalized.least further⟩
      rw [isPower, isLeast]
      have start : (8 * (hiddenBit : ℚ) - 2) * 2 ^ (exponent - 2) ≤
          (4 * hiddenBit - 1) * 2 ^ (exponent' - 2) := by
        calc (8 * (hiddenBit : ℚ) - 2) * 2 ^ (exponent - 2)
            = (4 * hiddenBit - 1) * (2 * 2 ^ (exponent - 2)) := by ring
          _ ≤ (4 * hiddenBit - 1) * 2 ^ (exponent' - 2) :=
            mul_le_mul_of_nonneg_left doubled (by linarith)
      refine ⟨(mul_le_mul_of_nonneg_right (by linarith) unit.le).trans start, fun meet even => ?_⟩
      have odd : mantissa + 2 ≤ 2 * hiddenBit := by
        have below := normalized.bounded
        rw [hiddenBit] at below ⊢
        omega
      have apart : (mantissa : ℚ) + 2 ≤ 2 * hiddenBit := by exact_mod_cast odd
      have under : (4 * (mantissa : ℚ) + 2) * 2 ^ (exponent - 2) <
          (8 * hiddenBit - 2) * 2 ^ (exponent - 2) := mul_lt_mul_of_pos_right (by linarith) unit
      exact absurd meet (under.trans_le start).ne
    · have more : (hiddenBit : ℚ) + 1 ≤ mantissa' := by exact_mod_cast (by omega : hiddenBit + 1 ≤ mantissa')
      have start : (8 * (hiddenBit : ℚ) + 4) * 2 ^ (exponent - 2) ≤
          (4 * mantissa' - gapBelow mantissa' exponent') * 2 ^ (exponent' - 2) := by
        calc (8 * (hiddenBit : ℚ) + 4) * 2 ^ (exponent - 2)
            = (4 * hiddenBit + 2) * (2 * 2 ^ (exponent - 2)) := by ring
          _ ≤ (4 * hiddenBit + 2) * 2 ^ (exponent' - 2) :=
            mul_le_mul_of_nonneg_left doubled (by linarith)
          _ ≤ (4 * mantissa' - gapBelow mantissa' exponent') * 2 ^ (exponent' - 2) :=
            mul_le_mul_of_nonneg_right (by linarith) (by positivity)
      have under : (4 * (mantissa : ℚ) + 2) * 2 ^ (exponent - 2) <
          (8 * hiddenBit + 4) * 2 ^ (exponent - 2) := mul_lt_mul_of_pos_right (by linarith) unit
      have below := under.trans_le start
      exact ⟨below.le, fun meet _ => absurd meet below.ne⟩
  · have more : (mantissa : ℚ) + 1 ≤ mantissa' := by exact_mod_cast greater
    refine ⟨mul_le_mul_of_nonneg_right (by linarith) unit.le, fun meet even => ?_⟩
    by_contra notOdd
    have apart : (mantissa : ℚ) + 2 ≤ mantissa' := by exact_mod_cast (by omega : mantissa + 2 ≤ mantissa')
    have under : (4 * (mantissa : ℚ) + 2) * 2 ^ (exponent - 2) <
        (4 * mantissa' - gapBelow mantissa' exponent) * 2 ^ (exponent - 2) :=
      mul_lt_mul_of_pos_right (by linarith) unit
    exact absurd meet under.ne

theorem not_both_before {y : ℚ} (normalized : Normalized mantissa exponent)
    (normalized' : Normalized mantissa' exponent')
    (here : (rounding mantissa exponent).contains y = true)
    (there : (rounding mantissa' exponent').contains y = true) :
    ¬ (exponent < exponent' ∨ exponent = exponent' ∧ mantissa < mantissa') := by
  intro before
  obtain ⟨apart, parity⟩ := high_le_low normalized normalized' before
  obtain ⟨-, atMost, closed⟩ := Rounding.between_of_contains here
  obtain ⟨atLeast, -, closed'⟩ := Rounding.between_of_contains there
  have isHigh : y = (rounding mantissa exponent).high := by linarith
  have isLow : y = (rounding mantissa' exponent').low := by linarith
  have even : mantissa % 2 = 0 := closed_rounding (closed (.inr isHigh))
  have even' : mantissa' % 2 = 0 := closed_rounding (closed' (.inl isLow))
  have odd : mantissa' % 2 = 1 := parity (isHigh.symm.trans isLow) even
  omega

/-- A number rounds to one double only. -/
theorem rounding_unique {y : ℚ} (normalized : Normalized mantissa exponent)
    (normalized' : Normalized mantissa' exponent')
    (here : (rounding mantissa exponent).contains y = true)
    (there : (rounding mantissa' exponent').contains y = true) :
    mantissa = mantissa' ∧ exponent = exponent' := by
  have forth := not_both_before normalized normalized' here there
  have back := not_both_before normalized' normalized there here
  omega

/-! The search -/

/-- The power of ten that the search starts from is not beyond the number. -/
theorem pow_log10_le {x : ℚ} (positive : 0 < x) : (10 : ℚ) ^ log10 x ≤ x := by
  have numerator : 0 < x.num := Rat.num_pos.mpr positive
  have isQuotient : x = (x.num.natAbs : ℚ) / x.den := by
    conv_lhs => rw [← Rat.num_div_den x]
    rw [Nat.cast_natAbs, abs_of_pos numerator]
  unfold log10
  dsimp only
  split
  · have low : 10 ^ (length x.num.natAbs - 1) ≤ x.num.natAbs := pow_length_le (by omega)
    have high : x.den < 10 ^ length x.den := lt_pow_length x.den
    have some : 0 < length x.num.natAbs := length_pos _
    have den_pos : 0 < x.den := x.den_pos
    generalize x.num.natAbs = p at isQuotient low some ⊢
    generalize x.den = q at isQuotient high den_pos ⊢
    have low' : (10 : ℚ) ^ (length p - 1) ≤ (p : ℚ) := by exact_mod_cast low
    have high' : (q : ℚ) ≤ 10 ^ length q := by exact_mod_cast high.le
    have den_pos' : (0 : ℚ) < q := by exact_mod_cast den_pos
    have split : (10 : ℚ) ^ ((length p : Int) - length q - 1) =
        10 ^ (length p - 1) / 10 ^ length q := by
      rw [← zpow_natCast, ← zpow_natCast, ← zpow_sub₀ (by norm_num)]
      congr 1
      omega
    rw [split, isQuotient]
    gcongr
  · next above => exact not_lt.mp above

theorem onGrid_contained {tie : Tie} {r : Rounding} {x : ℚ} {power : Int} {d : Decimal}
    (found : onGrid tie r x power = some d) : r.contains d.toRat = true := by
  unfold onGrid at found
  dsimp only at found
  split at found
  · next low high =>
      cases found
      unfold nearer
      dsimp only
      split
      · exact low
      · split
        · exact high
        · split
          · exact low
          · exact high
  · next low _ =>
      cases found
      exact low
  · next _ high =>
      cases found
      exact high
  · cases found

/-- On a grid that is fine enough one of the two neighbours rounds to the double. -/
theorem onGrid_isSome {tie : Tie} {power : Int} (normalized : Normalized mantissa exponent)
    (positive : 0 < mantissa) (fine : (10 : ℚ) ^ 16 * 10 ^ power ≤ mantissa * 2 ^ exponent) :
    (onGrid tie (rounding mantissa exponent) (mantissa * 2 ^ exponent) power).isSome = true := by
  by_contra absent
  have grid : (0 : ℚ) < 10 ^ power := by positivity
  have unit : (0 : ℚ) < 2 ^ (exponent - 2) := by positivity
  have some : (1 : ℚ) ≤ mantissa := by exact_mod_cast positive
  obtain ⟨aboveLow, belowHigh⟩ := value_inside mantissa exponent
  have quarters := value_in_quarters mantissa exponent
  generalize (mantissa : ℚ) * 2 ^ exponent = x at absent fine aboveLow belowHigh quarters
  have x_pos : 0 < x := by
    rw [quarters]
    positivity
  generalize below_def : (x / 10 ^ power).floor.toNat = below
  have floored : ((below : Int) : ℚ) = ((x / 10 ^ power).floor : ℚ) := by
    have nonneg : 0 ≤ ⌊x / 10 ^ power⌋ := Int.floor_nonneg.mpr (by positivity)
    have same : ((x / 10 ^ power).floor.toNat : Int) = (x / 10 ^ power).floor :=
      Int.toNat_of_nonneg nonneg
    rw [← below_def, same]
  have low : toRat ⟨below, power⟩ ≤ x := by
    rw [toRat, ← le_div_iff₀ grid]
    exact_mod_cast floored ▸ Int.floor_le (x / 10 ^ power)
  have next : x < toRat ⟨below + 1, power⟩ := by
    rw [toRat, Nat.cast_add_one, ← div_lt_iff₀ grid]
    exact_mod_cast floored ▸ Int.lt_floor_add_one (x / 10 ^ power)
  have outside : (rounding mantissa exponent).contains (toRat ⟨below, power⟩) = false ∧
      (rounding mantissa exponent).contains (toRat ⟨below + 1, power⟩) = false := by
    unfold onGrid at absent
    dsimp only at absent
    rw [below_def] at absent
    split at absent
    · exact absurd rfl absent
    · exact absurd rfl absent
    · exact absurd rfl absent
    · next none none' => exact ⟨none, none'⟩
  have lower : toRat ⟨below, power⟩ ≤ (rounding mantissa exponent).low := by
    by_contra above
    have inside := Rounding.contains_of_between (not_le.mp above) (low.trans_lt belowHigh)
    rw [outside.1] at inside
    cases inside
  have upper : (rounding mantissa exponent).high ≤ toRat ⟨below + 1, power⟩ := by
    by_contra under
    have inside := Rounding.contains_of_between (aboveLow.trans next) (not_le.mp under)
    rw [outside.2] at inside
    cases inside
  -- the two neighbours then stand as far apart as the ends of the interval
  have wide : (2 + gapBelow mantissa exponent) * 2 ^ (exponent - 2) ≤ 10 ^ power := by
    rw [low_rounding, toRat] at lower
    rw [high_rounding, toRat] at upper
    push_cast at upper
    linarith
  by_cases isPower : mantissa = hiddenBit ∧ leastExponent < exponent
  · have narrow : gapBelow mantissa exponent = 1 := if_pos isPower
    have isLeading : (mantissa : ℚ) = 4503599627370496 := by
      rw [isPower.1]
      norm_num [hiddenBit]
    rw [narrow] at wide
    rw [quarters, isLeading] at fine
    linarith
  · have full : gapBelow mantissa exponent = 2 := if_neg isPower
    have bounded : (mantissa : ℚ) ≤ 9007199254740992 := by
      have below := normalized.bounded
      rw [hiddenBit] at below
      exact_mod_cast (by omega : mantissa ≤ 9007199254740992)
    rw [full] at wide
    rw [quarters] at fine
    have atMost := mul_le_mul_of_nonneg_right bounded unit.le
    linarith

theorem search_contained {tie : Tie} {r : Rounding} {x : ℚ} {steps : Nat} {power : Int}
    (reached : ∃ k < steps, (onGrid tie r x (power - k)).isSome = true) :
    r.contains (search tie r x steps power).toRat = true := by
  induction steps generalizing power with
  | zero =>
      obtain ⟨k, none, -⟩ := reached
      omega
  | succ steps ih =>
      rw [search]
      split
      · next d found => exact onGrid_contained found
      · next none =>
          obtain ⟨k, inside, isSome⟩ := reached
          cases k with
          | zero =>
              rw [Nat.cast_zero, sub_zero, none] at isSome
              cases isSome
          | succ k =>
              refine ih ⟨k, by omega, ?_⟩
              rwa [show power - 1 - (k : Int) = power - (k + 1 : Nat) by omega]

theorem toRat_trim (n : Nat) (d : Decimal) : (trim n d).toRat = d.toRat := by
  induction n generalizing d with
  | zero => rfl
  | succ n ih =>
      rw [trim]
      split
      · next zero =>
          have whole : d.digits = 10 * (d.digits / 10) := by omega
          have cast : (d.digits : ℚ) = 10 * ((d.digits / 10 : Nat) : ℚ) := by exact_mod_cast whole
          rw [ih, toRat, toRat, cast, zpow_add_one₀ (by norm_num)]
          ring
      · rfl

/-- The shortest decimal of a double rounds to it. -/
theorem shortest_contained (tie : Tie) (normalized : Normalized mantissa exponent) :
    (rounding mantissa exponent).contains (shortest tie mantissa exponent).toRat = true := by
  by_cases isZero : mantissa = 0
  · have unit : (0 : ℚ) < 2 ^ (exponent - 2) := by positivity
    have value : (shortest tie mantissa exponent).toRat = 0 := by simp [shortest, isZero, toRat]
    have notPower : gapBelow mantissa exponent = 2 := by simp [gapBelow, isZero, hiddenBit]
    rw [value]
    apply Rounding.contains_of_between
    · rw [low_rounding, notPower, isZero]
      push_cast
      linarith
    · rw [high_rounding, isZero]
      push_cast
      linarith
  · have positive : 0 < mantissa := Nat.pos_of_ne_zero isZero
    have x_pos : (0 : ℚ) < mantissa * 2 ^ exponent := by
      have some : (0 : ℚ) < mantissa := by exact_mod_cast positive
      positivity
    rw [shortest, if_neg isZero]
    dsimp only
    rw [toRat_trim]
    refine search_contained ⟨16, by omega, onGrid_isSome normalized positive ?_⟩
    calc (10 : ℚ) ^ 16 * 10 ^ (log10 (mantissa * 2 ^ exponent) - (16 : Nat))
        = 10 ^ log10 ((mantissa : ℚ) * 2 ^ exponent) := by
          rw [← zpow_natCast, ← zpow_add₀ (by norm_num)]
          congr 1
          omega
      _ ≤ mantissa * 2 ^ exponent := pow_log10_le x_pos

end doubles
end Decimal
end TreeScript
