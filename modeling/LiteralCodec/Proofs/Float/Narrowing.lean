import LiteralCodec.FloatFormat.Narrowing
import LiteralCodec.Proofs.Float.Nearest
import LiteralCodec.Proofs.Float.Pattern
import Mathlib.Algebra.Order.Field.Power

/-!
# Narrowing rounds to nearest

Narrowing a double is rounding its value to a half, whatever decides on midpoints. Each step of a
double's exponent below the least normal half drops one bit more of its significand, so what is
rounded is the significand of a place of halves in all cases but the ends, where the value is past
infinity or under half the least half.

Results:
* `narrowMagnitude_rounds`: the magnitude is that of the nearest half.
* `narrow_sign_add`: the sign stays.
-/

namespace LiteralCodec.FloatFormat

/-! ## The ends of the half format -/

theorem value_double_normal {exponent fraction : ℕ} (he : 0 < exponent)
    (hf : fraction < 2 ^ double.fractionBits) :
    double.value (exponent * 2 ^ double.fractionBits + fraction) =
      (1 + fraction / 2 ^ 52) * 2 ^ ((exponent : ℤ) - 1023) :=
  value_normal he hf

/-- A double with a smaller exponent field has a value under the power of two of that field. -/
theorem value_double_lt {exponent fraction bound : ℕ} (hb : exponent < bound)
    (hf : fraction < 2 ^ double.fractionBits) :
    double.value (exponent * 2 ^ double.fractionBits + fraction) < 2 ^ ((bound : ℤ) - 1023) := by
  have hlt :
      exponent * 2 ^ double.fractionBits + fraction < bound * 2 ^ double.fractionBits + 0 := by
    have := Nat.mul_le_mul_right (2 ^ double.fractionBits) (Nat.succ_le_of_lt hb)
    rw [Nat.succ_mul] at this
    omega
  have hv := double.value_strictMono hlt
  rwa [value_double_normal (by omega) (Nat.two_pow_pos _), Nat.cast_zero, zero_div, add_zero,
    one_mul] at hv

theorem value_double_ge {exponent fraction : ℕ} (he : 0 < exponent)
    (hf : fraction < 2 ^ double.fractionBits) :
    2 ^ ((exponent : ℤ) - 1023) ≤
      double.value (exponent * 2 ^ double.fractionBits + fraction) := by
  rw [value_double_normal he hf]
  have hp : (0 : ℚ) < 2 ^ ((exponent : ℤ) - 1023) := by positivity
  have h1 : (0 : ℚ) ≤ fraction / 2 ^ 52 := by positivity
  exact le_mul_of_one_le_left hp.le (by linarith)

/-! ## Between the ends -/

/-- The value of a double, counted by its place among the halves. -/
theorem value_double_place {exponent fraction : ℕ} (he : 0 < exponent)
    (hf : fraction < 2 ^ double.fractionBits) :
    double.value (exponent * 2 ^ double.fractionBits + fraction) =
      ((2 ^ double.fractionBits + fraction : ℕ) : ℚ) / (2 ^ narrowedBits exponent : ℕ) *
        (2 ^ (exponent - leastNormalHalf) / 2 ^ half.unitExponent) := by
  have hw : ((exponent - leastNormalHalf : ℕ) : ℤ) - (narrowedBits exponent : ℤ) - 24 + 52 =
      (exponent : ℤ) - 1023 := by
    have hl : leastNormalHalf = 1009 := rfl
    have hn : narrowedBits exponent = 42 + (leastNormalHalf - exponent) := rfl
    omega
  have h2 : (2 : ℚ) ≠ 0 := by norm_num
  rw [value_double_normal he hf, ← hw, zpow_add₀ h2, zpow_sub₀ h2, zpow_sub₀ h2, zpow_natCast,
    zpow_natCast]
  have hfb : double.fractionBits = 52 := rfl
  have hue : half.unitExponent = 24 := rfl
  rw [hfb, hue]
  push_cast
  field_simp
  ring

theorem isSignificand_narrowed (exponent : ℕ) {fraction : ℕ}
    (hf : fraction < 2 ^ double.fractionBits) :
    half.IsSignificand (exponent - leastNormalHalf)
        ((2 ^ double.fractionBits + fraction) / 2 ^ narrowedBits exponent) ∧
      (2 ^ double.fractionBits + fraction) / 2 ^ narrowedBits exponent <
        2 ^ (half.fractionBits + 1) := by
  have hfb : double.fractionBits = 52 := rfl
  have hfh : half.fractionBits = 10 := rfl
  have hn : narrowedBits exponent = 42 + (leastNormalHalf - exponent) := rfl
  rw [hfb] at hf ⊢
  rw [hfh]
  constructor
  · by_cases hle : exponent ≤ leastNormalHalf
    · exact Or.inl (Nat.sub_eq_zero_of_le hle)
    · right
      rw [hfh, hn, Nat.sub_eq_zero_of_le (by omega), add_zero,
        Nat.le_div_iff_mul_le (Nat.two_pow_pos _)]
      omega
  · rw [hn, Nat.div_lt_iff_lt_mul (Nat.two_pow_pos _), ← pow_add]
    have hle : 2 ^ 53 ≤ 2 ^ (10 + 1 + (42 + (leastNormalHalf - exponent))) :=
      Nat.pow_le_pow_right (by omega) (by omega)
    omega

/-- **The magnitude is that of the nearest half.** -/
theorem narrowMagnitude_rounds (tie : Ordering) {exponent fraction : ℕ}
    (he : exponent < double.exponentFieldMax) (hf : fraction < 2 ^ double.fractionBits) :
    half.Rounds (beside (double.value (exponent * 2 ^ double.fractionBits + fraction)) tie)
      (narrowMagnitude tie exponent fraction) := by
  have hg : greatestNormalHalf = 1038 := rfl
  have hl : leastNormalHalf = 1009 := rfl
  have hn : narrowedBits exponent = 42 + (leastNormalHalf - exponent) := rfl
  have hue : half.unitExponent = 24 := rfl
  -- under this bound the value is less than half the least half
  have hzero : exponent < 988 →
      half.Rounds
        (beside (double.value (exponent * 2 ^ double.fractionBits + fraction)) tie) 0 := by
    intro h
    refine rounds_zero tie ((value_double_lt h hf).trans_le ?_)
    rw [hue]
    norm_num
  unfold narrowMagnitude
  rw [if_neg he.ne]
  split_ifs with h0 h1 h2
  · exact hzero (by omega)
  · refine rounds_infinity tie (le_trans ?_ (value_double_ge (by omega) hf))
    have hb : ((half.bias + 1 : ℕ) : ℤ) ≤ (exponent : ℤ) - 1023 := by
      have : half.bias = 15 := rfl
      omega
    rw [← zpow_natCast]
    exact zpow_le_zpow_right₀ (by norm_num) hb
  · exact hzero (by omega)
  · obtain ⟨hs, hlt⟩ := isSignificand_narrowed exponent hf
    have hr := rounds_place tie (Nat.two_pow_pos (narrowedBits exponent)) hs hlt
    rw [← value_double_place (by omega) hf] at hr
    have hq := roundQuotient_eq_div_or tie (2 ^ double.fractionBits + fraction)
      (2 ^ narrowedBits exponent)
    have hle : (exponent - leastNormalHalf) * 2 ^ half.fractionBits +
        roundQuotient tie (2 ^ double.fractionBits + fraction) (2 ^ narrowedBits exponent) ≤
          half.infinity := by
      have hfh : half.fractionBits = 10 := rfl
      have hi : half.infinity = 31 * 2 ^ 10 := rfl
      rw [hfh] at hlt ⊢
      omega
    rwa [min_eq_left hle] at hr

/-- The sign stays, and the magnitude is that of the nearest half, whatever the sign. -/
theorem narrow_sign_add (tie : Ordering) {m : ℕ} (hm : m < double.infinity) :
    ∃ h, (∀ negative, narrow tie (double.sign negative + m) = half.sign negative + h) ∧
      half.Rounds (beside (double.value m) tie) h := by
  have hpos : 0 < 2 ^ double.fractionBits := Nat.two_pow_pos _
  have he : m / 2 ^ double.fractionBits < double.exponentFieldMax :=
    Nat.div_lt_of_lt_mul (by rwa [mul_comm])
  have hr := narrowMagnitude_rounds tie he (Nat.mod_lt m hpos)
  rw [Nat.div_add_mod'] at hr
  refine ⟨_, fun negative => ?_, hr⟩
  rw [narrow, fields_sign_add negative (hm.trans double.infinity_lt_signBit)]

end LiteralCodec.FloatFormat
