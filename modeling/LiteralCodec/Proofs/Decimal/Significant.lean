import LiteralCodec.Decimal.Significant
import LiteralCodec.Proofs.Numeral
import Mathlib.Algebra.Order.Field.Power
import Mathlib.Data.Nat.Cast.Field

/-!
# The order of decimals is decided by their digits

The significant digits of a decimal and the power above them denote its magnitude, and for decimals
that are not zero their order is the order of the magnitudes.

Results:
* `Decimal.significant_value`: the significant digits denote the magnitude.
* `Significant.compare_eq`: the order on digits is the order of numbers.
* `Decimal.ofQuotient_magnitude`: a quotient that the places hold is written in full.
-/

namespace LiteralCodec

open Numeral (fraction trimLeft trimRight)

/-! ## What significant digits denote -/

/-- The number that a decimal denotes, without its sign. -/
def Decimal.magnitude (d : Decimal) : ℚ := d.coefficient * 10 ^ d.scale

/-- The number that significant digits denote. -/
def Significant.value (a : Significant) : ℚ := fraction 10 a.digits * 10 ^ a.power

/-- **The significant digits denote the magnitude.** -/
theorem Decimal.significant_value (d : Decimal) : d.significant.value = d.magnitude := by
  obtain ⟨j, hj⟩ := Numeral.trimLeft_eq d.digits
  obtain ⟨k, hk⟩ := Numeral.trimRight_eq (trimLeft d.digits)
  have hlj := congrArg List.length hj
  have hlk := congrArg List.length hk
  have hld : d.digits.length = d.integer.length + d.fraction.length := List.length_append
  rw [List.length_append, List.length_replicate] at hlj hlk
  have hc : d.coefficient = 10 ^ k * Numeral.value 10 (trimRight (trimLeft d.digits)) := by
    rw [Decimal.coefficient, ← Numeral.value_trimLeft, ← Numeral.value_append_zeroes, ← hk]
  have hp : d.significant.power =
      (k : ℤ) + d.scale + ((trimRight (trimLeft d.digits)).length : ℕ) := by
    unfold significant scale
    simp only
    omega
  have h10 : (10 : ℚ) ≠ 0 := by norm_num
  unfold Significant.value magnitude Numeral.fraction
  rw [hc, hp, zpow_add₀ h10, zpow_add₀ h10, zpow_natCast, zpow_natCast]
  unfold significant
  push_cast
  field_simp

/-! ## The order -/

/-- One or more decimal digits, with no zero at either end. -/
structure Significant.Normal (a : Significant) : Prop where
  digits_isDigit : ∀ c ∈ a.digits, c.isDigit = true
  digits_ne_nil : a.digits ≠ []
  head_ne : a.digits.head? ≠ some '0'
  last_ne : a.digits.getLast? ≠ some '0'

theorem Decimal.significant_normal {d : Decimal} (hd : ∀ c ∈ d.digits, c.isDigit = true)
    (h0 : d.coefficient ≠ 0) : d.significant.Normal := by
  refine ⟨fun c hc => ?_, fun hn => ?_, fun h => d.significant_head h rfl,
    fun h => d.significant_last h rfl⟩
  · exact hd c (Numeral.mem_of_mem_trimLeft (Numeral.mem_of_mem_trimRight hc))
  · have hv := d.significant_value
    rw [Significant.value, hn, Numeral.fraction_nil, zero_mul, eq_comm, magnitude,
      mul_eq_zero] at hv
    rcases hv with hv | hv
    · exact h0 (by exact_mod_cast hv)
    · exact absurd hv (by positivity)

namespace Significant

variable {a b : Significant}

/-- The first digit is not a zero. -/
theorem Normal.fraction_ge (h : a.Normal) : 1 / 10 ≤ fraction 10 a.digits := by
  cases hs : a.digits with
  | nil => exact absurd hs h.digits_ne_nil
  | cons c s =>
    have hc : c ≠ '0' := fun e => h.head_ne (by rw [hs, e]; rfl)
    have hpos :=
      Numeral.digit_pos_of_ne (h.digits_isDigit c (by rw [hs]; exact List.mem_cons_self)) hc
    have h1 : (1 : ℚ) ≤ Numeral.digit c := by exact_mod_cast hpos
    have h0 := Numeral.fraction_nonneg 10 s
    rw [Numeral.fraction_cons (by omega)]
    exact div_le_div_of_nonneg_right (by linarith) (by norm_num)

theorem Normal.fraction_lt (h : a.Normal) : fraction 10 a.digits < 1 :=
  Numeral.fraction_lt_one (by omega) fun c hc => Numeral.digit_lt_of_isDigit (h.digits_isDigit c hc)

/-- The power is the one just above the number. -/
theorem Normal.value_lt (h : a.Normal) : a.value < 10 ^ a.power := by
  have hp : (0 : ℚ) < 10 ^ a.power := by positivity
  have := mul_lt_mul_of_pos_right h.fraction_lt hp
  rwa [one_mul] at this

theorem Normal.le_value (h : a.Normal) : 10 ^ (a.power - 1) ≤ a.value := by
  have hp : (0 : ℚ) < 10 ^ a.power := by positivity
  have := mul_le_mul_of_nonneg_right h.fraction_ge hp.le
  rw [zpow_sub₀ (by norm_num), zpow_one]
  unfold value
  linarith

/-- A larger power is a larger number. -/
theorem value_lt_of_power_lt (ha : a.Normal) (hb : b.Normal) (h : a.power < b.power) :
    a.value < b.value :=
  calc a.value < 10 ^ a.power := ha.value_lt
    _ ≤ 10 ^ (b.power - 1) := zpow_le_zpow_right₀ (by norm_num) (by omega)
    _ ≤ b.value := hb.le_value

/-- **The order on digits is the order of numbers.** -/
theorem compare_eq (ha : a.Normal) (hb : b.Normal) :
    a.compare b = Ord.compare a.value b.value := by
  unfold compare
  rcases lt_trichotomy a.power b.power with h | h | h
  · rw [compare_lt_iff_lt.mpr h, Ordering.lt_then,
      compare_lt_iff_lt.mpr (value_lt_of_power_lt ha hb h)]
  · have hp : (0 : ℚ) < 10 ^ b.power := by positivity
    rw [compare_eq_iff_eq.mpr h, Ordering.eq_then,
      Numeral.compare_eq_fraction ha.digits_isDigit hb.digits_isDigit ha.last_ne hb.last_ne]
    unfold value
    rw [h]
    rcases lt_trichotomy (fraction 10 a.digits) (fraction 10 b.digits) with h | h | h
    · rw [compare_lt_iff_lt.mpr h, compare_lt_iff_lt.mpr (mul_lt_mul_of_pos_right h hp)]
    · rw [h, compare_eq_iff_eq.mpr rfl, compare_eq_iff_eq.mpr rfl]
    · rw [compare_gt_iff_gt.mpr h, compare_gt_iff_gt.mpr (mul_lt_mul_of_pos_right h hp)]
  · rw [compare_gt_iff_gt.mpr h, Ordering.gt_then,
      compare_gt_iff_gt.mpr (value_lt_of_power_lt hb ha h)]

end Significant

/-! ## Writing out a quotient -/

namespace Decimal

theorem roundQuotient_of_dvd (tie : Ordering) {n d : ℕ} (hd : 0 < d) (h : d ∣ n) :
    roundQuotient tie n d = n / d :=
  roundQuotient_eq_of_lt tie (by rw [Nat.mod_eq_zero_of_dvd h]; exact hd)

theorem length_fraction_ofQuotient {places : ℕ} (hp : 0 < places) (n d : ℕ) :
    (ofQuotient places n d).fraction.length = places := by
  unfold ofQuotient
  have hlt :=
    Nat.mod_lt (roundQuotient .eq (n * 10 ^ places) d) (show 0 < 10 ^ places by positivity)
  have hle := (Nat.length_toDigits_le_iff (b := 10) (by omega) hp).mpr hlt
  simp only [List.length_leftpad, Numeral.ofNat]
  omega

theorem isDigit_of_mem_ofQuotient {places n d : ℕ} {c : Char}
    (h : c ∈ (ofQuotient places n d).digits) : c.isDigit = true := by
  unfold ofQuotient digits at h
  simp only [List.mem_append, Numeral.leftpad_eq, List.mem_replicate] at h
  rcases h with h | ⟨-, rfl⟩ | h
  · exact Numeral.isDigit_of_mem_ofNat h
  · rfl
  · exact Numeral.isDigit_of_mem_ofNat h

theorem coefficient_ofQuotient {places : ℕ} (hp : 0 < places) (n d : ℕ) :
    (ofQuotient places n d).coefficient = roundQuotient .eq (n * 10 ^ places) d := by
  have hl := length_fraction_ofQuotient hp n d
  unfold coefficient digits
  rw [Numeral.value_append, hl]
  unfold ofQuotient
  simp only [Numeral.value_leftpad, Numeral.value_ofNat]
  exact Nat.div_add_mod _ _

theorem scale_ofQuotient {places : ℕ} (hp : 0 < places) (n d : ℕ) :
    (ofQuotient places n d).scale = -(places : ℤ) := by
  rw [scale, length_fraction_ofQuotient hp]
  simp [ofQuotient]

/-- A quotient under a power of ten has no more digits before the point. -/
theorem length_digits_ofQuotient {places j n d : ℕ} (hp : 0 < places) (hj : 0 < j)
    (h : (ofQuotient places n d).magnitude < 10 ^ j) :
    (ofQuotient places n d).digits.length ≤ j + places := by
  rw [magnitude, scale_ofQuotient hp, coefficient_ofQuotient hp, zpow_neg, zpow_natCast,
    ← div_eq_mul_inv, div_lt_iff₀ (by positivity)] at h
  have hlt : roundQuotient .eq (n * 10 ^ places) d < 10 ^ j * 10 ^ places := by exact_mod_cast h
  have hi : (ofQuotient places n d).integer.length ≤ j :=
    (Nat.length_toDigits_le_iff (by omega) hj).mpr
      ((Nat.div_lt_iff_lt_mul (by positivity)).mpr hlt)
  have hf := length_fraction_ofQuotient hp n d
  rw [digits, List.length_append]
  omega

/-- **A quotient that the places hold** is written out in full. -/
theorem ofQuotient_magnitude {places : ℕ} (hp : 0 < places) {n d : ℕ} (hd : 0 < d)
    (h : d ∣ n * 10 ^ places) : (ofQuotient places n d).magnitude = n / d := by
  have hd' : (d : ℚ) ≠ 0 := by exact_mod_cast hd.ne'
  rw [magnitude, coefficient_ofQuotient hp, scale_ofQuotient hp, roundQuotient_of_dvd _ hd h,
    Nat.cast_div h hd', zpow_neg, zpow_natCast]
  push_cast
  field_simp

end Decimal

end LiteralCodec
