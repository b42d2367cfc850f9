import LiteralCodec.Proofs.Decimal.Pattern
import LiteralCodec.Proofs.Scientific.Shortest

/-!
# The precision of a decimal

The precision of a decimal is the number of its significant digits, from the first digit that is not
zero to the last. It is the least size of a coefficient with which the decimal can be written as a
multiple of a power of ten, since a coefficient without zeroes at its end divides all the others.

A decimal of low precision is read as the nearest number whatever its length: what its length may
make impossible is to tell it from a midpoint that it is next to, and it is next to none.

Results:
* `exists_coefficient`: a decimal of some precision as a multiple of a power of ten.
* `precision_le`: a multiple of a power of ten has no more precision than its coefficient has
  digits.
* `settled_of_short`: a decimal of low precision is read as the nearest half.
-/

namespace LiteralCodec

open FloatFormat (half single double)

/-! ## Coefficients -/

namespace Significant

variable {a : Significant}

/-- The significant digits as one integer. -/
def coefficient (a : Significant) : ℕ := Numeral.value 10 a.digits

theorem value_eq (a : Significant) :
    a.value = (a.coefficient : ℚ) * 10 ^ (a.power - a.digits.length) := by
  rw [value, coefficient, Numeral.fraction, zpow_sub₀ (by norm_num), zpow_natCast]
  push_cast
  field_simp

/-- The integer has no zero at its end. -/
theorem Normal.not_dvd (h : a.Normal) : ¬10 ∣ a.coefficient := by
  have hlast := List.dropLast_append_getLast h.digits_ne_nil
  have hd := h.digits_isDigit _ (List.getLast_mem h.digits_ne_nil)
  have hne : a.digits.getLast h.digits_ne_nil ≠ '0' := fun e =>
    h.last_ne (by rw [List.getLast?_eq_some_getLast h.digits_ne_nil, e])
  have hpos := Numeral.digit_pos_of_ne hd hne
  have hlt := Numeral.digit_lt_of_isDigit hd
  rw [coefficient, ← hlast, Numeral.value_append, Numeral.value_singleton, List.length_singleton]
  omega

/-- It has as many digits as are significant. -/
theorem Normal.pow_le (h : a.Normal) {j : ℕ} (hj : j < a.digits.length) :
    10 ^ j ≤ a.coefficient := by
  have hge := h.fraction_ge
  obtain ⟨i, hi⟩ := Nat.exists_eq_add_of_lt hj
  have hone : (1 : ℚ) ≤ 10 ^ i := one_le_pow₀ (by norm_num)
  have hpow : (0 : ℚ) < 10 ^ j := by positivity
  have hlen : (10 : ℚ) ^ a.digits.length = 10 * (10 ^ j * 10 ^ i) := by
    rw [hi, pow_succ, pow_add]
    ring
  rw [Numeral.fraction, Nat.cast_ofNat, le_div_iff₀ (by positivity), hlen] at hge
  have hle : (10 : ℚ) ^ j ≤ a.coefficient :=
    calc (10 : ℚ) ^ j ≤ 10 ^ j * 10 ^ i := le_mul_of_one_le_right hpow.le hone
      _ = 1 / 10 * (10 * (10 ^ j * 10 ^ i)) := by ring
      _ ≤ a.coefficient := hge
  exact_mod_cast hle

/-- **Significant digits are as few as can be.** -/
theorem Normal.length_le (h : a.Normal) {c j : ℕ} {s : ℤ} (hj : 0 < j) (hc : c ≤ 10 ^ j)
    (hv : a.value = c * 10 ^ s) : a.digits.length ≤ j := by
  have h10 : (10 : ℚ) ≠ 0 := by norm_num
  obtain ⟨p, hp⟩ : ∃ p, p = a.power - a.digits.length := ⟨_, rfl⟩
  rw [value_eq, ← hp] at hv
  -- the coefficient is a multiple of the integer, since that has no zero to give away
  obtain ⟨t, ht⟩ : ∃ t : ℕ, c = a.coefficient * 10 ^ t := by
    rcases le_or_gt s p with hle | hlt
    · obtain ⟨t, ht⟩ := Int.eq_ofNat_of_zero_le (sub_nonneg.mpr hle)
      refine ⟨t, ?_⟩
      obtain rfl : p = t + s := by omega
      rw [zpow_add₀ h10, ← mul_assoc, zpow_natCast] at hv
      exact_mod_cast (mul_right_cancel₀ (zpow_ne_zero s h10) hv).symm
    · obtain ⟨t, ht⟩ := Int.eq_ofNat_of_zero_le (show 0 ≤ s - p - 1 by omega)
      obtain rfl : s = (t + 1 : ℕ) + p := by omega
      rw [zpow_add₀ h10, ← mul_assoc, zpow_natCast] at hv
      have hnat : a.coefficient = c * 10 ^ (t + 1) := by
        exact_mod_cast mul_right_cancel₀ (zpow_ne_zero p h10) hv
      refine absurd ?_ h.not_dvd
      rw [hnat, pow_succ, ← mul_assoc]
      exact Nat.dvd_mul_left _ _
  by_contra hlt
  have hlo := h.pow_le (not_le.mp hlt)
  have hle : a.coefficient ≤ c := ht ▸ Nat.le_mul_of_pos_right _ (by positivity)
  have heq : a.coefficient = 10 ^ j := le_antisymm (hle.trans hc) hlo
  exact h.not_dvd (heq ▸ dvd_pow_self 10 hj.ne')

end Significant

namespace Decimal

variable {d : Decimal}

/-- The number of significant digits; zeroes at either end do not count. -/
def precision (d : Decimal) : ℕ := d.significant.digits.length

/-- **A decimal is a multiple of a power of ten** with as many digits as it has precision. -/
theorem exists_coefficient (hd : ∀ c ∈ d.digits, c.isDigit = true) :
    ∃ (c : ℕ) (s : ℤ), c < 10 ^ d.precision ∧ d.magnitude = c * 10 ^ s := by
  refine ⟨d.significant.coefficient, d.significant.power - d.significant.digits.length,
    Numeral.value_lt fun c hc => ?_, ?_⟩
  · have hmem := Numeral.mem_of_mem_trimLeft (Numeral.mem_of_mem_trimRight hc)
    exact Numeral.digit_lt_of_isDigit (hd c hmem)
  · rw [← significant_value, Significant.value_eq]

/-- **A multiple of a power of ten** has no more precision than its coefficient has digits. -/
theorem precision_le (hd : ∀ c ∈ d.digits, c.isDigit = true) {c j : ℕ} {s : ℤ} (hj : 0 < j)
    (hc : c ≤ 10 ^ j) (hv : d.magnitude = c * 10 ^ s) (h0 : d.magnitude ≠ 0) :
    d.precision ≤ j := by
  have hcoefficient : d.coefficient ≠ 0 := by
    intro h
    rw [magnitude, h, Nat.cast_zero, zero_mul] at h0
    exact h0 rfl
  have hvalue : d.significant.value = c * 10 ^ s := by
    rw [significant_value, hv]
  exact (significant_normal hd hcoefficient).length_le hj hc hvalue

/-! ## Reading -/

/-- **A decimal of low precision is settled**, however long it is: next to a midpoint, it is one. -/
theorem settled_of_short (hd : ∀ c ∈ d.digits, c.isDigit = true) {c : ℕ} {s : ℤ} (hc : c < 2 ^ 27)
    (hv : d.magnitude = c * 10 ^ s) : d.Settled := by
  intro k hk hmid
  have hr := d.toDouble_rounds
  have heq : d.magnitude = half.midpoint k := by
    rw [hv]
    exact FloatFormat.eq_of_midpoint hc (hv ▸ hr) hk hmid
  rw [compareToTie_self hd hr hk hmid heq rfl, heq, eq_comm, compare_eq_iff_eq]

end Decimal

end LiteralCodec
