import LiteralCodec.Hexfloat
import LiteralCodec.Proofs.Numeral

/-!
# The fraction of a hex float

The digits behind the point stand for a proper fraction, and the field of the format for that
fraction times a power of two. Reading the digits succeeds exactly if the product is an integer, and
then gives it. The limit on the number of digits refuses nothing that would fit: the last digit kept
is no zero, so digits past the limit have a bit set under the field.

Results:
* `justify_eq_ok`: moving bits to the upper end of a field is an exact quotient.
* `fraction_eq_ok`, `fraction_eq_error`: which digits name a fraction.
-/

namespace LiteralCodec.Hexfloat

open Numeral (trimRight)

/-! ## Moving bits -/

/-- **Moving bits is an exact quotient.** -/
theorem justify_eq_ok {size given bits n : ℕ} :
    justify size given bits = .ok n ↔ n * 2 ^ given = bits * 2 ^ size := by
  unfold justify
  by_cases hle : given ≤ size
  · obtain ⟨k, rfl⟩ := Nat.exists_eq_add_of_le hle
    have hp : bits * 2 ^ (given + k) = bits * 2 ^ k * 2 ^ given := by ring
    rw [if_pos hle, Except.ok.injEq, Nat.add_sub_cancel_left, hp,
      Nat.mul_left_inj (Nat.two_pow_pos given).ne']
    exact eq_comm
  · obtain ⟨k, rfl⟩ := Nat.exists_eq_add_of_le (not_le.mp hle).le
    have hp : n * 2 ^ (size + k) = n * 2 ^ k * 2 ^ size := by ring
    rw [if_neg hle, Nat.add_sub_cancel_left, hp, Nat.mul_left_inj (Nat.two_pow_pos size).ne']
    split_ifs with hd
    · rw [Except.ok.injEq]
      exact (Nat.div_eq_iff_eq_mul_left (Nat.two_pow_pos k) (Nat.dvd_of_mod_eq_zero hd)).trans
        eq_comm
    · refine ⟨fun h => (by cases h), fun h => absurd ?_ hd⟩
      rw [← h, Nat.mul_mod_left]

theorem justify_eq_error {size given bits : ℕ} {e : Error}
    (h : justify size given bits = .error e) :
    e = .fractionTooLong := by
  unfold justify at h
  split_ifs at h
  exact (Except.error.inj h).symm

/-! ## Digits -/

/-- A hex digit is four bits. -/
theorem two_pow_four_mul (n : ℕ) : 2 ^ (4 * n) = 16 ^ n := by
  rw [pow_mul]
  rfl

theorem mul_pow_trimRight {digits : List Char} {F b : ℕ} :
    F * 16 ^ digits.length = Numeral.value 16 digits * b ↔
      F * 16 ^ (trimRight digits).length = Numeral.value 16 (trimRight digits) * b := by
  obtain ⟨k, hk⟩ := Numeral.trimRight_eq digits
  have hl : digits.length = k + (trimRight digits).length := by
    have := congrArg List.length hk
    rw [List.length_append, List.length_replicate] at this
    omega
  have hv : Numeral.value 16 digits = 16 ^ k * Numeral.value 16 (trimRight digits) := by
    conv_lhs => rw [hk, Numeral.value_append_zeroes]
  have hp : 0 < 16 ^ k := by positivity
  rw [hl, hv, pow_add, mul_assoc (16 ^ k), mul_left_comm]
  exact Nat.mul_right_inj hp.ne'

/-- The last digit is in sight of the field, or a bit of it is lost. -/
theorem length_le_fractionDigits {f : FloatFormat} {kept : List Char} {F : ℕ}
    (hd : ∀ c ∈ kept, c.isHexDigit = true) (hl : kept.getLast? ≠ some '0')
    (h : F * 16 ^ kept.length = Numeral.value 16 kept * 2 ^ f.fractionBits) :
    kept.length ≤ fractionDigits f := by
  by_contra hlt
  have hne : kept ≠ [] := by
    rintro rfl
    exact hlt (Nat.zero_le _)
  have hlast := List.dropLast_append_getLast hne
  have hlen : kept.length = kept.dropLast.length + 1 := by
    rw [List.length_dropLast]
    have := List.length_pos_iff.mpr hne
    omega
  obtain ⟨k, hk⟩ : ∃ k, 4 * kept.dropLast.length = f.fractionBits + k :=
    Nat.exists_eq_add_of_le (by unfold fractionDigits at hlt; omega)
  have hv : Numeral.value 16 kept =
      16 * Numeral.value 16 kept.dropLast + Numeral.digit (kept.getLast hne) := by
    conv_lhs => rw [← hlast]
    rw [Numeral.value_append, Numeral.value_singleton, List.length_singleton, pow_one]
  have hp : 16 ^ kept.length = 16 * 2 ^ k * 2 ^ f.fractionBits := by
    rw [hlen, pow_succ, ← two_pow_four_mul, hk, pow_add]
    ring
  rw [hp, ← mul_assoc, Nat.mul_left_inj (Nat.two_pow_pos _).ne'] at h
  have hlt16 := Numeral.digit_lt_of_isHexDigit (hd _ (List.getLast_mem hne))
  have h0 : Numeral.digit (kept.getLast hne) = 0 := by
    have : Numeral.value 16 kept = 16 * (F * 2 ^ k) := by rw [← h]; ring
    omega
  refine hl ?_
  rw [List.getLast?_eq_some_getLast hne,
    Numeral.eq_zero_of_digit_eq_zero h0]

/-- **Digits name a fraction** if the fraction is an integer in units of the field. -/
theorem fraction_eq_ok {f : FloatFormat} {digits : List Char} {F : ℕ}
    (hd : ∀ c ∈ digits, c.isHexDigit = true) :
    fraction f digits = .ok F ↔ (F : ℚ) = Numeral.fraction 16 digits * 2 ^ f.fractionBits := by
  have hq : (F : ℚ) = Numeral.fraction 16 digits * 2 ^ f.fractionBits ↔
      F * 16 ^ digits.length = Numeral.value 16 digits * 2 ^ f.fractionBits := by
    rw [Numeral.fraction, div_mul_eq_mul_div, eq_div_iff (by positivity)]
    norm_cast
  have hall : digits.all Char.isHexDigit = true := List.all_eq_true.mpr hd
  rw [hq, mul_pow_trimRight]
  simp only [fraction, hall, if_true]
  by_cases hle : (trimRight digits).length ≤ fractionDigits f
  · rw [if_pos hle, justify_eq_ok, two_pow_four_mul]
  · rw [if_neg hle]
    refine ⟨fun h => (by cases h), fun h => absurd ?_ hle⟩
    exact length_le_fractionDigits (fun c hc => hd c (Numeral.mem_of_mem_trimRight hc))
      (Numeral.getLast?_trimRight digits) h

theorem fraction_eq_error {f : FloatFormat} {digits : List Char} {e : Error}
    (h : fraction f digits = .error e) : e = .fractionTooLong ∨ e = .invalidFractionDigit := by
  simp only [fraction] at h
  split_ifs at h
  · exact Or.inl (justify_eq_error h)
  · exact Or.inl (Except.error.inj h).symm
  · exact Or.inr (Except.error.inj h).symm

end LiteralCodec.Hexfloat
