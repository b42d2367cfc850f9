import LiteralCodec.Hexfloat
import LiteralCodec.Proofs.Float.Pattern
import LiteralCodec.Proofs.Float.Value
import Mathlib.Algebra.Order.Field.Power

/-!
# The pattern of a hex float

A fraction and an exponent up to the largest name the number `(1 + fraction) * 2 ^ exponent`. They
are put together to the pattern with that value, normal or subnormal, and refused only if there is
none.

Results:
* `place_fit`: the fields fit the format.
* `place_ok`, `place_error`: the pattern has the value, or none has.
* `place_clamp`: exponents past the clamp are all the same.
-/

namespace LiteralCodec.Hexfloat

variable {f : FloatFormat} {negative : Bool} {exponent : ℤ} {fraction : ℕ}

/-- The number that a fraction and an exponent name. -/
def number (f : FloatFormat) (exponent : ℤ) (fraction : ℕ) : ℚ :=
  (1 + fraction / 2 ^ f.fractionBits) * 2 ^ exponent

theorem number_eq (f : FloatFormat) (exponent : ℤ) (fraction : ℕ) :
    number f exponent fraction =
      ((2 ^ f.fractionBits + fraction : ℕ) : ℚ) * 2 ^ exponent / 2 ^ f.fractionBits := by
  unfold number
  push_cast
  field_simp

theorem place_of_gt (h : f.maxExponent < exponent) :
    place f negative exponent fraction = .ok ⟨negative, f.exponentFieldMax, fraction⟩ := by
  rw [place, if_pos h]

/-- The value of a subnormal pattern, as the significand shifted down. -/
theorem value_shifted {m : ℕ} (dropped : ℕ) (hm : m < 2 ^ f.fractionBits)
    (h : exponent = f.minExponent - dropped) :
    f.value m = number f exponent fraction ↔ m * 2 ^ dropped = 2 ^ f.fractionBits + fraction := by
  have hp : (0 : ℚ) < 2 ^ f.minExponent := by positivity
  rw [FloatFormat.value_subnormal hm, number_eq, h, zpow_sub₀ (by norm_num), zpow_natCast,
    div_left_inj' (by positivity), ← mul_div_assoc, eq_div_iff (by positivity), mul_right_comm,
    mul_left_inj' hp.ne']
  norm_cast

/-- A significand that loses a bit has its leading one in the field. -/
theorem shifted_lt {size dropped : ℕ} (hf : fraction < 2 ^ size) (hd : 1 ≤ dropped) :
    (2 ^ size + fraction) / 2 ^ dropped < 2 ^ size := by
  rw [Nat.div_lt_iff_lt_mul (Nat.two_pow_pos _)]
  calc 2 ^ size + fraction < 2 ^ size * 2 ^ 1 := by omega
    _ ≤ _ := Nat.mul_le_mul_left _ (Nat.pow_le_pow_right (by omega) hd)

/-- **The fields fit the format**, whatever the exponent. -/
theorem place_fit (hf : fraction ≤ f.fractionMask) {x : FloatFormat.Fields}
    (h : place f negative exponent fraction = .ok x) : x.Fit f := by
  have hmax := f.exponentFieldMax_eq
  simp only [place] at h
  split_ifs at h with hgt hmin hd
  · obtain rfl := Except.ok.inj h
    exact ⟨le_rfl, hf⟩
  · obtain rfl := Except.ok.inj h
    have hfield : (exponent + f.bias).toNat ≤ f.exponentFieldMax := by
      unfold FloatFormat.maxExponent at hgt
      omega
    exact ⟨hfield, hf⟩
  · obtain rfl := Except.ok.inj h
    rw [FloatFormat.le_fractionMask_iff] at hf
    exact ⟨Nat.zero_le _, FloatFormat.le_fractionMask_iff.mpr (shifted_lt hf (by omega))⟩

/-- **The pattern has the value** that the fraction and the exponent name. -/
theorem place_ok (he : exponent ≤ f.maxExponent) (hf : fraction < 2 ^ f.fractionBits)
    {x : FloatFormat.Fields} (h : place f negative exponent fraction = .ok x) :
    ∃ m < f.infinity, f.value m = number f exponent fraction ∧
      f.assemble x = f.sign negative + m := by
  have hmax := f.exponentFieldMax_eq
  have hpos := Nat.two_pow_pos f.fractionBits
  simp only [place, if_neg (not_lt.mpr he)] at h
  unfold FloatFormat.maxExponent at he
  split_ifs at h with hmin hd
  · -- normal
    rw [Except.ok.injEq] at h
    unfold FloatFormat.minExponent at hmin
    obtain ⟨k, hk⟩ : ∃ k : ℕ, exponent + f.bias = k := ⟨(exponent + f.bias).toNat, by omega⟩
    have hk' : (exponent + f.bias).toNat = k := by omega
    refine ⟨k * 2 ^ f.fractionBits + fraction, ?_, ?_, ?_⟩
    · have := Nat.mul_le_mul_right (2 ^ f.fractionBits) (show k + 1 ≤ f.exponentFieldMax by omega)
      rw [Nat.add_mul, Nat.one_mul] at this
      unfold FloatFormat.infinity
      omega
    · rw [FloatFormat.value_normal (by omega) hf, number]
      congr 2
      omega
    · rw [← h, FloatFormat.assemble, hk', Nat.add_assoc]
  · -- subnormal
    rw [Except.ok.injEq] at h
    have hdrop : 1 ≤ (f.minExponent - exponent).toNat := by omega
    have hlt := shifted_lt hf hdrop
    refine ⟨(2 ^ f.fractionBits + fraction) / 2 ^ (f.minExponent - exponent).toNat, ?_, ?_, ?_⟩
    · have := Nat.mul_le_mul_right (2 ^ f.fractionBits) (show 1 ≤ f.exponentFieldMax by omega)
      unfold FloatFormat.infinity
      omega
    · rw [value_shifted (f.minExponent - exponent).toNat hlt (by omega)]
      exact Nat.div_mul_cancel (Nat.dvd_of_mod_eq_zero hd.2)
    · rw [← h, FloatFormat.assemble, Nat.zero_mul, Nat.add_zero]

/-- **It is refused if no pattern has the value.** -/
theorem place_error (hf : fraction < 2 ^ f.fractionBits) {e : Error}
    (h : place f negative exponent fraction = .error e) :
    e = .inexact ∧ exponent ≤ f.maxExponent ∧
      ∀ m < f.infinity, f.value m ≠ number f exponent fraction := by
  have hpos := Nat.two_pow_pos f.fractionBits
  simp only [place] at h
  split_ifs at h with hgt hmin hd
  refine ⟨(Except.error.inj h).symm, not_lt.mp hgt, fun m _ hv => hd ?_⟩
  have hdrop : exponent = f.minExponent - (f.minExponent - exponent).toNat := by omega
  -- a number this small is subnormal
  have hm : m < 2 ^ f.fractionBits := by
    have hone := FloatFormat.value_normal (f := f) one_pos hpos
    rw [Nat.one_mul, Nat.add_zero, Nat.cast_zero, zero_div, add_zero, one_mul] at hone
    rw [← f.value_strictMono.lt_iff_lt, hv, hone, number]
    have hfrac : (fraction : ℚ) / 2 ^ f.fractionBits < 1 := by
      rw [div_lt_one (by positivity)]
      exact_mod_cast hf
    calc (1 + fraction / 2 ^ f.fractionBits : ℚ) * 2 ^ exponent < 2 * 2 ^ exponent :=
          mul_lt_mul_of_pos_right (by linarith) (by positivity)
      _ = 2 ^ (exponent + 1) := by rw [zpow_add₀ (by norm_num), zpow_one, mul_comm]
      _ ≤ _ := zpow_le_zpow_right₀ (by norm_num) (by
        unfold FloatFormat.minExponent at hmin
        omega)
  rw [value_shifted _ hm hdrop] at hv
  have hdvd : 2 ^ (f.minExponent - exponent).toNat ∣ 2 ^ f.fractionBits + fraction :=
    ⟨m, by rw [← hv, mul_comm]⟩
  refine ⟨?_, Nat.mod_eq_zero_of_dvd hdvd⟩
  have hle := Nat.le_of_dvd (by omega) hdvd
  have hlt : 2 ^ (f.minExponent - exponent).toNat < 2 ^ (f.fractionBits + 1) := by
    rw [pow_succ]
    omega
  have := (Nat.pow_lt_pow_iff_right (by omega)).mp hlt
  omega

/-- **Exponents past the clamp** are all above the largest, or all too small. -/
theorem place_clamp (negative : Bool) (fraction : ℕ) {clamp : ℕ}
    (hc : f.bias + f.fractionBits < clamp) (size : ℕ) (sign : Bool) :
    place f negative (if sign then -(min size clamp : ℕ) else (min size clamp : ℕ)) fraction =
      place f negative (if sign then -size else size) fraction := by
  by_cases hle : size ≤ clamp
  · rw [min_eq_left hle]
  · rw [min_eq_right (not_le.mp hle).le]
    cases sign with
    | false =>
      rw [if_neg Bool.false_ne_true, if_neg Bool.false_ne_true, place_of_gt, place_of_gt] <;>
        unfold FloatFormat.maxExponent <;> omega
    | true =>
      have hsmall : ∀ n : ℕ, clamp ≤ n → place f negative (-n) fraction = .error .inexact := by
        intro n hn
        have h1 : ¬f.maxExponent < -(n : ℤ) := by unfold FloatFormat.maxExponent; omega
        have h2 : ¬f.minExponent ≤ -(n : ℤ) := by unfold FloatFormat.minExponent; omega
        have h3 : ¬(f.minExponent - -(n : ℤ)).toNat ≤ f.fractionBits := by
          unfold FloatFormat.minExponent
          omega
        simp only [place, if_neg h1, if_neg h2, h3, false_and, if_false]
      rw [if_pos rfl, if_pos rfl, hsmall clamp le_rfl, hsmall size (by omega)]

end LiteralCodec.Hexfloat
