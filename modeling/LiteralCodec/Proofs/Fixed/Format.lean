import LiteralCodec.Fixed.Format
import LiteralCodec.Proofs.Float.Pattern
import Mathlib.Data.Nat.Bitwise

/-!
# Taking patterns apart in fixed widths

Masks and shifts give the same fields as division. Fields that fit their format are put together
without a carry, since they do not overlap: joining their bits is adding them.

Results:
* `fieldsFixed_eq`: taking a pattern apart loses nothing.
* `assembleFixed_eq`: nor does putting together fields that fit.
-/

namespace LiteralCodec.FloatFormat

open Fixed (shiftRight_eq shiftLeft_eq)

variable {f : FloatFormat}

/-! ## Bits that do not overlap -/

theorem two_pow_mul_or {a b k : ℕ} (h : b < 2 ^ k) : a * 2 ^ k ||| b = a * 2 ^ k + b := by
  rw [mul_comm, Nat.two_pow_add_eq_or_of_lt h]

/-- A leading bit is joined to the bits below by adding it. -/
theorem two_pow_or {b k : ℕ} (h : b < 2 ^ k) : 2 ^ k ||| b = 2 ^ k + b := by
  have hor := two_pow_mul_or (a := 1) h
  rwa [one_mul] at hor

theorem sign_or {m : ℕ} (negative : Bool) (h : m < f.signBit) :
    f.sign negative ||| m = f.sign negative + m := by
  unfold sign
  cases negative with
  | false => rw [if_neg Bool.false_ne_true, Nat.zero_or, zero_add]
  | true => rw [if_pos rfl, signBit, two_pow_or h]

theorem signBit_lt (f : FloatFormat) : f.signBit < 2 ^ 64 := by
  cases f <;> decide

/-- An exponent field above a fraction is a magnitude. -/
theorem Fields.Fit.magnitude_lt {x : Fields} (h : x.Fit f) :
    x.exponent * 2 ^ f.fractionBits + x.fraction < f.signBit := by
  obtain ⟨he, hf⟩ := h
  rw [le_fractionMask_iff] at hf
  have hexp : x.exponent + 1 ≤ 2 ^ f.exponentBits := by
    have := Nat.two_pow_pos f.exponentBits
    unfold exponentFieldMax at he
    omega
  have hmul := Nat.mul_le_mul_right (2 ^ f.fractionBits) hexp
  rw [Nat.add_mul, Nat.one_mul, Nat.mul_comm (2 ^ f.exponentBits), ← signBit_eq] at hmul
  omega

/-! ## Fields -/

/-- The highest bit, taken out by a mask. -/
theorem and_signBit (bits : ℕ) : bits &&& f.signBit = f.sign (f.fields bits).negative := by
  unfold fields sign
  rw [signBit, Nat.and_two_pow, Nat.testBit_eq_decide_div_mod_eq]
  by_cases h : bits / 2 ^ (f.width - 1) % 2 = 1 <;> simp [h]

theorem and_signBit_ne_zero (bits : ℕ) : (bits &&& f.signBit != 0) = (f.fields bits).negative := by
  have hpos : f.signBit ≠ 0 := (Nat.two_pow_pos _).ne'
  rw [and_signBit, sign]
  cases (f.fields bits).negative <;> simp [hpos]

/-- **Taking a pattern apart** leaves no width. -/
theorem fieldsFixed_eq (bits : ℕ) : f.fieldsFixed bits = some (f.fields bits) := by
  simp only [fieldsFixed, signBitFixed_eq, fractionBitsFixed_eq, exponentFieldMaxFixed_eq,
    fractionMaskFixed_eq, shiftRight_eq f.fractionBits_lt, Option.bind_eq_bind, Option.bind_some,
    and_signBit_ne_zero, exponentFieldMax, fractionMask, Nat.and_two_pow_sub_one_eq_mod]
  rfl

/-- **Fields that fit are put together** without leaving a width. -/
theorem assembleFixed_eq {x : Fields} (h : x.Fit f) : f.assembleFixed x = some (f.assemble x) := by
  have hmag := h.magnitude_lt
  have hsb := f.signBit_lt
  obtain ⟨he, hf⟩ := h
  have hexp : Fixed.shiftLeft 64 x.exponent f.fractionBits =
      some (x.exponent * 2 ^ f.fractionBits) := shiftLeft_eq f.fractionBits_lt (by omega)
  simp only [assembleFixed, fractionBitsFixed_eq, exponentFieldMaxFixed_eq, fractionMaskFixed_eq,
    signFixed_eq, hexp, Option.bind_eq_bind, Option.bind_some, guard, he, hf, if_true,
    Option.pure_def]
  rw [Nat.or_assoc, two_pow_mul_or (le_fractionMask_iff.mp hf), sign_or _ hmag, assemble,
    Nat.add_assoc]

end LiteralCodec.FloatFormat
