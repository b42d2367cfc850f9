import LiteralCodec.FloatFormat
import Mathlib.Tactic.Ring
import Mathlib.Tactic.Linarith

/-!
# Patterns as sign and magnitude

A pattern is a sign bit above a magnitude, and a magnitude is an exponent field above a fraction.

Results:
* `fields_sign_add`, `magnitude_sign_add`: a sign bit and a magnitude are read back.
* `sign_add_magnitude`: every pattern of the format's width is one.
* `fields_mod`: bits above the width are ignored.
-/

namespace LiteralCodec.FloatFormat

variable (f : FloatFormat)

theorem signBit_eq : f.signBit = 2 ^ f.fractionBits * 2 ^ f.exponentBits := by
  cases f <;> rfl

theorem two_pow_width : 2 ^ f.width = 2 * f.signBit := by
  cases f <;> rfl

theorem infinity_lt_signBit : f.infinity < f.signBit := by
  cases f <;> decide

variable {f}

/-- Infinity and the NaNs above it are magnitudes. -/
theorem infinity_add_lt {fraction : ℕ} (h : fraction < 2 ^ f.fractionBits) :
    f.infinity + fraction < f.signBit := by
  have hi : f.infinity + 2 ^ f.fractionBits = f.signBit := by cases f <;> decide
  omega

theorem magnitude_sign_add {m : ℕ} (negative : Bool) (h : m < f.signBit) :
    f.magnitude (f.sign negative + m) = m := by
  unfold magnitude sign
  cases negative
  · rw [if_neg Bool.false_ne_true, zero_add, Nat.mod_eq_of_lt h]
  · rw [if_pos rfl, Nat.add_mod_left, Nat.mod_eq_of_lt h]

theorem fields_sign_add {m : ℕ} (negative : Bool) (h : m < f.signBit) :
    f.fields (f.sign negative + m) =
      ⟨negative, m / 2 ^ f.fractionBits, m % 2 ^ f.fractionBits⟩ := by
  have hpos : 0 < 2 ^ f.fractionBits := Nat.two_pow_pos _
  have hsb : 0 < f.signBit := Nat.two_pow_pos _
  have hexp : m / 2 ^ f.fractionBits < 2 ^ f.exponentBits := by
    rw [Nat.div_lt_iff_lt_mul hpos, mul_comm, ← signBit_eq]
    exact h
  have hneg : (f.sign negative + m) / f.signBit % 2 = if negative then 1 else 0 := by
    cases negative
    · simp [sign, Nat.div_eq_of_lt h]
    · simp [sign, Nat.add_div_left m hsb, Nat.div_eq_of_lt h]
  have hdiv : (f.sign negative + m) / 2 ^ f.fractionBits % 2 ^ f.exponentBits =
      m / 2 ^ f.fractionBits := by
    cases negative
    · simp [sign, Nat.mod_eq_of_lt hexp]
    · simp [sign, signBit_eq, Nat.mul_add_div hpos, Nat.mod_eq_of_lt hexp]
  have hmod : (f.sign negative + m) % 2 ^ f.fractionBits = m % 2 ^ f.fractionBits := by
    cases negative
    · simp [sign]
    · simp [sign, signBit_eq]
  unfold fields
  rw [hdiv, hmod, ← signBit, hneg]
  cases negative <;> rfl

/-- Bits above the width are in no field. -/
theorem fields_mod (bits : ℕ) : f.fields (bits % 2 ^ f.width) = f.fields bits := by
  have hfraction : 2 ^ f.fractionBits ∣ 2 ^ f.width := pow_dvd_pow 2 (by have := f.width_eq; omega)
  have hwidth : 2 ^ f.width = 2 ^ f.fractionBits * (2 ^ f.exponentBits * 2) := by
    rw [two_pow_width, signBit_eq]
    ring
  have hsign : 2 ^ f.width = f.signBit * 2 := by
    rw [two_pow_width, mul_comm]
  unfold fields
  rw [← signBit, Nat.mod_mod_of_dvd _ hfraction, hsign, Nat.mod_mul_right_div_self,
    Nat.mod_mod, ← hsign, hwidth, Nat.mod_mul_right_div_self, Nat.mod_mul_right_mod]

/-- The magnitude of a pattern, by its fields. -/
theorem magnitude_eq (bits : ℕ) :
    f.magnitude bits =
      (f.fields bits).exponent * 2 ^ f.fractionBits + (f.fields bits).fraction := by
  have hd := Nat.div_add_mod (bits % f.signBit) (2 ^ f.fractionBits)
  rw [signBit_eq, Nat.mod_mul_right_mod, Nat.mod_mul_right_div_self, ← signBit_eq] at hd
  rw [magnitude, ← hd, mul_comm]
  rfl

/-- What is not finite has an exponent field of all ones. -/
theorem exponent_eq_max {bits : ℕ} (h : f.infinity ≤ f.magnitude bits) :
    (f.fields bits).exponent = f.exponentFieldMax := by
  have hle : (f.fields bits).exponent ≤ f.exponentFieldMax := (f.fields_fit bits).1
  have hfraction : (f.fields bits).fraction < 2 ^ f.fractionBits := Nat.mod_lt _ (Nat.two_pow_pos _)
  rw [magnitude_eq, infinity] at h
  by_contra hne
  have hlt : (f.fields bits).exponent + 1 ≤ f.exponentFieldMax := by omega
  have hmul := Nat.mul_le_mul_right (2 ^ f.fractionBits) hlt
  rw [Nat.add_mul, Nat.one_mul] at hmul
  omega

/-- **Every pattern of the format's width** is a sign bit above a magnitude. -/
theorem sign_add_magnitude {bits : ℕ} (h : bits < 2 ^ f.width) :
    f.sign (f.fields bits).negative + f.magnitude bits = bits := by
  have hd := Nat.div_add_mod bits f.signBit
  have hsb : 0 < f.signBit := Nat.two_pow_pos _
  rw [two_pow_width] at h
  have hlt : bits / f.signBit < 2 := (Nat.div_lt_iff_lt_mul hsb).mpr h
  have hs : f.sign (f.fields bits).negative = f.signBit * (bits / f.signBit) := by
    unfold fields sign
    rw [← signBit]
    generalize bits / f.signBit = top at hlt
    rcases (by omega : top = 0 ∨ top = 1) with rfl | rfl <;> simp
  rw [hs]
  exact hd

/-- A pattern is put together from its fields. -/
theorem assemble_fields {bits : ℕ} (h : bits < 2 ^ f.width) :
    f.assemble (f.fields bits) = bits := by
  rw [assemble, Nat.add_assoc, ← magnitude_eq, sign_add_magnitude h]

theorem sign_add_lt {m : ℕ} (negative : Bool) (h : m < f.signBit) :
    f.sign negative + m < 2 ^ f.width := by
  rw [two_pow_width]
  unfold sign
  split_ifs <;> omega

end LiteralCodec.FloatFormat
