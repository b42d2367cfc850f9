import LiteralCodec.FloatFormat
import Mathlib.Algebra.Order.Field.Basic
import Mathlib.Data.Rat.Lemmas
import Mathlib.Order.Monotone.Basic
import Mathlib.Tactic.FieldSimp
import Mathlib.Tactic.Linarith
import Mathlib.Tactic.Positivity
import Mathlib.Tactic.Ring

/-!
# The values of magnitudes

A magnitude is a **place**: `k` steps of the exponent and a significand `s`, written `k * 2 ^ fb +
s` where `fb` is the size of the fraction. In a place the significand has its leading bit, unless
`k` is zero, and its value is `s * 2 ^ k` least subnormals. The significand may also be the one past
the largest: the carry moves to the next step by itself, so the same formula gives the value of the
next magnitude, and infinity gets the power of two that follows the largest finite number.

Results:
* `units_place`: the value of a place.
* `exists_place`: every magnitude is a place.
* `units_strictMono`: larger magnitudes have larger values.
* `exists_units`: every significand that fits gives a value, in every place.
* `midpoint_place`: what lies halfway between a place and the next magnitude.
* `value_pred`: the value of the magnitude before a place.
* `value_normal`, `value_subnormal`: values by the fields of a pattern.
-/

namespace LiteralCodec.FloatFormat

variable (f : FloatFormat)

/-! ## Places -/

theorem fractionBits_pos : 0 < f.fractionBits := by
  cases f <;> decide

/-- A significand is one of a place: it has its leading bit, unless no step is taken. -/
def IsSignificand (k s : ℕ) : Prop := k = 0 ∨ 2 ^ f.fractionBits ≤ s

variable {f}

/-- **The value of a place**, the carry into the next step included. -/
theorem units_place {k s : ℕ} (hs : f.IsSignificand k s) (hle : s ≤ 2 ^ (f.fractionBits + 1)) :
    f.units (k * 2 ^ f.fractionBits + s) = s * 2 ^ k := by
  have hpos : 0 < 2 ^ f.fractionBits := Nat.two_pow_pos _
  rw [pow_succ] at hle
  by_cases hlt : s < 2 ^ f.fractionBits
  · -- subnormal: only with no step taken
    rcases hs with rfl | hs
    · simp only [units, zero_mul, zero_add, Nat.div_eq_of_lt hlt, if_true, pow_zero, mul_one]
      exact Nat.mod_eq_of_lt hlt
    · omega
  · obtain ⟨r, rfl⟩ : ∃ r, s = 2 ^ f.fractionBits + r := ⟨s - 2 ^ f.fractionBits, by omega⟩
    by_cases hr : r < 2 ^ f.fractionBits
    · have e : k * 2 ^ f.fractionBits + (2 ^ f.fractionBits + r) =
          r + 2 ^ f.fractionBits * (k + 1) := by ring
      rw [e]
      simp only [units, Nat.add_mul_div_left _ _ hpos, Nat.div_eq_of_lt hr,
        Nat.add_mul_mod_self_left, Nat.mod_eq_of_lt hr, zero_add, Nat.add_one_ne_zero, if_false,
        Nat.add_sub_cancel]
    · -- the carry: the next step with fraction zero
      have hr' : r = 2 ^ f.fractionBits := by omega
      have e :
          k * 2 ^ f.fractionBits + (2 ^ f.fractionBits + r) = 2 ^ f.fractionBits * (k + 2) := by
        rw [hr']; ring
      rw [e]
      simp only [units, Nat.mul_div_cancel_left _ hpos, Nat.mul_mod_right, add_zero,
        Nat.add_eq_zero_iff, OfNat.ofNat_ne_zero, and_false, if_false, hr']
      rw [show k + 2 - 1 = k + 1 by omega]
      ring

variable (f)

/-- Every magnitude is a place, with a significand that need not carry. -/
theorem exists_place (m : ℕ) :
    ∃ k s, m = k * 2 ^ f.fractionBits + s ∧ f.IsSignificand k s ∧ s < 2 ^ (f.fractionBits + 1) := by
  have hpos : 0 < 2 ^ f.fractionBits := Nat.two_pow_pos _
  have hm := Nat.div_add_mod m (2 ^ f.fractionBits)
  have hlt := Nat.mod_lt m hpos
  by_cases h0 : m / 2 ^ f.fractionBits = 0
  · refine ⟨0, m, by simp, Or.inl rfl, ?_⟩
    rw [h0, mul_zero, zero_add] at hm
    rw [pow_succ]
    omega
  · obtain ⟨k, hk⟩ := Nat.exists_eq_succ_of_ne_zero h0
    rw [hk] at hm
    refine ⟨k, 2 ^ f.fractionBits + m % 2 ^ f.fractionBits, ?_, Or.inr (by omega), ?_⟩
    · rw [← hm, Nat.succ_eq_add_one, Nat.add_mod, Nat.mul_mod_right, zero_add, Nat.mod_mod,
        Nat.mod_mod, mul_add, mul_one, mul_comm k, add_assoc]
    · rw [pow_succ]
      omega

theorem units_zero : f.units 0 = 0 := by
  simp [units]

/-- **Larger magnitudes have larger values.** -/
theorem units_strictMono : StrictMono f.units := by
  refine strictMono_nat_of_lt_succ fun m => ?_
  obtain ⟨k, s, rfl, hs, hlt⟩ := f.exists_place m
  have hs' : f.IsSignificand k (s + 1) := hs.imp_right fun h => by omega
  rw [add_assoc, units_place hs hlt.le, units_place hs' (by omega)]
  exact Nat.mul_lt_mul_of_pos_right (Nat.lt_succ_self s) (Nat.two_pow_pos k)

/-- Every significand that fits, in every place, is the value of a magnitude. -/
theorem exists_units {s : ℕ} (h : s < 2 ^ (f.fractionBits + 1)) (k : ℕ) :
    ∃ m, f.units m = s * 2 ^ k := by
  induction k generalizing s with
  | zero => exact ⟨0 * 2 ^ f.fractionBits + s, units_place (Or.inl rfl) h.le⟩
  | succ k ih =>
    by_cases hs : 2 ^ f.fractionBits ≤ s
    · exact ⟨(k + 1) * 2 ^ f.fractionBits + s, units_place (Or.inr hs) h.le⟩
    · -- without its leading bit the significand moves down a place
      obtain ⟨m, hm⟩ := ih (s := 2 * s) (by rw [pow_succ]; omega)
      exact ⟨m, by rw [hm, pow_succ]; ring⟩

/-! ## Values and midpoints -/

/-- The value of a magnitude. Infinity counts as the power of two after the largest finite number,
which is what a number has to come near to be rounded to infinity. -/
def value (m : ℕ) : ℚ := f.units m / 2 ^ f.unitExponent

/-- What lies halfway between a magnitude and the next one. -/
def midpoint (m : ℕ) : ℚ := (f.value m + f.value (m + 1)) / 2

theorem value_zero : f.value 0 = 0 := by
  simp [value, units_zero]

theorem value_strictMono : StrictMono f.value := fun a b h => by
  have hu : (f.units a : ℚ) < f.units b := by exact_mod_cast f.units_strictMono h
  exact div_lt_div_of_pos_right hu (by positivity)

theorem value_lt_midpoint (m : ℕ) : f.value m < f.midpoint m := by
  have := f.value_strictMono (Nat.lt_succ_self m)
  unfold midpoint
  linarith

theorem midpoint_lt_value (m : ℕ) : f.midpoint m < f.value (m + 1) := by
  have := f.value_strictMono (Nat.lt_succ_self m)
  unfold midpoint
  linarith

theorem midpoint_strictMono : StrictMono f.midpoint :=
  strictMono_nat_of_lt_succ fun m => (f.midpoint_lt_value m).trans (f.value_lt_midpoint (m + 1))

variable {f}

theorem value_place {k s : ℕ} (hs : f.IsSignificand k s) (hle : s ≤ 2 ^ (f.fractionBits + 1)) :
    f.value (k * 2 ^ f.fractionBits + s) = s * 2 ^ k / 2 ^ f.unitExponent := by
  unfold value
  rw [units_place hs hle]
  push_cast
  rfl

/-- Within a place the midpoint is half a significand on. -/
theorem midpoint_place {k s : ℕ} (hs : f.IsSignificand k s) (hlt : s < 2 ^ (f.fractionBits + 1)) :
    f.midpoint (k * 2 ^ f.fractionBits + s) = (s + 1 / 2) * 2 ^ k / 2 ^ f.unitExponent := by
  have hs' : f.IsSignificand k (s + 1) := hs.imp_right fun h => by omega
  unfold midpoint
  rw [add_assoc, value_place hs hlt.le, value_place hs' (by omega)]
  push_cast
  ring

/-- **The step down from a magnitude** is a step of its place, or half of one under the least
significand of a place. -/
theorem value_pred {k s : ℕ} (hs : f.IsSignificand k (s + 1))
    (hlt : s + 1 < 2 ^ (f.fractionBits + 1)) :
    f.value (k * 2 ^ f.fractionBits + s) = s * 2 ^ k / 2 ^ f.unitExponent ∨
      (0 < k ∧ s + 1 = 2 ^ f.fractionBits) ∧
        f.value (k * 2 ^ f.fractionBits + s) = (s + 1 / 2) * 2 ^ k / 2 ^ f.unitExponent := by
  by_cases hs' : f.IsSignificand k s
  · exact .inl (value_place hs' (by omega))
  · simp only [IsSignificand, not_or, not_le] at hs'
    obtain ⟨j, rfl⟩ := Nat.exists_eq_succ_of_ne_zero hs'.1
    have hse : s + 1 = 2 ^ f.fractionBits := by
      rcases hs with h | h <;> omega
    have e : (j + 1) * 2 ^ f.fractionBits + s = j * 2 ^ f.fractionBits + (2 * s + 1) := by
      rw [← hse]
      ring
    have hsig : f.IsSignificand j (2 * s + 1) := Or.inr (by omega)
    refine .inr ⟨⟨Nat.succ_pos j, hse⟩, ?_⟩
    rw [Nat.succ_eq_add_one, e, value_place hsig (by rw [pow_succ]; omega), pow_succ]
    push_cast
    ring

/-- The step down is no larger than the steps of the place. -/
theorem le_value_pred {k s : ℕ} (hs : f.IsSignificand k (s + 1))
    (hlt : s + 1 < 2 ^ (f.fractionBits + 1)) :
    s * 2 ^ k / 2 ^ f.unitExponent ≤ f.value (k * 2 ^ f.fractionBits + s) := by
  have hp : (0 : ℚ) < 2 ^ k / 2 ^ f.unitExponent := by positivity
  rcases value_pred hs hlt with h | ⟨-, h⟩ <;> rw [h, mul_div_assoc]
  rw [mul_div_assoc]
  linarith

/-! ## Values by fields -/

/-- A pattern with exponent field zero stores its significand as it is. -/
theorem value_subnormal {fraction : ℕ} (h : fraction < 2 ^ f.fractionBits) :
    f.value fraction = fraction * 2 ^ f.minExponent / 2 ^ f.fractionBits := by
  have hle : fraction ≤ 2 ^ (f.fractionBits + 1) := by rw [pow_succ]; omega
  have hv := value_place (f := f) (k := 0) (Or.inl rfl) hle
  rw [zero_mul, zero_add, pow_zero, mul_one] at hv
  have hbias : 1 ≤ f.bias := by cases f <;> decide
  have he : f.minExponent = -((f.bias - 1 : ℕ) : ℤ) := by
    unfold minExponent
    omega
  rw [hv, he, unitExponent, zpow_neg, zpow_natCast, pow_add]
  field_simp

/-- A normal pattern has a one before the point. -/
theorem value_normal {exponent fraction : ℕ} (he : 0 < exponent)
    (h : fraction < 2 ^ f.fractionBits) :
    f.value (exponent * 2 ^ f.fractionBits + fraction) =
      (1 + fraction / 2 ^ f.fractionBits) * 2 ^ ((exponent : ℤ) - f.bias) := by
  obtain ⟨k, rfl⟩ : ∃ k, exponent = k + 1 := ⟨exponent - 1, by omega⟩
  have hle : 2 ^ f.fractionBits + fraction ≤ 2 ^ (f.fractionBits + 1) := by rw [pow_succ]; omega
  have hv := value_place (f := f) (k := k) (Or.inr (Nat.le_add_right _ fraction)) hle
  have hbias : 1 ≤ f.bias := by cases f <;> decide
  have e : (k + 1) * 2 ^ f.fractionBits + fraction =
      k * 2 ^ f.fractionBits + (2 ^ f.fractionBits + fraction) := by ring
  have he' : ((k + 1 : ℕ) : ℤ) - f.bias = (k : ℤ) - ((f.bias - 1 : ℕ) : ℤ) := by omega
  rw [e, hv, he', zpow_sub₀ (by norm_num), zpow_natCast, zpow_natCast, unitExponent, pow_add]
  push_cast
  field_simp

end LiteralCodec.FloatFormat
