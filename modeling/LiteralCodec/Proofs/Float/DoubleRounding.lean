import LiteralCodec.Proofs.Float.Narrowing

/-!
# Rounding to a double first

All halves and all midpoints of halves are doubles. Since rounding does not pass a number of the
format, a number and the double it is rounded to lie on the same side of a midpoint of halves,
unless that double is the midpoint. So narrowing the double rounds the number itself, if only what
decides on a midpoint is the order of the number and the midpoint.

Results:
* `exists_double_value`, `exists_double_midpoint`: halves and midpoints are doubles.
* `Rounds.narrowed`: narrowing the nearest double gives the nearest half.
-/

namespace LiteralCodec.FloatFormat

/-- A short significand, with a value under the largest half, is that of a double. -/
theorem exists_double {s k : ℕ} (hs : s < 2 ^ 53) (hlt : (s : ℚ) * 2 ^ k / 2 ^ 25 ≤ 2 ^ 16) :
    ∃ m < double.infinity, double.value m = s * 2 ^ k / 2 ^ 25 := by
  have hpow : (2 : ℚ) ^ 16 < 2 ^ (double.bias + 1) := pow_lt_pow_right₀ (by norm_num) (by decide)
  exact exists_value hs (by decide) (hlt.trans_lt hpow)

theorem value_half_infinity : half.value half.infinity = 2 ^ 16 := value_infinity half

/-- Every half is a double. -/
theorem exists_double_value {m : ℕ} (hm : m ≤ half.infinity) :
    ∃ n < double.infinity, double.value n = half.value m := by
  have hle : half.value m ≤ 2 ^ 16 := by
    rw [← value_half_infinity]
    exact half.value_strictMono.monotone hm
  obtain ⟨k, s, rfl, hs, hlt⟩ := half.exists_place m
  have hfb : half.fractionBits = 10 := rfl
  have e : half.value (k * 2 ^ half.fractionBits + s) = s * 2 ^ (k + 1) / 2 ^ 25 := by
    have hue : half.unitExponent = 24 := rfl
    rw [value_place hs hlt.le, hue]
    ring
  rw [e] at hle ⊢
  rw [hfb] at hlt
  exact exists_double (by omega) hle

/-- A number past the doubles is past the halves. -/
theorem rounds_half_infinity {x : ℚ} (h : double.Rounds (compare x) double.infinity) :
    half.Rounds (compare x) half.infinity := by
  have hover := (rounds_infinity_iff h).mp rfl
  rw [← beside_eq_compare]
  refine rounds_infinity .eq (le_trans ?_ hover)
  obtain ⟨n, hn, hv⟩ := exists_double_value (le_refl half.infinity)
  rw [value_infinity] at hv
  rw [← hv]
  have hle : n ≤ double.infinity - 1 := by omega
  exact (double.value_strictMono.monotone hle).trans (double.value_lt_midpoint _).le

/-- A midpoint of halves is a multiple of `2 ^ -25`. -/
theorem midpoint_half_eq (k : ℕ) :
    half.midpoint k = (half.units k + half.units (k + 1) : ℕ) / 2 ^ 25 := by
  have hue : half.unitExponent = 24 := rfl
  unfold midpoint value
  rw [hue]
  push_cast
  ring

/-- The least midpoint. -/
theorem midpoint_half_zero : half.midpoint 0 = 1 / 2 ^ 25 := by
  rw [midpoint_half_eq, show half.units 0 + half.units (0 + 1) = 1 from rfl, Nat.cast_one]

/-- The largest midpoint, from which on numbers are rounded to infinity. -/
theorem midpoint_half_last : half.midpoint (half.infinity - 1) = 65520 := by
  have h := overflow_eq half
  have hfb : half.fractionBits = 10 := rfl
  have hbias : half.bias = 15 := rfl
  rw [overflow, hfb, hbias] at h
  rw [h]
  norm_num

theorem midpoint_half_bounds {k : ℕ} (hk : k < half.infinity) :
    (1 : ℚ) / 2 ^ 25 ≤ half.midpoint k ∧ half.midpoint k < 2 ^ 16 := by
  constructor
  · have hpos : 0 < half.units k + half.units (k + 1) :=
      Nat.add_pos_right _ ((Nat.zero_le _).trans_lt (half.units_strictMono (Nat.lt_succ_self k)))
    have hone : (1 : ℚ) ≤ (half.units k + half.units (k + 1) : ℕ) := by exact_mod_cast hpos
    rw [midpoint_half_eq]
    exact div_le_div_of_nonneg_right hone (by positivity)
  · rw [← value_half_infinity]
    exact (half.midpoint_lt_value k).trans_le (half.value_strictMono.monotone hk)

/-- Every midpoint of halves is a double. -/
theorem exists_double_midpoint {m : ℕ} (hm : m < half.infinity) :
    ∃ n < double.infinity, double.value n = half.midpoint m := by
  have hle : half.midpoint m ≤ 2 ^ 16 := by
    rw [← value_half_infinity]
    exact (half.midpoint_lt_value m).le.trans (half.value_strictMono.monotone hm)
  obtain ⟨k, s, rfl, hs, hlt⟩ := half.exists_place m
  have hfb : half.fractionBits = 10 := rfl
  have e : half.midpoint (k * 2 ^ half.fractionBits + s) =
      ((2 * s + 1 : ℕ) : ℚ) * 2 ^ k / 2 ^ 25 := by
    have hue : half.unitExponent = 24 := rfl
    rw [midpoint_place hs hlt, hue]
    push_cast
    ring
  rw [e] at hle ⊢
  rw [hfb] at hlt
  exact exists_double (by omega) hle

/-- **Narrowing the nearest double gives the nearest half**, if the order of the number and the
double decides where the double is a midpoint. -/
theorem Rounds.narrowed {x : ℚ} {m h : ℕ} {tie : Ordering} (hx : double.Rounds (compare x) m)
    (hh : half.Rounds (beside (double.value m) tie) h)
    (ht : ∀ k < half.infinity, double.value m = half.midpoint k →
      tie = compare x (half.midpoint k)) :
    half.Rounds (compare x) h := by
  refine hh.congr fun k hk => ?_
  obtain ⟨n, hn, hv⟩ := exists_double_midpoint hk
  rcases lt_trichotomy (double.value m) (half.midpoint k) with hlt | heq | hlt
  · rw [beside_of_lt tie hlt, eq_comm, compare_lt_iff_lt]
    by_contra hge
    rw [← hv] at hlt hge
    have := hx.le_of_value_le hn.le (not_lt.mp hge)
    exact absurd (double.value_strictMono.monotone this) (not_le.mpr hlt)
  · rw [heq, beside_self]
    exact ht k hk heq
  · rw [beside_of_gt tie hlt, eq_comm, compare_gt_iff_gt]
    by_contra hge
    rw [← hv] at hlt hge
    have := hx.le_of_le_value (not_lt.mp hge)
    exact absurd (double.value_strictMono.monotone this) (not_le.mpr hlt)

end LiteralCodec.FloatFormat
