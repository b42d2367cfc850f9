import LiteralCodec.FloatFormat.Nearest
import LiteralCodec.Proofs.Float.Rounds

/-!
# Rounding rationals and decimals

`FloatFormat.nearest` drops the low bits of a count of least subnormals, so the significand it
rounds is one of a place. `FloatFormat.ofDecimal` decides from the length of the exponent that a
decimal is past every number of the format, or under all of them, before it works out a power of
ten.

Results:
* `nearest_rounds`: a quotient is rounded to nearest, ties to even.
* `ofDecimal_rounds`: so is a decimal, whatever its exponent.
* `overflow_eq`, `rounds_infinity_iff`: the bound from which on the result is infinite.
-/

namespace LiteralCodec.FloatFormat

variable {f : FloatFormat}

/-! ## Quotients -/

/-- The bits that are dropped leave a significand. -/
theorem isSignificand_droppedBits (f : FloatFormat) (units : ℕ) :
    f.IsSignificand (f.droppedBits units) (units / 2 ^ f.droppedBits units) ∧
      units / 2 ^ f.droppedBits units < 2 ^ (f.fractionBits + 1) := by
  have hlt := Nat.lt_log2_self (n := units)
  unfold droppedBits
  constructor
  · by_cases hle : units.log2 ≤ f.fractionBits
    · exact Or.inl (Nat.sub_eq_zero_of_le hle)
    · have h0 : units ≠ 0 := by
        rintro rfl
        simp at hle
      have hself := Nat.log2_self_le h0
      right
      rw [Nat.le_div_iff_mul_le (Nat.two_pow_pos _), ← pow_add]
      rwa [show f.fractionBits + (units.log2 - f.fractionBits) = units.log2 by omega]
  · rw [Nat.div_lt_iff_lt_mul (Nat.two_pow_pos _), ← pow_add]
    exact hlt.trans_le (Nat.pow_le_pow_right (by omega) (by omega))

/-- **A quotient is rounded to nearest.** -/
theorem nearest_rounds (n : ℕ) {d : ℕ} (hd : 0 < d) :
    f.Rounds (compare ((n : ℚ) / d)) (f.nearest n d) := by
  obtain ⟨hs, hlt⟩ := isSignificand_droppedBits f (n * 2 ^ f.unitExponent / d)
  rw [Nat.div_div_eq_div_mul] at hs hlt
  have hr := rounds_place .eq (Nat.mul_pos hd (Nat.two_pow_pos _)) hs hlt
  have hd' : (d : ℚ) ≠ 0 := by exact_mod_cast hd.ne'
  have e : ((n * 2 ^ f.unitExponent : ℕ) : ℚ) /
      ((d * 2 ^ f.droppedBits (n * 2 ^ f.unitExponent / d) : ℕ) : ℚ) *
        (2 ^ f.droppedBits (n * 2 ^ f.unitExponent / d) / 2 ^ f.unitExponent) = n / d := by
    push_cast
    field_simp
  rw [e, beside_eq_compare] at hr
  exact hr

/-- A number of the format is its own nearest. -/
theorem nearest_eq {n d m : ℕ} (hd : 0 < d) (hm : m ≤ f.infinity) (h : (n : ℚ) / d = f.value m) :
    f.nearest n d = m := by
  have hr := nearest_rounds (f := f) n hd
  have hself := rounds_value hm .eq
  rw [h] at hr
  rw [beside_eq_compare] at hself
  exact hr.unique hself

/-! ## The two ends of a format -/

/-- Infinity stands for the power of two after the largest exponent. -/
theorem value_infinity (f : FloatFormat) : f.value f.infinity = 2 ^ (f.bias + 1) := by
  have he : 0 < f.exponentFieldMax := by cases f <;> decide
  have hv := value_normal (f := f) he (Nat.two_pow_pos f.fractionBits)
  have hexp : ((f.exponentFieldMax : ℕ) : ℤ) - f.bias = ((f.bias + 1 : ℕ) : ℤ) := by
    cases f <;> decide
  rw [add_zero, Nat.cast_zero, zero_div, add_zero, one_mul, hexp, zpow_natCast] at hv
  exact hv

theorem infinity_pos (f : FloatFormat) : 0 < f.infinity := by
  cases f <;> decide

/-- A short significand, in multiples of a power of two that is no finer than the format and under
what infinity stands for, is the value of a finite number. -/
theorem exists_value {s k u : ℕ} (hs : s < 2 ^ (f.fractionBits + 1)) (hu : u ≤ f.unitExponent)
    (hlt : (s : ℚ) * 2 ^ k / 2 ^ u < 2 ^ (f.bias + 1)) :
    ∃ m < f.infinity, f.value m = s * 2 ^ k / 2 ^ u := by
  obtain ⟨e, hue⟩ := Nat.exists_eq_add_of_le hu
  obtain ⟨m, hm⟩ := f.exists_units hs (k + e)
  have hv : f.value m = s * 2 ^ k / 2 ^ u := by
    unfold value
    rw [hm, hue]
    push_cast
    rw [pow_add, pow_add]
    field_simp
  refine ⟨m, ?_, hv⟩
  rwa [← f.value_strictMono.lt_iff_lt, value_infinity, hv]

/-- A number at least as large as what infinity stands for is rounded to infinity. -/
theorem rounds_infinity {x : ℚ} (tie : Ordering) (h : 2 ^ (f.bias + 1) ≤ x) :
    f.Rounds (beside x tie) f.infinity := by
  refine ⟨le_refl _, fun k hk => Or.inl (beside_of_gt tie ?_), fun h => absurd h (lt_irrefl _)⟩
  rw [← value_infinity, hk] at h
  exact (f.midpoint_lt_value k).trans_le h

/-- A number under half the least subnormal is rounded to zero. -/
theorem rounds_zero {x : ℚ} (tie : Ordering) (h : x < 1 / 2 / 2 ^ f.unitExponent) :
    f.Rounds (beside x tie) 0 := by
  refine ⟨Nat.zero_le _, fun k hk => absurd hk (by omega), fun _ => Or.inl ?_⟩
  have hm := midpoint_place (f := f) (k := 0) (s := 0) (Or.inl rfl) (Nat.two_pow_pos _)
  rw [zero_mul, add_zero, Nat.cast_zero, zero_add, pow_zero, mul_one] at hm
  rw [hm]
  exact beside_of_lt tie h

/-- From here on numbers are rounded to infinity. -/
def overflow (f : FloatFormat) : ℚ := f.midpoint (f.infinity - 1)

/-- The bound is the largest finite number and half of its last bit. -/
theorem overflow_eq (f : FloatFormat) :
    f.overflow = (2 - 1 / 2 ^ (f.fractionBits + 1)) * 2 ^ f.bias := by
  have hfield : f.infinity - 1 = 2 * f.bias * 2 ^ f.fractionBits + (2 ^ f.fractionBits - 1) := by
    cases f <;> decide
  have hbias : 0 < 2 * f.bias := by cases f <;> decide
  have hpos := f.infinity_pos
  have hlt : 2 ^ f.fractionBits - 1 < 2 ^ f.fractionBits := Nat.sub_lt (Nat.two_pow_pos _) one_pos
  have hexp : ((2 * f.bias : ℕ) : ℤ) - f.bias = (f.bias : ℤ) := by omega
  have hcast : ((2 ^ f.fractionBits - 1 : ℕ) : ℚ) = 2 ^ f.fractionBits - 1 := by
    rw [Nat.cast_sub (Nat.one_le_two_pow)]
    push_cast
    rfl
  rw [overflow, midpoint, Nat.sub_add_cancel hpos, value_infinity, hfield, value_normal hbias hlt,
    hexp, hcast, zpow_natCast, pow_succ, pow_succ]
  field_simp
  ring

/-- The largest finite magnitude is odd, so the bound itself is rounded to infinity. -/
theorem rounds_infinity_iff {x : ℚ} {m : ℕ} (h : f.Rounds (compare x) m) :
    m = f.infinity ↔ f.overflow ≤ x := by
  have hpos := f.infinity_pos
  have hodd : (f.infinity - 1) % 2 = 1 := by cases f <;> decide
  constructor
  · intro hm
    obtain ⟨k, hk⟩ : ∃ k, m = k + 1 := ⟨m - 1, by omega⟩
    rw [hk] at h
    have := h.midpoint_le
    rwa [overflow, ← hm, hk, Nat.add_sub_cancel]
  · intro hx
    by_contra hne
    have hm : m < f.infinity := lt_of_le_of_ne h.le_infinity hne
    have hmono : f.midpoint m ≤ f.overflow := f.midpoint_strictMono.monotone (by omega)
    have hle := h.le_midpoint hm
    have he : f.midpoint m = f.overflow := le_antisymm hmono (hx.trans hle)
    have hmi : m = f.infinity - 1 := f.midpoint_strictMono.injective he
    rcases h.below hm with hb | ⟨-, hb⟩
    · have := compare_lt_iff_lt.mp hb
      linarith
    · omega

/-! ## Decimals -/

theorem two_pow_le_ten_pow (k : ℕ) : (2 : ℚ) ^ (3 * k) ≤ 10 ^ k := by
  rw [pow_mul]
  exact pow_le_pow_left₀ (by norm_num) (by norm_num) k

/-- **A decimal is rounded to nearest**, whatever the size of its exponent. -/
theorem ofDecimal_rounds (c : ℕ) (e : ℤ) :
    f.Rounds (compare ((c : ℚ) * 10 ^ e)) (f.ofDecimal c e) := by
  rw [← beside_eq_compare]
  rcases Nat.eq_zero_or_pos c with rfl | hc
  · have h0 := rounds_value (f := f) (Nat.zero_le f.infinity) .eq
    rw [value_zero] at h0
    cases e <;> simpa [ofDecimal] using h0
  have hc1 : (1 : ℚ) ≤ c := by exact_mod_cast hc
  cases e with
  | ofNat k =>
    rw [Int.ofNat_eq_natCast, zpow_natCast]
    simp only [ofDecimal, hc.ne', if_false]
    split_ifs with hk
    · refine rounds_infinity .eq ?_
      calc (2 : ℚ) ^ (f.bias + 1) ≤ 2 ^ (3 * k) := pow_le_pow_right₀ (by norm_num) (by omega)
        _ ≤ 10 ^ k := two_pow_le_ten_pow k
        _ ≤ c * 10 ^ k := le_mul_of_one_le_left (by positivity) hc1
    · have := nearest_rounds (f := f) (c * 10 ^ k) Nat.one_pos
      rw [Nat.cast_one, div_one, ← beside_eq_compare] at this
      exact_mod_cast this
  | negSucc k =>
    rw [zpow_negSucc, ← div_eq_mul_inv]
    simp only [ofDecimal, hc.ne', if_false]
    split_ifs with hk
    · refine rounds_zero .eq ?_
      have hlog : (c : ℚ) < 2 ^ (c.log2 + 1) := by exact_mod_cast Nat.lt_log2_self
      rw [div_lt_iff₀ (by positivity), div_div, div_mul_eq_mul_div, one_mul,
        lt_div_iff₀ (by positivity)]
      calc (c : ℚ) * (2 * 2 ^ f.unitExponent) < 2 ^ (c.log2 + 1) * (2 * 2 ^ f.unitExponent) :=
            mul_lt_mul_of_pos_right hlog (by positivity)
        _ = 2 ^ (c.log2 + f.unitExponent + 2) := by ring
        _ ≤ 2 ^ (3 * (k + 1)) := pow_le_pow_right₀ (by norm_num) hk
        _ ≤ 10 ^ (k + 1) := two_pow_le_ten_pow _
    · have := nearest_rounds (f := f) c (show 0 < 10 ^ (k + 1) by positivity)
      rw [← beside_eq_compare] at this
      exact_mod_cast this

end LiteralCodec.FloatFormat
