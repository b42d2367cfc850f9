import LiteralCodec.Proofs.Float.Nearest

/-!
# The numbers that are rounded to one magnitude

They form an interval around the value of the magnitude: it has no gaps, and it reaches as far down
as up, except for the least significand of a place, where the magnitudes below are half as far
apart. An even magnitude has the ends of its interval, an odd one does not.

Results:
* `Rounds.between`: the interval has no gaps.
* `Rounds.of_abs_sub_le`: what is as near to the value as a number of the interval is in it, if the
  interval is symmetric.
* `midpoint_symm`: which intervals are symmetric.
* `rounds_of_abs_sub_lt`: how far an interval reaches at the least.
-/

namespace LiteralCodec.FloatFormat

variable {f : FloatFormat} {m : ℕ} {x y z : ℚ}

/-! ## Order -/

/-- **What lies between two numbers of an interval** is in it. -/
theorem Rounds.between (hx : f.Rounds (compare x) m) (hz : f.Rounds (compare z) m) (hxy : x ≤ y)
    (hyz : y ≤ z) : f.Rounds (compare y) m := by
  refine ⟨hx.le_infinity, fun k hk => ?_, fun hm => ?_⟩
  · rcases hx.above k hk with h | ⟨h, he⟩
    · exact .inl (compare_gt_iff_gt.mpr ((compare_gt_iff_gt.mp h).trans_le hxy))
    · rw [compare_eq_iff_eq] at h
      rw [compare_gt_iff_gt, compare_eq_iff_eq, ← h]
      exact hxy.lt_or_eq.imp id fun e => ⟨e.symm, he⟩
  · rcases hz.below hm with h | ⟨h, he⟩
    · exact .inl (compare_lt_iff_lt.mpr (hyz.trans_lt (compare_lt_iff_lt.mp h)))
    · rw [compare_eq_iff_eq] at h
      rw [compare_lt_iff_lt, compare_eq_iff_eq, ← h]
      exact hyz.lt_or_eq.imp id fun e => ⟨e, he⟩

/-- Zero is rounded to zero only. -/
theorem Rounds.pos (h : f.Rounds (compare x) m) (hm : 0 < m) : x ≠ 0 := by
  rintro rfl
  have h0 := rounds_value (f := f) (Nat.zero_le f.infinity) .eq
  rw [value_zero, beside_eq_compare] at h0
  exact hm.ne' (h.unique h0)

theorem rounds_self (hm : m ≤ f.infinity) : f.Rounds (compare (f.value m)) m := by
  rw [← beside_eq_compare]
  exact rounds_value hm .eq

/-! ## Reach -/

/-- A number is in an interval if it is nearer to the value than the ends are, and on an end if
the magnitude is even. -/
theorem rounds_of_abs_sub (hm : m + 1 ≤ f.infinity) {r : ℚ}
    (hlo : r ≤ f.value (m + 1) - f.midpoint m) (hhi : r ≤ f.midpoint (m + 1) - f.value (m + 1))
    (h : |x - f.value (m + 1)| < r ∨ |x - f.value (m + 1)| = r ∧ (m + 1) % 2 = 0) :
    f.Rounds (compare x) (m + 1) := by
  refine ⟨hm, fun k hk => ?_, fun _ => ?_⟩
  · obtain rfl : k = m := by omega
    rw [compare_gt_iff_gt, compare_eq_iff_eq]
    rcases h with h | ⟨h, he⟩
    · have := (abs_lt.mp h).1
      exact .inl (by linarith)
    · have := (abs_le.mp h.le).1
      have hle : f.midpoint k ≤ x := by linarith
      exact hle.lt_or_eq.imp id fun e => ⟨e.symm, he⟩
  · rw [compare_lt_iff_lt, compare_eq_iff_eq]
    rcases h with h | ⟨h, he⟩
    · have := (abs_lt.mp h).2
      exact .inl (by linarith)
    · have := (abs_le.mp h.le).2
      have hle : x ≤ f.midpoint (m + 1) := by linarith
      exact hle.lt_or_eq.imp id fun e => ⟨e, he⟩

/-- **In a symmetric interval only the distance counts.** -/
theorem Rounds.of_abs_sub_le (hx : f.Rounds (compare x) (m + 1)) (hm : m + 1 < f.infinity)
    (hsymm : f.value (m + 1) - f.midpoint m = f.midpoint (m + 1) - f.value (m + 1))
    (h : |y - f.value (m + 1)| ≤ |x - f.value (m + 1)|) : f.Rounds (compare y) (m + 1) := by
  refine rounds_of_abs_sub hm.le le_rfl hsymm.le ?_
  have hreach : |x - f.value (m + 1)| < f.value (m + 1) - f.midpoint m ∨
      |x - f.value (m + 1)| = f.value (m + 1) - f.midpoint m ∧ (m + 1) % 2 = 0 := by
    rcases le_total x (f.value (m + 1)) with hle | hle
    · rw [abs_sub_comm, abs_of_nonneg (sub_nonneg.mpr hle)]
      rcases hx.above m rfl with hlt | ⟨heq, he⟩
      · exact .inl (sub_lt_sub_left (compare_gt_iff_gt.mp hlt) _)
      · exact .inr ⟨by rw [compare_eq_iff_eq.mp heq], he⟩
    · rw [abs_of_nonneg (sub_nonneg.mpr hle), hsymm]
      rcases hx.below hm with hlt | ⟨heq, he⟩
      · exact .inl (sub_lt_sub_right (compare_lt_iff_lt.mp hlt) _)
      · exact .inr ⟨by rw [compare_eq_iff_eq.mp heq], he⟩
  rcases hreach with hlt | ⟨heq, he⟩
  · exact .inl (h.trans_lt hlt)
  · rw [heq] at h
    exact h.lt_or_eq.imp id fun e => ⟨e, he⟩

/-! ## Ends -/

/-- A magnitude as a place, and the magnitude before it. -/
theorem exists_place_pred (f : FloatFormat) (m : ℕ) :
    ∃ k s, m = k * 2 ^ f.fractionBits + s ∧ f.IsSignificand k (s + 1) ∧
      s + 1 < 2 ^ (f.fractionBits + 1) := by
  obtain ⟨k, s, he, hs, hlt⟩ := f.exists_place (m + 1)
  have hpos := Nat.two_pow_pos f.fractionBits
  have hs0 : 0 < s := by
    rcases hs with rfl | hs <;> omega
  obtain ⟨s, rfl⟩ : ∃ j, s = j + 1 := ⟨s - 1, by omega⟩
  exact ⟨k, s, by omega, hs, hlt⟩

/-- **An interval is symmetric** unless a place begins with its magnitude, the first place apart. -/
theorem midpoint_symm (h : ¬(2 ^ f.fractionBits ∣ m + 1 ∧ 2 * 2 ^ f.fractionBits ≤ m + 1)) :
    f.value (m + 1) - f.midpoint m = f.midpoint (m + 1) - f.value (m + 1) := by
  obtain ⟨k, s, rfl, hs, hlt⟩ := f.exists_place_pred m
  have hv := value_place hs hlt.le
  have hmid := midpoint_place hs hlt
  rcases value_pred hs hlt with hpred | ⟨⟨hk, hse⟩, -⟩
  · rw [midpoint, Nat.add_assoc, hmid, hv, hpred]
    push_cast
    ring
  · have hm : k * 2 ^ f.fractionBits + s + 1 = (k + 1) * 2 ^ f.fractionBits := by
      rw [Nat.add_assoc, hse]
      ring
    rw [hm] at h
    exact absurd ⟨Dvd.intro_left _ rfl, Nat.mul_le_mul_right _ (by omega)⟩ h

/-- Intervals reach down at least as far as the size of the magnitude allows. -/
theorem div_le_sub_midpoint (f : FloatFormat) (m : ℕ) :
    f.value (m + 1) / 2 ^ (f.fractionBits + 2) ≤ f.value (m + 1) - f.midpoint m := by
  obtain ⟨k, s, rfl, hs, hlt⟩ := f.exists_place_pred m
  have hp : (0 : ℚ) < 2 ^ k / 2 ^ f.unitExponent := by positivity
  have hs1 : ((s + 1 : ℕ) : ℚ) < 2 ^ (f.fractionBits + 1) := by exact_mod_cast hlt
  have hpow : (2 : ℚ) ^ (f.fractionBits + 2) = 4 * 2 ^ f.fractionBits := by ring
  rw [pow_succ] at hs1
  rw [midpoint, Nat.add_assoc, value_place hs hlt.le, mul_div_assoc, div_le_iff₀ (by positivity),
    hpow]
  rcases value_pred hs hlt with hpred | ⟨⟨-, hse⟩, hpred⟩ <;> rw [hpred, mul_div_assoc]
  · push_cast at *
    nlinarith
  · -- the steps below are half as large, but this is the least significand
    have hse' : (s : ℚ) + 1 = 2 ^ f.fractionBits := by exact_mod_cast hse
    push_cast
    rw [← hse']
    linarith

/-- So they do upwards. -/
theorem div_le_midpoint_sub (f : FloatFormat) (m : ℕ) :
    f.value (m + 1) / 2 ^ (f.fractionBits + 2) ≤ f.midpoint (m + 1) - f.value (m + 1) := by
  obtain ⟨k, s, rfl, hs, hlt⟩ := f.exists_place_pred m
  have hp : (0 : ℚ) < 2 ^ k / 2 ^ f.unitExponent := by positivity
  have hs1 : ((s + 1 : ℕ) : ℚ) < 2 ^ (f.fractionBits + 1) := by exact_mod_cast hlt
  have hpow : (2 : ℚ) ^ (f.fractionBits + 2) = 2 * 2 ^ (f.fractionBits + 1) := by ring
  have hmid := midpoint_place hs hlt
  rw [mul_div_assoc] at hmid
  rw [Nat.add_assoc, hmid, value_place hs hlt.le, mul_div_assoc, div_le_iff₀ (by positivity), hpow]
  nlinarith

/-- **A number that is near to a magnitude** for its size is rounded to it. -/
theorem rounds_of_abs_sub_lt (hm : m + 1 ≤ f.infinity)
    (h : |x - f.value (m + 1)| < f.value (m + 1) / 2 ^ (f.fractionBits + 2)) :
    f.Rounds (compare x) (m + 1) :=
  rounds_of_abs_sub hm (f.div_le_sub_midpoint m) (f.div_le_midpoint_sub m) (.inl h)

end LiteralCodec.FloatFormat
