import LiteralCodec.FloatFormat.Widening
import LiteralCodec.Proofs.Float.DoubleRounding

/-!
# Widening a half is exact

All that is added and multiplied on the way has eleven significant bits or fewer, the last of them
between those of the least and of the largest half. Singles have twenty-four bits and more room at
both ends, so no operation has anything to round.

Results:
* `value_halfToSingle`: the single made of a half has its value.
* `value_singleToDouble`: so has the double made of a single.
-/

namespace LiteralCodec.FloatFormat

variable {a b m : ℕ}

/-- A number with the significant bits of a half, in a place where halves have theirs. -/
def IsElevenBit (x : ℚ) : Prop := ∃ s k : ℕ, s < 2 ^ 11 ∧ k ≤ 30 ∧ x = s * 2 ^ k / 2 ^ 24

/-- Such a number is a single. -/
theorem IsElevenBit.exists_single {x : ℚ} (h : IsElevenBit x) :
    ∃ m < single.infinity, single.value m = x := by
  obtain ⟨s, k, hs, hk, rfl⟩ := h
  have hs' : (s : ℚ) < 2 ^ 11 := by exact_mod_cast hs
  have hk' : (2 : ℚ) ^ k ≤ 2 ^ 30 := pow_le_pow_right₀ (by norm_num) hk
  have hsize : (s : ℚ) * 2 ^ k / 2 ^ 24 < 2 ^ 17 := by
    rw [div_lt_iff₀ (by positivity)]
    calc (s : ℚ) * 2 ^ k < 2 ^ 11 * 2 ^ 30 := mul_lt_mul hs' hk' (by positivity) (by positivity)
      _ = 2 ^ 17 * 2 ^ 24 := by norm_num
  have hfb : single.fractionBits = 23 := rfl
  have hue : single.unitExponent = 149 := rfl
  have hbias : single.bias = 127 := rfl
  have hroom : (2 : ℚ) ^ 17 < 2 ^ (single.bias + 1) :=
    pow_lt_pow_right₀ (by norm_num) (by omega)
  exact exists_value (by rw [hfb]; omega) (by omega) (hsize.trans hroom)

/-! ## The operations -/

theorem value_nearest {n d : ℕ} (hd : 0 < d) (h : IsElevenBit ((n : ℚ) / d)) :
    single.value (single.nearest n d) = n / d := by
  obtain ⟨m, hm, hv⟩ := h.exists_single
  rw [nearest_eq hd hm.le hv.symm, hv]

theorem value_sum (h : IsElevenBit (single.value a + single.value b)) :
    single.value (single.sum a b) = single.value a + single.value b := by
  have e : ((single.units a + single.units b : ℕ) : ℚ) / (2 ^ single.unitExponent : ℕ) =
      single.value a + single.value b := by
    unfold value
    push_cast
    exact add_div ..
  rw [sum, value_nearest (Nat.two_pow_pos _) (e ▸ h), e]

theorem value_product (h : IsElevenBit (single.value a * single.value b)) :
    single.value (single.product a b) = single.value a * single.value b := by
  have e : ((single.units a * single.units b : ℕ) : ℚ) /
      (2 ^ single.unitExponent * 2 ^ single.unitExponent : ℕ) =
        single.value a * single.value b := by
    unfold value
    push_cast
    exact (div_mul_div_comm ..).symm
  rw [product, value_nearest (Nat.mul_pos (Nat.two_pow_pos _) (Nat.two_pow_pos _)) (e ▸ h), e]

/-- A power of two that is not below the least half is a single. -/
theorem value_twoPower {k : ℕ} (hk : k ≤ 30) :
    single.value (single.twoPower (k - 24)) = 2 ^ k / 2 ^ 24 := by
  have h : IsElevenBit (2 ^ k / 2 ^ 24) := ⟨1, k, by omega, hk, by push_cast; ring⟩
  rcases Nat.lt_or_ge k 24 with hlt | hge
  · obtain ⟨j, hj⟩ : ∃ j, 24 = k + (j + 1) := ⟨23 - k, by omega⟩
    have e : (2 : ℚ) ^ k / 2 ^ 24 = (1 : ℕ) / (2 ^ (j + 1) : ℕ) := by
      rw [hj, pow_add]
      push_cast
      field_simp
    have hz : (k : ℤ) - 24 = .negSucc j := by omega
    rw [e] at h ⊢
    rw [hz]
    exact value_nearest (Nat.two_pow_pos _) h
  · obtain ⟨j, rfl⟩ := Nat.exists_eq_add_of_le hge
    have e : (2 : ℚ) ^ (24 + j) / 2 ^ 24 = (2 ^ j : ℕ) / (1 : ℕ) := by
      rw [pow_add]
      push_cast
      field_simp
    have hz : ((24 + j : ℕ) : ℤ) - 24 = .ofNat j := by rw [Int.ofNat_eq_natCast]; omega
    rw [e] at h ⊢
    rw [hz]
    exact value_nearest one_pos h

/-! ## Significands -/

/-- A significand of a half is a number with eleven bits. -/
theorem isElevenBit_natural {s : ℕ} (hs : s < 2 ^ 11) : IsElevenBit s :=
  ⟨s, 24, hs, by omega, by field_simp⟩

theorem value_natural {s : ℕ} (hs : s < 2 ^ 11) : single.value (single.nearest s 1) = s := by
  have h : IsElevenBit ((s : ℚ) / (1 : ℕ)) := by
    rw [Nat.cast_one, div_one]
    exact isElevenBit_natural hs
  rw [value_nearest one_pos h, Nat.cast_one, div_one]

theorem value_sum_natural {s t : ℕ} (hst : s + t < 2 ^ 11) :
    single.value (single.sum (single.nearest s 1) (single.nearest t 1)) = (s + t : ℕ) := by
  have hs := value_natural (s := s) (by omega)
  have ht := value_natural (s := t) (by omega)
  have e : single.value (single.nearest s 1) + single.value (single.nearest t 1) = (s + t : ℕ) := by
    rw [hs, ht, Nat.cast_add]
  rw [value_sum (e ▸ isElevenBit_natural hst), e]

/-- A significand is moved to its place. -/
theorem value_product_twoPower {s k : ℕ} (hs : s < 2 ^ 11) (hk : k ≤ 30)
    (ha : single.value a = s) :
    single.value (single.product a (single.twoPower (k - 24))) = s * 2 ^ k / 2 ^ 24 := by
  have e : single.value a * single.value (single.twoPower (k - 24)) = s * 2 ^ k / 2 ^ 24 := by
    rw [ha, value_twoPower hk, mul_div_assoc]
  have h : IsElevenBit (single.value a * single.value (single.twoPower (k - 24))) :=
    ⟨s, k, hs, hk, e⟩
  rw [value_product h, e]

/-! ## The half -/

/-- **The single made of a half has its value.** -/
theorem value_halfToSingle (hm : m ≤ half.infinity) :
    single.value (halfToSingle m) = half.value m := by
  have hfb : half.fractionBits = 10 := rfl
  have hue : half.unitExponent = 24 := rfl
  have hinf : half.infinity = 31 * 2 ^ 10 := by decide
  have hr : m % 2 ^ 10 < 2 ^ 10 := Nat.mod_lt _ (by omega)
  have hfraction : (half.fields m).fraction = m % 2 ^ 10 := rfl
  have hexponent : (half.fields m).exponent = m / 2 ^ 10 :=
    Nat.mod_eq_of_lt (show m / 2 ^ 10 < 2 ^ 5 by omega)
  by_cases h0 : m / 2 ^ 10 = 0
  · have hv := value_product_twoPower (by omega) (Nat.zero_le 30)
      (value_natural (s := m % 2 ^ 10) (by omega))
    simp only [halfToSingle, hfraction, hexponent, h0, if_true]
    refine hv.trans ?_
    simp only [value, units, hfb, hue, h0, if_true, pow_zero, mul_one]
  · obtain ⟨k, hk⟩ := Nat.exists_eq_add_one_of_ne_zero h0
    have hv := value_product_twoPower (k := k) (by omega) (by omega)
      (value_sum_natural (s := 1024) (t := m % 2 ^ 10) (by omega))
    have hpower : ((k + 1 : ℕ) : ℤ) - 25 = k - 24 := by omega
    simp only [halfToSingle, hfraction, hexponent, hk, Nat.add_one_ne_zero, if_false, hpower]
    refine hv.trans ?_
    simp only [value, units, hfb, hue, hk, Nat.add_one_ne_zero, if_false, Nat.add_sub_cancel]
    push_cast
    rfl

/-- **The double made of the single of a half has its value.** -/
theorem value_singleToDouble {n : ℕ} (hm : m ≤ half.infinity)
    (hn : single.value n = half.value m) :
    singleToDouble n < double.infinity ∧ double.value (singleToDouble n) = half.value m := by
  obtain ⟨k, hk, hv⟩ := exists_double_value hm
  have hx : (single.units n : ℚ) / (2 ^ single.unitExponent : ℕ) = double.value k := by
    rw [hv, ← hn, value]
    push_cast
    rfl
  rw [singleToDouble, nearest_eq (Nat.two_pow_pos _) hk.le hx]
  exact ⟨hk, hv⟩

end LiteralCodec.FloatFormat
