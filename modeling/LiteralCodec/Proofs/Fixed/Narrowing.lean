import LiteralCodec.Fixed.Narrowing
import LiteralCodec.Proofs.Fixed.Format
import LiteralCodec.Proofs.Float.DoubleRounding
import LiteralCodec.Proofs.Float.Ties

/-!
# Narrowing is correct rounding

A double is narrowed by shifting its significand to the place it has among the halves. What is
shifted out is compared with half the step, which is comparing the double with the midpoint next to
it; so the question how to break a tie is asked on midpoints only. What is rounded up may carry into
the exponent, up to infinity, and no further. Doubles that have no place are under half the least
half, or past the halves, or no numbers.

All of this is done in registers, and no step leaves its width: the shift is by at most 63, since
smaller doubles are settled before.

Results:
* `roundShiftedFixed_some`, `roundShiftedFixed_none`: rounding what is shifted out, with an answer
  and without.
* `placeHalfFixed_eq`: the carry goes to the exponent.
* `narrowMagnitudeFixed_some`, `narrowFixed_some`: the steps agree with unlimited arithmetic.
* `narrowFixed_none`: when the question is asked.
* `narrow_nearest`: the half is nearest, by the answer on a tie, and monotone in the absolute value.
-/

namespace LiteralCodec.FloatFormat

open Fixed (unsigned unsigned_eq unsigned_natCast signed_eq shiftLeft_eq shiftLeft_one shiftRight_eq
  lowOnes_eq)

variable {tie : Ordering} {exponent fraction significand shift m : ℕ}

/-! ## Rounding what is shifted out -/

theorem roundsUpFixed_some (tie remainder : Ordering) (m : ℕ) :
    roundsUpFixed (some tie) remainder m = some (roundsUp remainder tie m) := by
  cases remainder with
  | lt => rfl
  | gt => rfl
  | eq =>
    cases tie with
    | lt => rfl
    | gt => rfl
    | eq =>
      rw [roundsUpFixed, roundsUp, Option.bind_eq_bind, Option.bind_some, Nat.and_one_is_mod]
      rfl

/-- The question is asked if nothing else decides. -/
theorem roundsUpFixed_none {remainder : Ordering} :
    roundsUpFixed none remainder m = none ↔ remainder = .eq := by
  cases remainder <;> simp [roundsUpFixed]

/-- Comparing with half the divisor is comparing the double. -/
theorem compare_half {r k : ℕ} : compare r (2 ^ k) = compare (2 * r) (2 ^ (k + 1)) := by
  rw [pow_succ, mul_comm (2 ^ k) 2]
  rcases Nat.lt_trichotomy r (2 ^ k) with h | h | h
  · rw [compare_lt_iff_lt.mpr h, compare_lt_iff_lt.mpr (by omega)]
  · rw [compare_eq_iff_eq.mpr h, compare_eq_iff_eq.mpr (by omega)]
  · rw [compare_gt_iff_gt.mpr h, compare_gt_iff_gt.mpr (by omega)]

/-- The shifted significand, and one more if it is rounded up. -/
theorem roundShiftedFixed_eq (tie? : Option Ordering) (h0 : 0 < shift) (h63 : shift ≤ 63)
    (hs : significand < 2 ^ 64 - 1) :
    roundShiftedFixed tie? significand shift =
      (roundsUpFixed tie? (compare (2 * (significand % 2 ^ shift)) (2 ^ shift))
        (significand / 2 ^ shift)).map fun up =>
          if up then significand / 2 ^ shift + 1 else significand / 2 ^ shift := by
  have hle := Nat.div_le_self significand (2 ^ shift)
  obtain ⟨k, rfl⟩ : ∃ k, shift = k + 1 := ⟨shift - 1, by omega⟩
  simp only [roundShiftedFixed, Option.bind_eq_bind]
  rw [shiftRight_eq (by omega), Option.bind_some, lowOnes_eq (by omega), Option.bind_some,
    unsigned_eq (n := k) (by omega) (by omega), Option.bind_some, shiftLeft_one (by omega),
    Option.bind_some, Nat.and_two_pow_sub_one_eq_mod, compare_half, unsigned_natCast (by omega)]
  cases roundsUpFixed tie? _ _ with
  | none => rfl
  | some up => cases up <;> rfl

theorem roundShiftedFixed_some (tie : Ordering) (h0 : 0 < shift) (h63 : shift ≤ 63)
    (hs : significand < 2 ^ 64 - 1) :
    roundShiftedFixed (some tie) significand shift =
      some (roundQuotient tie significand (2 ^ shift)) := by
  rw [roundShiftedFixed_eq _ h0 h63 hs, roundsUpFixed_some]
  rfl

theorem roundShiftedFixed_none (h0 : 0 < shift) (h63 : shift ≤ 63) (hs : significand < 2 ^ 64 - 1) :
    roundShiftedFixed none significand shift = none ↔
      roundQuotient .lt significand (2 ^ shift) ≠ roundQuotient .gt significand (2 ^ shift) := by
  rw [roundShiftedFixed_eq _ h0 h63 hs, Option.map_eq_none_iff, roundsUpFixed_none,
    roundQuotient_ne_iff, compare_eq_iff_eq]

theorem eq_or_of_roundShiftedFixed {tie? : Option Ordering} (h0 : 0 < shift) (h63 : shift ≤ 63)
    (hs : significand < 2 ^ 64 - 1) (h : roundShiftedFixed tie? significand shift = some m) :
    m = significand / 2 ^ shift ∨ m = significand / 2 ^ shift + 1 := by
  rw [roundShiftedFixed_eq _ h0 h63 hs, Option.map_eq_some_iff] at h
  obtain ⟨up, -, rfl⟩ := h
  split_ifs
  · exact .inr rfl
  · exact .inl rfl

/-! ## The place of the half -/

/-- **The carry goes to the exponent**, and the result is a half. -/
theorem placeHalfFixed_eq {target : ℤ} {k : ℕ} (htarget : target + half.bias = k + 1) (hk : k ≤ 29)
    (hs : half.IsSignificand k m) (hm : m ≤ 2 ^ (half.fractionBits + 1)) :
    placeHalfFixed target m = some (k * 2 ^ half.fractionBits + m) := by
  have hfb : half.fractionBits = 10 := rfl
  unfold IsSignificand at hs
  rw [hfb] at hs hm ⊢
  simp only [placeHalfFixed, Option.bind_eq_bind, hfb]
  rw [shiftLeft_one (by decide), Option.bind_some, htarget]
  by_cases hle : 2 ^ 10 ≤ m
  · obtain ⟨r, rfl⟩ := Nat.exists_eq_add_of_le hle
    have hplaced : (k + 1) * 2 ^ 10 + r = k * 2 ^ 10 + (2 ^ 10 + r) := by ring
    rw [if_pos hle, signed_eq (by omega) (by omega), Option.bind_some,
      unsigned_eq (n := k + 1) (by omega) (by omega), Option.bind_some,
      unsigned_eq (n := r) (by omega) (by omega), Option.bind_some,
      shiftLeft_eq (by decide) (by omega), Option.bind_some, unsigned_natCast (by omega), hplaced]
  · have hk0 : k = 0 := hs.resolve_right hle
    rw [if_neg hle, hk0, zero_mul, zero_add]
    rfl

theorem significand_lt (hf : fraction < 2 ^ double.fractionBits) :
    2 ^ double.fractionBits + fraction < 2 ^ 64 - 1 := by
  rw [show double.fractionBits = 52 from rfl] at hf ⊢
  omega

/-! ## All doubles -/

/-- The steps up to the shift, which is by as many bits as the half's significand is shorter. -/
theorem narrowMagnitudeFixed_eq (tie? : Option Ordering) (h0 : 0 < exponent)
    (hmax : exponent < double.exponentFieldMax) (hf : fraction < 2 ^ double.fractionBits) :
    narrowMagnitudeFixed tie? exponent fraction =
      if greatestNormalHalf < exponent then some half.infinity
      else if 63 < narrowedBits exponent then some 0
      else
        (roundShiftedFixed tie? (2 ^ double.fractionBits + fraction) (narrowedBits exponent)).bind
          fun m => (placeHalfFixed (max (exponent - double.bias) half.minExponent) m).bind
            fun magnitude => unsigned 16 magnitude := by
  have hfb : double.fractionBits = 52 := rfl
  have hfh : half.fractionBits = 10 := rfl
  have hbias : double.bias = 1023 := rfl
  have hfield : double.exponentFieldMax = 2047 := rfl
  have hmaxe : half.maxExponent = 15 := rfl
  have hmine : half.minExponent = -14 := rfl
  have hg : greatestNormalHalf = 1038 := rfl
  have hl : leastNormalHalf = 1009 := rfl
  have hn : narrowedBits exponent = 42 + (leastNormalHalf - exponent) := rfl
  simp only [narrowMagnitudeFixed, Option.bind_eq_bind]
  rw [if_neg hmax.ne, if_neg h0.ne', signed_eq (by omega) (by omega), Option.bind_some,
    signed_eq (by omega) (by omega), Option.bind_some]
  by_cases hgt : greatestNormalHalf < exponent
  · rw [if_pos hgt, if_pos (by omega)]
    rfl
  · rw [if_neg hgt, if_neg (by omega), shiftLeft_one (by decide), Option.bind_some, Nat.or_comm,
      two_pow_or hf, signed_eq (by omega) (by omega), Option.bind_some,
      signed_eq (by omega) (by omega), Option.bind_some,
      unsigned_eq (n := narrowedBits exponent) (by omega) (by omega), Option.bind_some]
    rfl

/-- A double with this exponent field has a place among the halves: it is neither under all of them,
with bits to spare, nor past them. -/
structure HasPlace (exponent : ℕ) : Prop where
  pos : 0 < exponent
  le_greatest : exponent ≤ greatestNormalHalf
  narrowedBits_le : narrowedBits exponent ≤ 63

/-- In its place a half is the rounded significand. -/
theorem HasPlace.narrowMagnitude_eq (h : HasPlace exponent) (tie : Ordering) (fraction : ℕ) :
    narrowMagnitude tie exponent fraction = (exponent - leastNormalHalf) * 2 ^ half.fractionBits +
      roundQuotient tie (2 ^ double.fractionBits + fraction) (2 ^ narrowedBits exponent) := by
  obtain ⟨h0, hle, h63⟩ := h
  have hg : greatestNormalHalf = 1038 := rfl
  have hfield : double.exponentFieldMax = 2047 := rfl
  rw [narrowMagnitude, if_neg (by omega), if_neg (by omega), if_neg (by omega), if_neg (by omega)]

theorem HasPlace.narrowMagnitudeFixed_eq (h : HasPlace exponent) (tie? : Option Ordering)
    (hf : fraction < 2 ^ double.fractionBits) :
    narrowMagnitudeFixed tie? exponent fraction =
      (roundShiftedFixed tie? (2 ^ double.fractionBits + fraction) (narrowedBits exponent)).map
        fun m => (exponent - leastNormalHalf) * 2 ^ half.fractionBits + m := by
  obtain ⟨h0, hle, h63⟩ := h
  have hg : greatestNormalHalf = 1038 := rfl
  have hfield : double.exponentFieldMax = 2047 := rfl
  have hpos : 0 < narrowedBits exponent := Nat.add_pos_left (by decide) _
  obtain ⟨hs, hlt⟩ := isSignificand_narrowed exponent hf
  rw [FloatFormat.narrowMagnitudeFixed_eq tie? h0 (by omega) hf, if_neg (by omega),
    if_neg (by omega)]
  cases h : roundShiftedFixed tie? (2 ^ double.fractionBits + fraction) (narrowedBits exponent) with
  | none => rfl
  | some m =>
    have hm := eq_or_of_roundShiftedFixed hpos h63 (significand_lt hf) h
    have hms : half.IsSignificand (exponent - leastNormalHalf) m := hs.imp_right fun h => by omega
    have hl : leastNormalHalf = 1009 := rfl
    have hk : exponent - leastNormalHalf ≤ 29 := by omega
    have htarget : max ((exponent : ℤ) - double.bias) half.minExponent + half.bias =
        (exponent - leastNormalHalf : ℕ) + 1 := by
      have hbias : double.bias = 1023 := rfl
      have hbiash : half.bias = 15 := rfl
      have hmine : half.minExponent = -14 := rfl
      omega
    have h16 : (exponent - leastNormalHalf) * 2 ^ half.fractionBits + m < 2 ^ 16 := by
      rw [show half.fractionBits = 10 from rfl] at hlt ⊢
      omega
    rw [Option.bind_some, placeHalfFixed_eq htarget hk hms (by omega), Option.bind_some,
      unsigned_natCast h16]
    rfl

/-- Without a place the half is settled before anything is shifted. -/
theorem narrowMagnitudeFixed_of_not_hasPlace (h : ¬HasPlace exponent) (tie? : Option Ordering)
    (tie : Ordering) (he : exponent ≤ double.exponentFieldMax)
    (hf : fraction < 2 ^ double.fractionBits) :
    narrowMagnitudeFixed tie? exponent fraction = some (narrowMagnitude tie exponent fraction) := by
  by_cases hmax : exponent = double.exponentFieldMax
  · rw [narrowMagnitudeFixed, narrowMagnitude, if_pos hmax, if_pos hmax]
    by_cases h0 : fraction = 0
    · rw [if_neg (not_not.mpr h0), if_pos h0]
      rfl
    · rw [if_pos h0, if_neg h0]
      rfl
  by_cases h0 : exponent = 0
  · rw [narrowMagnitudeFixed, narrowMagnitude, if_neg hmax, if_neg hmax, if_pos h0, if_pos h0]
    rfl
  rw [narrowMagnitudeFixed_eq tie? (by omega) (by omega) hf, narrowMagnitude, if_neg hmax,
    if_neg h0]
  by_cases hgt : greatestNormalHalf < exponent
  · rw [if_pos hgt, if_pos hgt]
  · have h63 : 63 < narrowedBits exponent := not_le.mp fun hle => h ⟨by omega, by omega, hle⟩
    rw [if_neg hgt, if_neg hgt, if_pos h63, if_pos h63]

/-- **The magnitude in registers** is the one of unlimited arithmetic, whatever the answer. -/
theorem narrowMagnitudeFixed_some (tie : Ordering) (he : exponent ≤ double.exponentFieldMax)
    (hf : fraction < 2 ^ double.fractionBits) :
    narrowMagnitudeFixed (some tie) exponent fraction =
      some (narrowMagnitude tie exponent fraction) := by
  by_cases h : HasPlace exponent
  · have h0 : 0 < narrowedBits exponent := Nat.add_pos_left (by decide) _
    rw [h.narrowMagnitudeFixed_eq _ hf, roundShiftedFixed_some tie h0 h.narrowedBits_le
      (significand_lt hf), h.narrowMagnitude_eq, Option.map_some]
  · exact narrowMagnitudeFixed_of_not_hasPlace h _ tie he hf

/-- **The question is asked** if the answer counts. -/
theorem narrowMagnitudeFixed_none (he : exponent ≤ double.exponentFieldMax)
    (hf : fraction < 2 ^ double.fractionBits) :
    narrowMagnitudeFixed none exponent fraction = none ↔
      narrowMagnitude .lt exponent fraction ≠ narrowMagnitude .gt exponent fraction := by
  by_cases h : HasPlace exponent
  · have h0 : 0 < narrowedBits exponent := Nat.add_pos_left (by decide) _
    rw [h.narrowMagnitudeFixed_eq _ hf, Option.map_eq_none_iff,
      roundShiftedFixed_none h0 h.narrowedBits_le (significand_lt hf), h.narrowMagnitude_eq,
      h.narrowMagnitude_eq, Ne, Ne, Nat.add_left_cancel_iff]
  · have hgt := narrowMagnitudeFixed_of_not_hasPlace h none .gt he hf
    rw [narrowMagnitudeFixed_of_not_hasPlace h none .lt he hf, Option.some.injEq] at hgt
    rw [narrowMagnitudeFixed_of_not_hasPlace h none .lt he hf, hgt]
    simp

/-! ## Signs -/

variable {bits : ℕ}

/-- The sign moves down by as many bits as a double is wider. -/
theorem and_signBit_half (bits : ℕ) :
    bits / 2 ^ (double.width - half.width) &&& half.signBit =
      half.sign (double.fields bits).negative := by
  have hsign : (half.fields (bits / 2 ^ (double.width - half.width))).negative =
      (double.fields bits).negative := by
    unfold fields
    rw [Nat.div_div_eq_div_mul, ← pow_add]
    rfl
  rw [and_signBit, hsign]

theorem narrowFixed_eq (tie? : Option Ordering) (bits : ℕ) :
    narrowFixed tie? bits =
      (narrowMagnitudeFixed tie? (double.fields bits).exponent (double.fields bits).fraction).map
        (half.sign (double.fields bits).negative ||| ·) := by
  have hlt : half.sign (double.fields bits).negative < 2 ^ 16 := by
    cases (double.fields bits).negative <;> decide
  simp only [narrowFixed, Option.bind_eq_bind]
  rw [shiftRight_eq (by decide), Option.bind_some, and_signBit_half, unsigned_natCast hlt,
    Option.bind_some, shiftRight_eq (by decide), Option.bind_some, exponentFieldMax, fractionMask,
    Nat.and_two_pow_sub_one_eq_mod, Nat.and_two_pow_sub_one_eq_mod, Option.map_eq_bind]
  rfl

/-- No carry reaches the sign bit. -/
theorem narrowMagnitude_lt (tie : Ordering) (he : exponent ≤ double.exponentFieldMax)
    (hf : fraction < 2 ^ double.fractionBits) :
    narrowMagnitude tie exponent fraction < half.signBit := by
  rcases he.lt_or_eq with hlt | heq
  · exact (narrowMagnitude_rounds tie hlt hf).le_infinity.trans_lt half.infinity_lt_signBit
  · rw [narrowMagnitude, if_pos heq]
    split_ifs <;> decide

/-- **Narrowing in registers** is narrowing in unlimited arithmetic. -/
theorem narrowFixed_some (tie : Ordering) (bits : ℕ) :
    narrowFixed (some tie) bits = some (narrow tie bits) := by
  obtain ⟨he, hf⟩ := double.fields_fit bits
  rw [le_fractionMask_iff] at hf
  rw [narrowFixed_eq, narrowMagnitudeFixed_some tie he hf, Option.map_some,
    sign_or _ (narrowMagnitude_lt tie he hf)]
  rfl

/-! ## Correct rounding -/

theorem exponent_lt_of_finite (h : double.magnitude bits < double.infinity) :
    (double.fields bits).exponent < double.exponentFieldMax := by
  rw [magnitude_eq, infinity] at h
  exact Nat.lt_of_mul_lt_mul_right ((Nat.le_add_right _ _).trans_lt h)

/-- A finite double, nudged in any way, is rounded to the half with its sign. -/
theorem narrowMagnitude_fields_rounds (tie : Ordering)
    (h : double.magnitude bits < double.infinity) :
    half.Rounds (beside (double.value (double.magnitude bits)) tie)
      (narrowMagnitude tie (double.fields bits).exponent (double.fields bits).fraction) := by
  rw [magnitude_eq]
  exact narrowMagnitude_rounds tie (exponent_lt_of_finite h) (Nat.mod_lt _ (Nat.two_pow_pos _))

/-- The question is asked on the midpoints, and nowhere else. -/
theorem narrowFixed_none (h : double.magnitude bits < double.infinity) :
    narrowFixed none bits = none ↔
      ∃ k < half.infinity, double.value (double.magnitude bits) = half.midpoint k := by
  obtain ⟨he, hf⟩ := double.fields_fit bits
  rw [le_fractionMask_iff] at hf
  rw [narrowFixed_eq, Option.map_eq_none_iff, narrowMagnitudeFixed_none he hf,
    (isNearestBy_of_rounds fun tie => narrowMagnitude_fields_rounds tie h).ne_iff_exists_midpoint]

/-- **Rounding is monotone in the absolute value.** On the same midpoint the answers must agree. -/
theorem narrowMagnitude_mono {bits' : ℕ} {tie' : Ordering}
    (h : double.magnitude bits < double.infinity) (h' : double.magnitude bits' < double.infinity)
    (hle : double.magnitude bits < double.magnitude bits' ∨
      double.magnitude bits = double.magnitude bits' ∧ tie = tie') :
    narrowMagnitude tie (double.fields bits).exponent (double.fields bits).fraction ≤
      narrowMagnitude tie' (double.fields bits').exponent (double.fields bits').fraction := by
  refine (narrowMagnitude_fields_rounds tie h).mono (narrowMagnitude_fields_rounds tie' h') ?_
  rcases hle with hlt | ⟨heq, htie⟩
  · exact .inl (double.value_strictMono hlt)
  · exact .inr ⟨congrArg _ heq, htie⟩

/-- Infinities and NaNs stay what they are. -/
theorem narrow_nonfinite (tie : Ordering) (h : double.infinity ≤ double.magnitude bits) :
    narrow tie bits = half.sign (double.fields bits).negative + (half.infinity +
      if double.magnitude bits = double.infinity then 0 else 2 ^ (half.fractionBits - 1)) := by
  have hmax := exponent_eq_max h
  have hm : double.magnitude bits = double.infinity + (double.fields bits).fraction := by
    rw [magnitude_eq, hmax, infinity]
  have hiff : double.magnitude bits = double.infinity ↔ (double.fields bits).fraction = 0 := by
    omega
  simp only [narrow, narrowMagnitude, if_pos hmax, hiff]

/-- **Narrowing is correct rounding**, for every double and every answer.

In registers it has a result, which is that of unlimited arithmetic. For a finite double the result
is the sign of the double above a magnitude `h tie` that stays under the sign bit and is nearest to
the absolute value, where infinity counts as 65536. The question is asked just if the absolute value
is a midpoint, and then the answer chooses the magnitude below, the one above, or the even one; with
`.eq` this is rounding to nearest, ties to even. A double with a larger absolute value has no
smaller magnitude. Infinities stay infinities, and NaNs become the quiet one. -/
theorem narrow_nearest (bits : ℕ) :
    half.value half.infinity = 65536 ∧
      (∀ tie, narrowFixed (some tie) bits = some (narrow tie bits)) ∧
      (double.magnitude bits < double.infinity → ∃ h : Ordering → ℕ,
        (∀ tie, narrowMagnitudeFixed (some tie) (double.fields bits).exponent
            (double.fields bits).fraction = some (h tie) ∧ h tie < half.signBit ∧
          narrow tie bits = half.sign (double.fields bits).negative + h tie) ∧
        half.IsNearestBy (double.value (double.magnitude bits)) h ∧
        half.IsNearest (double.value (double.magnitude bits)) (h .eq) ∧
        (narrowFixed none bits = none ↔
          ∃ k < half.infinity, double.value (double.magnitude bits) = half.midpoint k) ∧
        ∀ bits' tie tie', double.magnitude bits' < double.infinity →
          double.magnitude bits < double.magnitude bits' ∨
            double.magnitude bits = double.magnitude bits' ∧ tie = tie' →
          h tie ≤ half.magnitude (narrow tie' bits')) ∧
      (double.infinity ≤ double.magnitude bits → ∀ tie,
        narrow tie bits = half.sign (double.fields bits).negative + (half.infinity +
          if double.magnitude bits = double.infinity then 0 else 2 ^ (half.fractionBits - 1))) := by
  refine ⟨?_, fun tie => narrowFixed_some tie bits, fun h => ?_,
    fun h tie => narrow_nonfinite tie h⟩
  · rw [value_half_infinity]
    norm_num
  obtain ⟨he, hf⟩ := double.fields_fit bits
  rw [le_fractionMask_iff] at hf
  have hr := fun tie => narrowMagnitude_fields_rounds tie h
  refine ⟨_, fun tie => ⟨narrowMagnitudeFixed_some tie he hf, narrowMagnitude_lt tie he hf, rfl⟩,
    isNearestBy_of_rounds hr, ?_, narrowFixed_none h, fun bits' tie tie' h' hle => ?_⟩
  · have heven := hr .eq
    rw [beside_eq_compare] at heven
    exact heven.isNearest
  · obtain ⟨he', hf'⟩ := double.fields_fit bits'
    rw [narrow, magnitude_sign_add _ (narrowMagnitude_lt tie' he' (le_fractionMask_iff.mp hf'))]
    exact narrowMagnitude_mono h h' hle

/-- Half the least half below zero: only the answer tells zero from the least half. -/
theorem narrow_nearest_least :
    narrowFixed none 0xBE60000000000000 = none ∧ narrow .lt 0xBE60000000000000 = 0x8000 ∧
      narrow .gt 0xBE60000000000000 = 0x8001 := by
  obtain ⟨-, -, hfinite, -⟩ := narrow_nearest 0xBE60000000000000
  obtain ⟨h, hsign, hby, -, hasks, -⟩ := hfinite (by decide +kernel)
  have hvalue : double.value (double.magnitude 0xBE60000000000000) = half.midpoint 0 := by
    have hv : double.value (998 * 2 ^ double.fractionBits + 0) =
        (1 + (0 : ℕ) / 2 ^ 52) * 2 ^ ((998 : ℕ) - 1023 : ℤ) :=
      value_double_normal (by decide) (by decide)
    rw [show double.magnitude 0xBE60000000000000 = 998 * 2 ^ double.fractionBits + 0 by decide, hv,
      midpoint_half_zero]
    norm_num
  have hpos : 0 < half.infinity := half.infinity_pos
  have hnegative : half.sign (double.fields 0xBE60000000000000).negative = 0x8000 := by
    decide +kernel
  refine ⟨hasks.mpr ⟨0, hpos, hvalue⟩, ?_, ?_⟩
  · rw [(hsign .lt).2.2, hby.down 0 hpos hvalue, hnegative]
  · rw [(hsign .gt).2.2, hby.up 0 hpos hvalue, hnegative]

end LiteralCodec.FloatFormat
