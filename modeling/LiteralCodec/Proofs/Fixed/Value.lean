import LiteralCodec.Fixed.Value
import LiteralCodec.Proofs.Fixed.Word
import Mathlib.Data.Nat.Bitwise

/-!
# Values in fixed widths are the same

The masks and bounds of packing say what the ranges of the types say. Bits that do not meet the
complement of a mask of low ones are those of a number under the next power of two. Half of a mask
is the greatest number of a signed type. The bounds of a number with a sign are found by a shift
that has room for its bit in all types but the widest, whose range is that of the register.

Results:
* `Value.toBitsFixed_eq`: the pattern of a value.
* `Value.packFixed_eq`, `Value.unpackFixed_eq`: packing and unpacking stay within their widths.
-/

namespace LiteralCodec

open Fixed (Checked complement unsigned_eq unsigned_natCast signed_eq shiftLeft_one shiftRight_eq
  lowOnes_eq lift_some_bind run_bind_eq)

/-! ## Masks -/

/-- What does not meet the complement of a mask is under the mask. -/
theorem Fixed.and_complement {width k n : ℕ} (hk : k ≤ width) (hn : n < 2 ^ width) :
    n &&& complement width (2 ^ k - 1) = 0 ↔ n < 2 ^ k := by
  have hpow : 2 ^ k ≤ 2 ^ width := Nat.pow_le_pow_right two_pos hk
  have hpos := Nat.two_pow_pos k
  have hmask : complement width (2 ^ k - 1) = 2 ^ width - (2 ^ k - 1 + 1) := by
    unfold complement
    omega
  have hbit (i : ℕ) : (n &&& complement width (2 ^ k - 1)).testBit i =
      (n.testBit i && !decide (i < k)) := by
    rw [Nat.testBit_and, hmask, Nat.testBit_two_pow_sub_succ (by omega),
      Nat.testBit_two_pow_sub_one]
    by_cases hi : i < width
    · rw [decide_eq_true hi, Bool.true_and]
    · have hlow : n.testBit i = false :=
        Nat.testBit_lt_two_pow (hn.trans_le (Nat.pow_le_pow_right two_pos (not_lt.mp hi)))
      rw [hlow, Bool.false_and, Bool.false_and]
  constructor
  · intro h
    refine Nat.lt_pow_two_of_testBit n fun i hi => ?_
    have hzero := hbit i
    rwa [h, Nat.zero_testBit, decide_eq_false (not_lt.mpr hi), Bool.not_false, Bool.and_true,
      eq_comm] at hzero
  · intro h
    refine Nat.eq_of_testBit_eq fun i => ?_
    rw [hbit, Nat.zero_testBit]
    by_cases hi : i < k
    · rw [decide_eq_true hi, Bool.not_true, Bool.and_false]
    · have hlow : n.testBit i = false :=
        Nat.testBit_lt_two_pow (h.trans_le (Nat.pow_le_pow_right two_pos (not_lt.mp hi)))
      rw [hlow, Bool.false_and]

namespace Bits

variable {width : ℕ}

theorem lowMask_eq (hle : width ≤ maxWidth) : lowMask width = 2 ^ width - 1 := by
  rw [lowMask, min_eq_left hle]

theorem lowMaskFixed_eq (width : ℕ) : lowMaskFixed width = some (lowMask width) := by
  unfold lowMaskFixed lowMask
  by_cases h : maxWidth ≤ width
  · rw [if_pos h, min_eq_right h]
  · rw [if_neg h, lowOnes_eq (not_le.mp h), min_eq_left (not_le.mp h).le]

/-- Masking takes a remainder. -/
theorem and_lowMask (hle : width ≤ maxWidth) (n : ℕ) : n &&& lowMask width = n % 2 ^ width := by
  rw [lowMask_eq hle, Nat.and_two_pow_sub_one_eq_mod]

/-- The pattern of an integer, cut out of its widest pattern. -/
theorem ofInt_and_lowMask (hle : width ≤ maxWidth) (x : ℤ) :
    ofInt maxWidth x &&& lowMask width = ofInt width x := by
  have hdvd : ((2 ^ width : ℕ) : ℤ) ∣ (2 ^ maxWidth : ℕ) := by exact_mod_cast pow_dvd_pow 2 hle
  have hnn : 0 ≤ x % (2 ^ maxWidth : ℕ) := Int.emod_nonneg x (by positivity)
  have hnn' : 0 ≤ x % (2 ^ width : ℕ) := Int.emod_nonneg x (by positivity)
  rw [and_lowMask hle]
  zify
  rw [ofInt, ofInt, Int.toNat_of_nonneg hnn, Int.toNat_of_nonneg hnn',
    ← Int.emod_emod_of_dvd x hdvd]
  norm_cast

end Bits

namespace Value

variable {ty : NumericType} {value : Value} {words : List Word}

/-! ## Ranges -/

/-- **The range of a number without a sign**, from the mask of its type. -/
theorem greatestFixed_eq (isSigned : Bool) {width : ℕ} (pos : 0 < width)
    (hle : width ≤ Bits.maxWidth) : ∃ g < 2 ^ width,
      greatestFixed isSigned width = some g ∧ (g : ℤ) = NumericType.greatest isSigned width := by
  have hpos := Nat.two_pow_pos (width - 1)
  have hp : 2 ^ width = 2 * 2 ^ (width - 1) := by rw [← pow_succ', Nat.sub_add_cancel pos]
  rw [greatestFixed, Bits.lowMaskFixed_eq, Bits.lowMask_eq hle, Option.bind_eq_bind,
    Option.bind_some]
  cases isSigned with
  | true =>
    rw [if_pos rfl, shiftRight_eq (by decide)]
    refine ⟨_, by omega, rfl, ?_⟩
    have hhalf : (2 ^ width - 1) / 2 ^ 1 = 2 ^ (width - 1) - 1 := by omega
    rw [hhalf, NumericType.greatest, if_pos rfl, Nat.cast_sub hpos]
    norm_cast
  | false =>
    refine ⟨2 ^ width - 1, by omega, rfl, ?_⟩
    rw [NumericType.greatest, if_neg Bool.false_ne_true, Nat.cast_sub (Nat.two_pow_pos width)]
    norm_cast

/-- **The range of a number with a sign**, from its register. -/
theorem inRangeFixed_eq (isSigned : Bool) {width : ℕ} {x : ℤ} (pos : 0 < width)
    (hle : width ≤ Bits.maxWidth) (hx : (signed x).InRegister) :
    inRangeFixed isSigned width x =
      some (decide (NumericType.least isSigned width ≤ x ∧
        x ≤ NumericType.greatest isSigned width)) := by
  obtain ⟨hlo, hhi⟩ := hx
  simp only [inRangeFixed, Bits.lowMaskFixed_eq, Bits.lowMask_eq hle, Option.bind_eq_bind,
    Option.bind_some, Option.pure_def]
  cases isSigned with
  | false =>
    -- below zero the pattern of the number is not looked at
    have hmask : 0 ≤ x → (Bits.ofInt Bits.maxWidth x ≤ 2 ^ width - 1 ↔ x ≤ 2 ^ width - 1) := by
      intro hnn
      obtain ⟨n, rfl⟩ := Int.eq_ofNat_of_zero_le hnn
      have hn : n < 2 ^ Bits.maxWidth := by
        have : (2 : ℤ) ^ (Bits.maxWidth - 1) ≤ 2 ^ Bits.maxWidth :=
          pow_le_pow_right₀ (by omega) (by omega)
        zify
        omega
      have hcast : ((2 ^ width : ℕ) : ℤ) = 2 ^ width := Nat.cast_pow 2 width
      have hpos := Nat.two_pow_pos width
      rw [Bits.ofInt_natCast hn]
      omega
    rw [Bool.not_false, if_pos rfl, NumericType.least, NumericType.greatest,
      if_neg Bool.false_ne_true, if_neg Bool.false_ne_true, Bool.decide_and]
    by_cases hnn : 0 ≤ x
    · rw [decide_eq_true hnn, Bool.true_and, Bool.true_and, decide_eq_decide.mpr (hmask hnn)]
    · rw [decide_eq_false hnn, Bool.false_and, Bool.false_and]
  | true =>
    rw [Bool.not_true, if_neg Bool.false_ne_true, NumericType.least, NumericType.greatest,
      if_pos rfl, if_pos rfl]
    by_cases hwide : width = Bits.maxWidth
    · subst hwide
      rw [if_pos rfl, decide_eq_true ⟨hlo, by omega⟩]
    · -- the bound has room below the sign bit of the register
      have hmax : Bits.maxWidth = 128 := rfl
      have hroom : ((2 ^ (width - 1) : ℕ) : ℤ) < (2 ^ (Bits.maxWidth - 1) : ℕ) := by
        exact_mod_cast Nat.pow_lt_pow_right (by decide) (by omega)
      have hpos : (0 : ℤ) ≤ (2 ^ (width - 1) : ℕ) := Int.natCast_nonneg _
      have hneg : (-(2 ^ (width - 1) : ℕ) : ℤ) ≤ 0 := neg_nonpos.mpr hpos
      have hbound : (-(2 ^ (Bits.maxWidth - 1) : ℕ) : ℤ) ≤ -(2 ^ (width - 1) : ℕ) :=
        neg_le_neg hroom.le
      have hcast : ((2 ^ (width - 1) : ℕ) : ℤ) = 2 ^ (width - 1) := Nat.cast_pow 2 (width - 1)
      rw [if_neg hwide, unsigned_eq (n := width - 1) (by omega) (by omega), Option.bind_some,
        shiftLeft_one (by omega), Option.bind_some,
        signed_eq ((hbound.trans hneg).trans hpos) hroom, Option.bind_some,
        signed_eq hbound (hneg.trans_lt (hpos.trans_lt hroom)), Option.bind_some, hcast,
        ← Bool.decide_and]
      congr 2
      exact propext (and_congr_right fun _ => by omega)

/-! ## Patterns -/

/-- **The pattern of a value**, or why it has none. -/
theorem toBitsFixed_eq (h : value.InRegister) :
    (value.toBitsFixed ty).run = some (value.toBits ty) := by
  rw [toBitsFixed, Bits.lowMaskFixed_eq, lift_some_bind]
  cases value with
  | bits pattern =>
    have hand := Fixed.and_complement ty.width_le h
    rw [← Bits.lowMask_eq ty.width_le] at hand
    unfold toBits
    by_cases hfits : pattern < 2 ^ ty.width
    · simp only [if_pos (hand.mpr hfits), if_pos hfits]
      rfl
    · simp only [if_neg (mt hand.mp hfits), if_neg hfits]
      rfl
  | unsigned n =>
    cases ty with
    | float format => rfl
    | int isSigned width pos le =>
      obtain ⟨g, hlt, hg, hgreatest⟩ := greatestFixed_eq isSigned pos le
      have hleast : NumericType.least isSigned width ≤ n := by
        have : (0 : ℤ) < 2 ^ (width - 1) := by positivity
        unfold NumericType.least
        split_ifs <;> omega
      have hfits : (unsigned n).Fits (.int isSigned width pos le) ↔ n ≤ g := by
        rw [Fits, NumericType.HasInteger, ← hgreatest, and_iff_right hleast, Nat.cast_le]
      simp only [hg, lift_some_bind]
      by_cases hn : n ≤ g
      · rw [if_pos hn, toBits_of_fits (hfits.mpr hn), number, NumericType.width,
          Bits.ofInt_natCast (hn.trans_lt hlt)]
        rfl
      · rw [if_neg hn, toBits_of_not_fits (mt hfits.mp hn)]
        rfl
  | signed x =>
    cases ty with
    | float format => rfl
    | int isSigned width pos le =>
      simp only [inRangeFixed_eq isSigned pos le h, lift_some_bind, decide_eq_true_eq]
      by_cases hrange :
          NumericType.least isSigned width ≤ x ∧ x ≤ NumericType.greatest isSigned width
      · have hfits : (signed x).Fits (.int isSigned width pos le) := hrange
        rw [toBits_of_fits hfits, number, NumericType.width, if_pos hrange,
          Bits.ofInt_and_lowMask le]
        rfl
      · have hfits : ¬(signed x).Fits (.int isSigned width pos le) := hrange
        rw [toBits_of_not_fits hfits, if_neg hrange]
        rfl

/-! ## Words -/

theorem extendFixed_eq (ty : NumericType) (pattern : ℕ) :
    extendFixed ty pattern = some (extend ty pattern) := by
  unfold extendFixed extend
  rw [Bits.signExtendFixed_eq ty.width_pos ty.width_le]
  split_ifs <;> rfl

theorem countFixed_eq_wordCount (ty : NumericType) :
    Word.countFixed ty.width = some ty.wordCount :=
  Word.countFixed_eq ty.width_le

/-- **Packing** stays within its widths. -/
theorem packFixed_eq (h : value.InRegister) : (value.packFixed ty).run = some (value.pack ty) := by
  refine run_bind_eq (toBitsFixed_eq h) fun pattern _ => ?_
  have hcount : ty.wordCount ≤ Word.maxCount := Word.count_le ty.width_le
  rw [extendFixed_eq, lift_some_bind, countFixed_eq_wordCount, lift_some_bind,
    Word.splitFixed_eq _ hcount]
  rfl

/-- What packing would have stored. -/
theorem canonicalFixed_eq {pattern : ℕ} (h : pattern < 2 ^ ty.width) :
    canonicalFixed ty pattern = some (extend ty pattern % 2 ^ (32 * ty.wordCount)) := by
  have hmax : Bits.maxWidth = 128 := rfl
  have hle := wordCount_le ty
  rw [canonicalFixed, countFixed_eq_wordCount, Option.bind_eq_bind, Option.bind_some,
    unsigned_natCast (by omega), Option.bind_some, Bits.lowMaskFixed_eq,
    Bits.signExtendFixed_eq ty.width_pos ty.width_le, extend, mul_comm]
  cases ty.signExtends with
  | true =>
    rw [if_pos rfl, if_pos rfl, Option.bind_some, Option.bind_some, Bits.and_lowMask hle]
    rfl
  | false =>
    have hlt : pattern < 2 ^ (32 * ty.wordCount) :=
      h.trans_le (Nat.pow_le_pow_right two_pos (width_le_wordCount ty))
    rw [if_neg Bool.false_ne_true, if_neg Bool.false_ne_true, Nat.mod_eq_of_lt hlt]
    rfl

theorem ofBitsFixed_eq (ty : NumericType) (pattern : ℕ) :
    ofBitsFixed ty pattern = some (ofBits ty pattern) := by
  cases ty with
  | float format => rfl
  | int isSigned width pos le =>
    cases isSigned with
    | false => rfl
    | true =>
      rw [ofBitsFixed, Bits.signExtendFixed_eq pos le, ofBits, Option.bind_eq_bind,
        Option.bind_some, Bits.toInt_signExtend pos le]
      rfl

/-- **Unpacking** stays within its widths. -/
theorem unpackFixed_eq (words : List Word) (ty : NumericType) :
    (unpackFixed words ty).run = some (unpack words ty) := by
  rw [unpackFixed, countFixed_eq_wordCount, lift_some_bind]
  unfold unpack
  by_cases hlength : words.length = ty.wordCount
  · have hcount : words.length ≤ Word.maxCount := hlength ▸ Word.count_le ty.width_le
    have hlt : Word.join words % 2 ^ ty.width < 2 ^ ty.width := Nat.mod_lt _ (Nat.two_pow_pos _)
    rw [if_pos hlength, if_pos hlength, Word.joinFixed_eq hcount, lift_some_bind,
      Bits.lowMaskFixed_eq, lift_some_bind, Bits.and_lowMask ty.width_le]
    dsimp only
    rw [canonicalFixed_eq hlt, lift_some_bind, ofBitsFixed_eq]
    split_ifs <;> rfl
  · rw [if_neg hlength, if_neg hlength]
    rfl

end Value

end LiteralCodec
