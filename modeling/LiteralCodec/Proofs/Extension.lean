import LiteralCodec.Proofs.Value

/-!
# The bits above the width

The words of a type may have more bits than the type is wide. Words are **extended** if each of the
bits above the width is what the type puts there: the sign bit in a signed integer type, and zero in
all others. This is said of single bits, wherever the width ends in a word, and it is what unpacking
asks of as many words as the type has.

Results:
* `Word.testBit_join`, `Word.bit_split_of_lt`: the bits of words are those of their pattern.
* `Value.testBit_extend`: the bits of an extended pattern.
* `Value.unpack_of_extended`, `Value.unpack_of_not_extended`, `Value.unpack_of_length_ne`: what
  unpacking makes of words.
-/

namespace LiteralCodec

/-! ## Bits of words -/

namespace Word

/-- The bit with an index, counted from the lowest bit of the first word. There are none behind the
last word. -/
def bit (words : List Word) (i : ℕ) : Bool := (words.getD (i / 32) 0).getLsbD (i % 32)

theorem testBit_join (words : List Word) (i : ℕ) : (join words).testBit i = bit words i := by
  induction words generalizing i with
  | nil => simp [join, bit]
  | cons w words ih =>
    rw [join, add_comm, Nat.testBit_two_pow_mul_add _ w.isLt]
    split_ifs with h
    · rw [bit, Nat.div_eq_of_lt h, Nat.mod_eq_of_lt h, List.getD_cons_zero, BitVec.testBit_toNat]
    · obtain ⟨j, rfl⟩ := Nat.exists_eq_add_of_le (not_lt.mp h)
      rw [Nat.add_sub_cancel_left, ih, bit, bit, Nat.add_div_left _ (by decide),
        Nat.add_mod_left, List.getD_cons_succ]

/-- Words that are enough for a pattern have its bits. -/
theorem bit_split_of_lt {width bits : ℕ} (h : bits < 2 ^ width) (i : ℕ) :
    bit (split bits (count width)) i = bits.testBit i := by
  rw [← testBit_join, join_split_of_lt h]

theorem bit_of_le {words : List Word} {i : ℕ} (h : 32 * words.length ≤ i) :
    bit words i = false := by
  rw [bit, List.getD_eq_getElem?_getD, List.getElem?_eq_none (by omega), Option.getD_none]
  exact BitVec.getLsbD_zero

/-- Every bit above the width is the sign bit in a signed integer type, and zero in all others. -/
def IsExtended (ty : NumericType) (words : List Word) : Prop :=
  ∀ i < 32 * words.length, ty.width ≤ i →
    bit words i = (ty.signExtends && bit words (ty.width - 1))

instance (ty : NumericType) (words : List Word) : Decidable (IsExtended ty words) :=
  inferInstanceAs (Decidable (∀ i < _, _ → _))

end Word

/-! ## Bits of extended patterns -/

/-- **Sign extension, bit by bit.** -/
theorem Bits.testBit_signExtend {width i : ℕ} (pos : 0 < width) (le : width ≤ maxWidth)
    (hi : i < maxWidth) (bits : ℕ) :
    (signExtend bits width).testBit i = bits.testBit (if i < width then i else width - 1) := by
  rw [signExtend, BitVec.testBit_toNat, BitVec.getLsbD_sshiftRight, BitVec.msb_eq_getLsbD_last,
    BitVec.getLsbD_shiftLeft, BitVec.getLsbD_shiftLeft, BitVec.getLsbD_ofNat, BitVec.getLsbD_ofNat]
  have hlast : maxWidth - 1 - (maxWidth - width) = width - 1 := by omega
  split_ifs with h₁ h₂ h₂
  · have hsub : maxWidth - width + i - (maxWidth - width) = i := by omega
    simp [hsub, hi, h₁]
  · omega
  · omega
  · have h₃ : ¬maxWidth - 1 < maxWidth - width := by omega
    have h₄ : maxWidth - 1 < maxWidth := by omega
    have h₅ : width - 1 < maxWidth := by omega
    simp [hlast, hi, h₃, h₄, h₅]

namespace Value

variable {ty : NumericType} {words : List Word}

theorem testBit_extend (stored : ℕ) {i : ℕ} (hi : i < Bits.maxWidth) :
    (extend ty (stored % 2 ^ ty.width)).testBit i =
      if i < ty.width then stored.testBit i
      else (ty.signExtends && stored.testBit (ty.width - 1)) := by
  have pos := ty.width_pos
  unfold extend
  cases ty.signExtends with
  | true =>
    rw [if_pos rfl, Bits.testBit_signExtend pos ty.width_le hi, Nat.testBit_mod_two_pow]
    split_ifs with h
    · rw [decide_eq_true h, Bool.true_and]
    · rw [decide_eq_true (by omega), Bool.true_and]
  | false =>
    rw [if_neg (by decide), Nat.testBit_mod_two_pow]
    split_ifs with h
    · rw [decide_eq_true h, Bool.true_and]
    · rw [decide_eq_false h, Bool.false_and, Bool.false_and]

/-- **Words are extended** if their pattern is what the bits of the width are extended to. -/
theorem isExtended_iff (h : words.length = ty.wordCount) :
    Word.IsExtended ty words ↔
      Word.join words =
        extend ty (Word.join words % 2 ^ ty.width) % 2 ^ (32 * ty.wordCount) := by
  have hle := wordCount_le ty
  constructor
  · intro hext
    refine Nat.eq_of_testBit_eq fun i => ?_
    rw [Nat.testBit_mod_two_pow]
    by_cases hi : i < 32 * ty.wordCount
    · rw [decide_eq_true hi, Bool.true_and, testBit_extend _ (hi.trans_le hle)]
      split_ifs with hw
      · rfl
      · simp only [Word.testBit_join]
        exact hext i (h ▸ hi) (not_lt.mp hw)
    · rw [decide_eq_false hi, Bool.false_and, Word.testBit_join]
      exact Word.bit_of_le (by omega)
  · intro heq i hi hw
    have hi' : i < 32 * ty.wordCount := h ▸ hi
    have hbit := congrArg (·.testBit i) heq
    simp only [Nat.testBit_mod_two_pow, decide_eq_true hi', Bool.true_and,
      testBit_extend _ (hi'.trans_le hle), if_neg (not_lt.mpr hw), Word.testBit_join] at hbit
    exact hbit

/-! ## Unpacking -/

theorem unpack_of_extended (h : words.length = ty.wordCount) (hext : Word.IsExtended ty words) :
    unpack words ty = .ok (ofBits ty (Word.join words % 2 ^ ty.width)) := by
  simp only [unpack, if_pos h, if_pos ((isExtended_iff h).mp hext)]

theorem unpack_of_not_extended (h : words.length = ty.wordCount)
    (hext : ¬Word.IsExtended ty words) :
    unpack words ty = .error (.nonCanonicalPadding words ty) := by
  simp only [unpack, if_pos h, if_neg (mt (isExtended_iff h).mpr hext)]

theorem unpack_of_length_ne (h : words.length ≠ ty.wordCount) :
    unpack words ty = .error (.wordCountMismatch ty.wordCount words.length) := by
  simp only [unpack, if_neg h]

end Value

end LiteralCodec
