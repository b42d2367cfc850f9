import LiteralCodec.Proofs.Outcome
import LiteralCodec.Proofs.Words

/-!
# Packing and unpacking

A value that fits its type has a pattern, and the words that are packed are those of the extended
pattern. Unpacking accepts just these words and gives the value of the pattern, which has that
pattern.

Results:
* `integerBits?_eq`: an integer in range has its two's complement as its pattern.
* `split_extend_int`, `split_extend_float`: what the words hold.
* `toBits_cases`: a value has a pattern, or is out of range, or is no value for the type.
* `unpack_eq_ok`: words that are unpacked are those of a pattern.
* `toBits_ofBits`: the value of a pattern has that pattern.
-/

namespace LiteralCodec

namespace Bits

theorem toInt_ofInt {width : ℕ} {x : ℤ} (hw : 0 < width) (hlo : -2 ^ (width - 1) ≤ x)
    (hhi : x < 2 ^ (width - 1)) : toInt width (ofInt width x) = x := by
  have hpos : (0 : ℤ) < (2 ^ width : ℕ) := by positivity
  refine (toInt_eq_iff hw).mpr ⟨hlo, hhi, ?_⟩
  rw [ofInt, Int.toNat_of_nonneg (Int.emod_nonneg x hpos.ne')]
  push_cast
  exact (Int.mod_modEq x _).symm

theorem ofInt_toInt {width bits : ℕ} (h : bits < 2 ^ width) :
    ofInt width (toInt width bits) = bits := by
  rw [ofInt, toInt, Int.bmod_emod, ← Int.natCast_mod, Int.toNat_natCast, Nat.mod_eq_of_lt h]

theorem ofInt_natCast {width n : ℕ} (h : n < 2 ^ width) : ofInt width n = n := by
  rw [ofInt, ← Int.natCast_mod, Int.toNat_natCast, Nat.mod_eq_of_lt h]

theorem ofInt_lt (width : ℕ) (x : ℤ) : ofInt width x < 2 ^ width := by
  have hpos : (0 : ℤ) < (2 ^ width : ℕ) := by positivity
  rw [ofInt, Int.toNat_lt (Int.emod_nonneg x hpos.ne')]
  exact Int.emod_lt_of_pos x hpos

theorem toInt_bounds {width : ℕ} (hw : 0 < width) (bits : ℕ) :
    -2 ^ (width - 1) ≤ toInt width bits ∧ toInt width bits ≤ 2 ^ (width - 1) - 1 := by
  obtain ⟨hlo, hhi, -⟩ := (toInt_eq_iff hw).mp rfl
  exact ⟨hlo, by omega⟩

end Bits

namespace Value

/-! ## Packing -/

theorem pack_of_toBits {value : Value} {ty : NumericType} {pattern : ℕ}
    (h : value.toBits ty = .ok pattern) :
    value.pack ty = .ok (Word.split (extend ty pattern) ty.wordCount) := by
  rw [pack, h]
  rfl

/-- **Words that are packed** are those of the pattern of the value. -/
theorem pack_eq_ok {value : Value} {ty : NumericType} {words : List Word} :
    value.pack ty = .ok words ↔
      ∃ pattern, value.toBits ty = .ok pattern ∧
        Word.split (extend ty pattern) ty.wordCount = words := by
  rw [pack, bind_eq_ok]
  simp only [pure, Except.pure, Except.ok.injEq]

/-- Packing fails only where there is no pattern. -/
theorem pack_eq_error {value : Value} {ty : NumericType} {e : PackError} :
    value.pack ty = .error e ↔ value.toBits ty = .error e := by
  rw [pack, bind_eq_error]
  simp [pure, Except.pure]

theorem wordCount_le (ty : NumericType) : 32 * ty.wordCount ≤ Bits.maxWidth := by
  have := ty.width_le
  unfold NumericType.wordCount Word.count Bits.maxWidth at *
  omega

theorem width_le_wordCount (ty : NumericType) : ty.width ≤ 32 * ty.wordCount := by
  unfold NumericType.wordCount Word.count
  omega

/-- **The words of an integer type** hold the integer with that pattern. -/
theorem split_extend_int {isSigned : Bool} {width : ℕ} {pos : 0 < width}
    {le : width ≤ Bits.maxWidth}
    (pattern : ℕ) :
    Word.split (extend (.int isSigned width pos le) pattern)
        (NumericType.int isSigned width pos le).wordCount =
      Word.ofInt (Word.count width) (if isSigned then Bits.toInt width pattern else pattern) := by
  have hc := wordCount_le (.int isSigned width pos le)
  cases isSigned with
  | true =>
    simp only [extend, NumericType.signExtends, if_true, NumericType.width]
    rw [Bits.signExtend_eq pos le, Word.split_bits_ofInt hc]
    rfl
  | false =>
    simp only [extend, NumericType.signExtends, Bool.false_eq_true, if_false]
    exact Word.split_eq _ _

/-- The words of a floating point type hold the pattern. -/
theorem split_extend_float (format : FloatFormat) (pattern : ℕ) :
    Word.split (extend (.float format) pattern) (NumericType.float format).wordCount =
      Word.ofInt (Word.count format.width) pattern :=
  Word.split_eq _ _

theorem integerBits?_eq (isSigned : Bool) (width : ℕ) (x : ℤ) :
    integerBits? isSigned width x =
      if NumericType.least isSigned width ≤ x ∧ x ≤ NumericType.greatest isSigned width then
        some (Bits.ofInt width x)
      else none := rfl

/-! ## Values with a pattern -/

/-- A number of an integer type has a pattern, or is out of range. -/
theorem elim_integerBits? {isSigned : Bool} {width : ℕ} {x : ℤ} {e : PackError} :
    (∃ pattern < 2 ^ width,
        (integerBits? isSigned width x).elim (.error e) Except.ok = .ok pattern) ∨
      (integerBits? isSigned width x).elim (.error e) Except.ok = .error e := by
  rw [integerBits?_eq]
  split_ifs
  · exact .inl ⟨_, Bits.ofInt_lt _ _, rfl⟩
  · exact .inr rfl

/-- A value has a pattern of the width of the type, or it is out of range; only an integer for a
floating point type is something else. -/
theorem toBits_cases (value : Value) (ty : NumericType) :
    (∃ pattern < 2 ^ ty.width, value.toBits ty = .ok pattern) ∨
      value.toBits ty = .error (.outOfRange value ty) ∨
      ((∃ f, ty = .float f) ∧ (∀ pattern, value ≠ .bits pattern) ∧
        value.toBits ty = .error (.notAnInteger value ty)) := by
  cases value with
  | bits pattern =>
    by_cases h : pattern < 2 ^ ty.width
    · exact .inl ⟨pattern, h, if_pos h⟩
    · exact .inr (.inl (if_neg h))
  | unsigned n =>
    cases ty with
    | float f => exact .inr (.inr ⟨⟨f, rfl⟩, by simp, rfl⟩)
    | int isSigned width pos le => exact Or.imp_right Or.inl elim_integerBits?
  | signed n =>
    cases ty with
    | float f => exact .inr (.inr ⟨⟨f, rfl⟩, by simp, rfl⟩)
    | int isSigned width pos le => exact Or.imp_right Or.inl elim_integerBits?

/-- The pattern of a value has the width of the type. -/
theorem toBits_lt {value : Value} {ty : NumericType} {pattern : ℕ}
    (h : value.toBits ty = .ok pattern) : pattern < 2 ^ ty.width := by
  rcases toBits_cases value ty with ⟨p, hp, he⟩ | he | ⟨-, -, he⟩ <;> rw [he] at h <;> cases h
  exact hp

/-- A value is refused for its range, if it is not an integer for a floating point type. -/
theorem toBits_eq_error {value : Value} {ty : NumericType} {e : PackError}
    (hv : ∀ f, ty = .float f → ∃ pattern, value = .bits pattern)
    (h : value.toBits ty = .error e) : e = .outOfRange value ty := by
  rcases toBits_cases value ty with ⟨_, _, he⟩ | he | ⟨⟨f, hf⟩, hbits, -⟩
  · rw [he] at h
    cases h
  · rw [he] at h
    cases h
    rfl
  · obtain ⟨pattern, hp⟩ := hv f hf
    exact absurd hp (hbits pattern)

/-! ## Unpacking -/

theorem extend_mod {ty : NumericType} {pattern : ℕ} (h : pattern < 2 ^ ty.width) :
    extend ty pattern % 2 ^ ty.width = pattern := by
  unfold extend
  split_ifs
  · have hdvd : (2 ^ ty.width : ℕ) ∣ 2 ^ Bits.maxWidth := pow_dvd_pow 2 ty.width_le
    have hpos : (0 : ℤ) < (2 ^ Bits.maxWidth : ℕ) := by positivity
    have hz : ((Bits.ofInt Bits.maxWidth (Bits.toInt ty.width pattern) % 2 ^ ty.width : ℕ) : ℤ) =
        pattern := by
      rw [Bits.ofInt, Int.natCast_mod, Int.toNat_of_nonneg (Int.emod_nonneg _ hpos.ne'),
        Int.emod_emod_of_dvd _ (by exact_mod_cast hdvd), Bits.toInt, Int.bmod_emod,
        ← Int.natCast_mod, Nat.mod_eq_of_lt h]
    rw [Bits.signExtend_eq ty.width_pos ty.width_le]
    exact_mod_cast hz
  · exact Nat.mod_eq_of_lt h

/-- **Words that are unpacked** are the words of a pattern. -/
theorem unpack_eq_ok {words : List Word} {ty : NumericType} {value : Value} :
    unpack words ty = .ok value ↔
      ∃ pattern < 2 ^ ty.width, value = ofBits ty pattern ∧
        words = Word.split (extend ty pattern) ty.wordCount := by
  constructor
  · intro h
    simp only [unpack] at h
    split_ifs at h with hl hs
    rw [Except.ok.injEq] at h
    refine ⟨_, Nat.mod_lt _ (Nat.two_pow_pos _), h.symm, ?_⟩
    calc words = Word.split (Word.join words) ty.wordCount := by rw [← hl, Word.split_join]
      _ = _ := by rw [← Word.split_mod (extend ty _), ← hs]
  · rintro ⟨pattern, hlt, rfl, rfl⟩
    have hle := Nat.pow_le_pow_right (n := 2) (by omega) (width_le_wordCount ty)
    have hdvd : 2 ^ ty.width ∣ 2 ^ (32 * ty.wordCount) := pow_dvd_pow 2 (width_le_wordCount ty)
    have hmod : extend ty pattern % 2 ^ (32 * ty.wordCount) % 2 ^ ty.width = pattern := by
      rw [Nat.mod_mod_of_dvd _ hdvd, extend_mod hlt]
    simp only [unpack, Word.length_split, if_true, Word.join_split, hmod]

/-- The integer with a pattern lies in the range of its type. -/
theorem range_of_pattern {isSigned : Bool} {width pattern : ℕ} (pos : 0 < width)
    (h : pattern < 2 ^ width) :
    NumericType.least isSigned width ≤ (if isSigned then Bits.toInt width pattern else pattern) ∧
      (if isSigned then Bits.toInt width pattern else pattern) ≤
        NumericType.greatest isSigned width := by
  cases isSigned with
  | true => exact Bits.toInt_bounds pos pattern
  | false =>
    have hz : (pattern : ℤ) < 2 ^ width := by exact_mod_cast h
    simp only [NumericType.least, NumericType.greatest, Bool.false_eq_true, if_false]
    omega

theorem integerBits?_pattern (isSigned : Bool) {width pattern : ℕ} (pos : 0 < width)
    (h : pattern < 2 ^ width) :
    integerBits? isSigned width (if isSigned then Bits.toInt width pattern else pattern) =
      some pattern := by
  rw [integerBits?_eq, if_pos (range_of_pattern pos h)]
  cases isSigned with
  | true => exact congrArg some (Bits.ofInt_toInt h)
  | false => exact congrArg some (Bits.ofInt_natCast h)

/-- The value of a pattern has that pattern. -/
theorem toBits_ofBits {ty : NumericType} {pattern : ℕ} (h : pattern < 2 ^ ty.width) :
    (ofBits ty pattern).toBits ty = .ok pattern := by
  cases ty with
  | float format => exact if_pos h
  | int isSigned width pos le =>
    cases isSigned with
    | true =>
      have hi : integerBits? true width (Bits.toInt width pattern) = some pattern :=
        integerBits?_pattern true pos h
      simp only [ofBits, toBits, hi, Option.elim]
    | false =>
      have hi : integerBits? false width pattern = some pattern :=
        integerBits?_pattern false pos h
      simp only [ofBits, toBits, hi, Option.elim]

end Value

end LiteralCodec
