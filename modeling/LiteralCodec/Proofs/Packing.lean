import LiteralCodec.Proofs.Value

/-!
# Canonical words

A value denotes a number, and so do words: read as one number of all their bits, low-order word
first, in two's complement where the type is signed. Packing takes the values that fit the type, and
its words denote the number of the value. They are the only words that are unpacked, and packing
what is unpacked gives them again.

Results:
* `Bits.ofInt_eq`: an integer in range is read back from its pattern.
* `Word.number_ofInt`: the words of an integer denote it, if they have the bits for it.
* `Value.toBits_of_fits`, `Value.toBits_of_not_fits`: which values have a pattern, and which one.
* `Value.pack_of_fits`: the words of a value are those of the number it denotes.
* `Value.pack_unpack`: packing and unpacking are inverse on the words that packing fills.
-/

namespace LiteralCodec

/-! ## Ranges -/

namespace NumericType

/-- The integers of an integer type; a floating point type has none. -/
def HasInteger : NumericType → ℤ → Prop
  | int isSigned width _ _, x => least isSigned width ≤ x ∧ x ≤ greatest isSigned width
  | float _, _ => False

/-- More bits hold more integers. -/
theorem range_mono (isSigned : Bool) {width width' : ℕ} (pos : 0 < width) (h : width ≤ width') :
    least isSigned width' ≤ least isSigned width ∧
      greatest isSigned width ≤ greatest isSigned width' := by
  cases isSigned with
  | true =>
    have hpow : (2 : ℤ) ^ (width - 1) ≤ 2 ^ (width' - 1) := pow_le_pow_right₀ (by omega) (by omega)
    simp only [least, greatest, if_true]
    omega
  | false =>
    have hpow : (2 : ℤ) ^ width ≤ 2 ^ width' := pow_le_pow_right₀ (by omega) h
    simp only [least, greatest, Bool.false_eq_true, if_false]
    omega

end NumericType

/-- **An integer in range is read back from its pattern.** -/
theorem Bits.ofInt_eq {isSigned : Bool} {width : ℕ} {x : ℤ} (pos : 0 < width)
    (hlo : NumericType.least isSigned width ≤ x) (hhi : x ≤ NumericType.greatest isSigned width) :
    (if isSigned then toInt width (ofInt width x) else ofInt width x : ℤ) = x := by
  cases isSigned with
  | true =>
    simp only [NumericType.least, NumericType.greatest, if_true] at hlo hhi ⊢
    exact toInt_ofInt pos hlo (by omega)
  | false =>
    simp only [NumericType.least, NumericType.greatest, Bool.false_eq_true, if_false] at hlo hhi ⊢
    obtain ⟨n, rfl⟩ : ∃ n : ℕ, x = n := ⟨x.toNat, (Int.toNat_of_nonneg hlo).symm⟩
    have hn : n < 2 ^ width := by
      zify
      omega
    rw [ofInt_natCast hn]

/-! ## Words -/

namespace Word

/-- The number that words denote, low-order word first. -/
def number (isSigned : Bool) (words : List Word) : ℤ :=
  if isSigned then Bits.toInt (32 * words.length) (join words) else join words

theorem length_ofInt (n : ℕ) (x : ℤ) : (ofInt n x).length = n := by
  rw [ofInt, List.length_map, List.length_range]

/-- The words of an integer hold its pattern of all their bits. -/
theorem join_ofInt (n : ℕ) (x : ℤ) : join (ofInt n x) = Bits.ofInt (32 * n) x := by
  rw [← split_bits_ofInt le_rfl, join_split, Nat.mod_eq_of_lt (Bits.ofInt_lt _ _)]

/-- **The words of an integer denote it**, if they have the bits for it. -/
theorem number_ofInt {isSigned : Bool} {n width : ℕ} {x : ℤ} (pos : 0 < width)
    (hle : width ≤ 32 * n) (hlo : NumericType.least isSigned width ≤ x)
    (hhi : x ≤ NumericType.greatest isSigned width) : number isSigned (ofInt n x) = x := by
  obtain ⟨hleast, hgreatest⟩ := NumericType.range_mono isSigned pos hle
  rw [number, length_ofInt, join_ofInt]
  exact Bits.ofInt_eq (by omega) (hleast.trans hlo) (hhi.trans hgreatest)

end Word

/-! ## Values -/

namespace Value

/-- The number that a value denotes in a type. A pattern denotes its two's complement in a signed
integer type, and itself in all others. -/
def number (ty : NumericType) : Value → ℤ
  | unsigned n => n
  | signed x => x
  | bits pattern => if ty.signExtends then Bits.toInt ty.width pattern else pattern

/-- The values that a type holds: its integers, and the patterns of its width. -/
def Fits (ty : NumericType) : Value → Prop
  | unsigned n => ty.HasInteger n
  | signed x => ty.HasInteger x
  | bits pattern => pattern < 2 ^ ty.width

/-- Why a value does not fit: a floating point type has no integers, and all else is a matter of
range. -/
def misfit (value : Value) (ty : NumericType) : PackError :=
  match value, ty with
  | unsigned _, .float _ | signed _, .float _ => .notAnInteger value ty
  | _, _ => .outOfRange value ty

variable {ty : NumericType} {value : Value} {words : List Word}

/-- What fits denotes a number in the range of the bits of the type. -/
theorem Fits.range (h : value.Fits ty) :
    NumericType.least ty.signExtends ty.width ≤ value.number ty ∧
      value.number ty ≤ NumericType.greatest ty.signExtends ty.width := by
  cases value with
  | bits pattern => exact range_of_pattern ty.width_pos h
  | unsigned n =>
    cases ty with
    | float format => exact h.elim
    | int => exact h
  | signed x =>
    cases ty with
    | float format => exact h.elim
    | int => exact h

theorem elim_of_range {isSigned : Bool} {width : ℕ} {x : ℤ} (e : PackError)
    (h : NumericType.least isSigned width ≤ x ∧ x ≤ NumericType.greatest isSigned width) :
    (integerBits? isSigned width x).elim (.error e) Except.ok = .ok (Bits.ofInt width x) := by
  rw [integerBits?_eq, if_pos h, Option.elim_some]

theorem elim_of_not_range {isSigned : Bool} {width : ℕ} {x : ℤ} (e : PackError)
    (h : ¬(NumericType.least isSigned width ≤ x ∧ x ≤ NumericType.greatest isSigned width)) :
    (integerBits? isSigned width x).elim (.error e) Except.ok = .error e := by
  rw [integerBits?_eq, if_neg h, Option.elim_none]

/-- **A value that fits has a pattern**, that of the number it denotes. -/
theorem toBits_of_fits (h : value.Fits ty) :
    value.toBits ty = .ok (Bits.ofInt ty.width (value.number ty)) := by
  cases value with
  | bits pattern =>
    have hp : pattern < 2 ^ ty.width := h
    have hnumber : Bits.ofInt ty.width ((bits pattern).number ty) = pattern := by
      unfold number
      split_ifs
      · exact Bits.ofInt_toInt hp
      · exact Bits.ofInt_natCast hp
    rw [hnumber]
    exact if_pos hp
  | unsigned n =>
    cases ty with
    | float format => exact h.elim
    | int => exact elim_of_range _ h
  | signed x =>
    cases ty with
    | float format => exact h.elim
    | int => exact elim_of_range _ h

/-- A value that does not fit has none. -/
theorem toBits_of_not_fits (h : ¬value.Fits ty) : value.toBits ty = .error (value.misfit ty) := by
  cases value with
  | bits pattern => exact if_neg h
  | unsigned n =>
    cases ty with
    | float format => rfl
    | int => exact elim_of_not_range _ h
  | signed x =>
    cases ty with
    | float format => rfl
    | int => exact elim_of_not_range _ h

/-! ## Packing and unpacking -/

/-- The words of a pattern are those of the number with that pattern. -/
theorem split_extend {x : ℤ} (hlo : NumericType.least ty.signExtends ty.width ≤ x)
    (hhi : x ≤ NumericType.greatest ty.signExtends ty.width) :
    Word.split (extend ty (Bits.ofInt ty.width x)) ty.wordCount = Word.ofInt ty.wordCount x := by
  have hx := Bits.ofInt_eq ty.width_pos hlo hhi
  cases ty with
  | int isSigned width pos le => exact (split_extend_int _).trans (congrArg (Word.ofInt _) hx)
  | float format => exact (split_extend_float format _).trans (congrArg (Word.ofInt _) hx)

/-- **The words of a value** are those of the number it denotes. -/
theorem pack_of_fits (h : value.Fits ty) :
    value.pack ty = .ok (Word.ofInt ty.wordCount (value.number ty)) := by
  rw [pack_of_toBits (toBits_of_fits h), split_extend h.range.1 h.range.2]

theorem pack_of_not_fits (h : ¬value.Fits ty) : value.pack ty = .error (value.misfit ty) :=
  pack_eq_error.mpr (toBits_of_not_fits h)

/-- Packing succeeds on the values that fit. -/
theorem exists_pack_iff : (∃ words, value.pack ty = .ok words) ↔ value.Fits ty := by
  constructor
  · rintro ⟨words, hpack⟩
    by_contra h
    rw [pack_of_not_fits h] at hpack
    cases hpack
  · intro h
    exact ⟨_, pack_of_fits h⟩

/-- Words that are packed denote the number of the value. -/
theorem number_of_pack (h : value.pack ty = .ok words) :
    Word.number ty.signExtends words = value.number ty := by
  have hfits := exists_pack_iff.mp ⟨words, h⟩
  rw [pack_of_fits hfits] at h
  rw [← Except.ok.inj h]
  exact Word.number_ofInt ty.width_pos (width_le_wordCount ty) hfits.range.1 hfits.range.2

/-- Packing what was unpacked gives the words again. -/
theorem pack_of_unpack (h : unpack words ty = .ok value) : value.pack ty = .ok words := by
  obtain ⟨pattern, hlt, rfl, rfl⟩ := unpack_eq_ok.mp h
  exact pack_of_toBits (toBits_ofBits hlt)

/-- What was packed can be unpacked, to a value with the same pattern. -/
theorem exists_unpack_of_pack (h : value.pack ty = .ok words) :
    ∃ value', unpack words ty = .ok value' ∧ value'.toBits ty = value.toBits ty := by
  obtain ⟨pattern, hbits, rfl⟩ := pack_eq_ok.mp h
  have hlt := toBits_lt hbits
  exact ⟨ofBits ty pattern, unpack_eq_ok.mpr ⟨pattern, hlt, rfl, rfl⟩,
    (toBits_ofBits hlt).trans hbits.symm⟩

/-- **Packing and unpacking are inverse on the canonical words.** A value is packed if it fits the
type: an integer in the range of an integer type, or a pattern of the width of the type; all else is
refused, an integer for a floating point type for being one. The words that are packed denote the
number of the value. The words that are unpacked are those that some value is packed into: packing
what is unpacked gives the words again, and unpacking what is packed gives a value with the same
pattern. -/
theorem pack_unpack (ty : NumericType) :
    (∀ value : Value,
      ((∃ words, value.pack ty = .ok words) ↔ value.Fits ty) ∧
      (¬value.Fits ty → value.pack ty = .error (value.misfit ty)) ∧
      ∀ words, value.pack ty = .ok words →
        words.length = ty.wordCount ∧ Word.number ty.signExtends words = value.number ty) ∧
    (∀ words value, unpack words ty = .ok value → value.pack ty = .ok words) ∧
    (∀ words, (∃ value, unpack words ty = .ok value) ↔ ∃ value : Value, value.pack ty = .ok words) ∧
    ∀ (value : Value) words, value.pack ty = .ok words →
      ∃ value', unpack words ty = .ok value' ∧ value'.toBits ty = value.toBits ty := by
  refine ⟨fun value => ⟨exists_pack_iff, pack_of_not_fits, fun words h => ?_⟩,
    fun words value => pack_of_unpack, fun words => ⟨?_, ?_⟩,
    fun value words => exists_unpack_of_pack⟩
  · exact ⟨pack_length h, number_of_pack h⟩
  · rintro ⟨value, h⟩
    exact ⟨value, pack_of_unpack h⟩
  · rintro ⟨value, h⟩
    obtain ⟨value', h', -⟩ := exists_unpack_of_pack h
    exact ⟨value', h'⟩

/-- The least integer of the widest signed type, and a pattern of 48 bits with its sign in the
middle of a word. -/
theorem pack_unpack_least :
    Word.number true [0, 0, 0, 0x80000000] = -2 ^ 127 ∧
      Word.number true [0x00000000, 0xFFFF8000] = Bits.toInt 48 0x800000000000 := by
  obtain ⟨hwide, -⟩ := pack_unpack (.int true 128 (by decide) (by decide))
  obtain ⟨hmiddle, -⟩ := pack_unpack (.int true 48 (by decide) (by decide))
  obtain ⟨-, -, hleast⟩ := hwide (.signed (-2 ^ 127))
  obtain ⟨-, -, hpattern⟩ := hmiddle (.bits 0x800000000000)
  exact ⟨(hleast _ (by decide +kernel)).2, (hpattern _ (by decide +kernel)).2⟩

end Value

end LiteralCodec
