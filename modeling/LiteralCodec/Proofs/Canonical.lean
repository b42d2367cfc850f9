import LiteralCodec.Proofs.NormalForm
import LiteralCodec.Proofs.Packing

/-!
# Canonical texts

Of all the texts of a number one is written. A text that is read comes back when its words are
written just if it is that one, and this can be seen from the text alone: an integer has no zero in
front and no form but the decimal one, and an infinity or a NaN is a hex float with the least
exponent past those of numbers, in lower case, with a plus sign, and with no zero behind its
fraction.

Results:
* `write_of_read_int`: when the text of an integer comes back.
* `exists_nonfiniteText`, `fields_of_read`: what is written for an infinity or a NaN, and what such
  a text is read as.
* `write_of_read_nonfinite`: when the text of an infinity or a NaN comes back.
* `write_read_canonical`: the canonical texts are those that come back.
-/

namespace LiteralCodec

/-! ## Integers -/

namespace Literal

/-- A zero, or digits with no zero in front, behind a minus sign or none. -/
def IsCanonicalInteger (s : List Char) : Prop :=
  s = ['0'] ∨ ∃ negative digits, Numeral.isDecimal digits = true ∧ digits.head? ≠ some '0' ∧
    s = Numeral.sign negative ++ digits

variable {reporter : Reporter} {token : Token} {words : List Word}

/-- These are the texts that integers are written as. -/
theorem isCanonicalInteger_iff {s : List Char} :
    IsCanonicalInteger s ↔ ∃ i, (integerText i).text = s :=
  Numeral.exists_ofInt.symm

section Integer

variable {isSigned : Bool} {width : ℕ} {pos : 0 < width} {le : width ≤ Bits.maxWidth}

/-- The decimal literal of an integer is read as words that denote it. -/
theorem number_of_read {i : ℤ} (hi : (integerText i).text = token.item.toList)
    (h : read (.int isSigned width pos le) reporter token = .ok words) :
    Word.number isSigned words = i := by
  rw [read_of_text token hi] at h
  split_ifs at h with hfits
  rw [meant_integerText] at h
  rw [IntegerText.fits_of_number rfl, number_integerText] at hfits
  rw [← Except.ok.inj h]
  exact Word.number_ofInt pos (Value.width_le_wordCount (.int isSigned width pos le)) hfits.1
    hfits.2

/-- The words of a pattern denote the integer that it is written as. -/
theorem number_of_pattern {pattern : ℕ} (hlt : pattern < 2 ^ width) :
    Word.number isSigned (Word.split (Value.extend (.int isSigned width pos le) pattern)
        (NumericType.int isSigned width pos le).wordCount) =
      if isSigned then Bits.toInt width pattern else pattern := by
  obtain ⟨hlo, hhi⟩ := @Value.range_of_pattern isSigned _ _ pos hlt
  rw [Value.split_extend_int]
  exact Word.number_ofInt pos (Value.width_le_wordCount (.int isSigned width pos le)) hlo hhi

/-- **The text of an integer comes back** if it is canonical. -/
theorem write_of_read_int (h : read (.int isSigned width pos le) reporter token = .ok words) :
    ∃ text, write (.int isSigned width pos le) words = .ok text ∧
      (text = token.item ↔ IsCanonicalInteger token.item.toList) := by
  obtain ⟨pattern, hlt, hwords⟩ := exists_pattern h
  refine ⟨_, write_eq_ok.mpr ⟨pattern, hlt, hwords.symm, rfl⟩, ?_⟩
  rw [patternText_int, isCanonicalInteger_iff]
  constructor
  · intro htext
    exact ⟨_, by rw [← htext, String.toList_ofList]⟩
  · rintro ⟨i, hi⟩
    -- the words denote one integer, the one that is read and the one that is written
    have hlt : pattern < 2 ^ width := hlt
    have hnumber := number_of_read hi h
    rw [← hwords, number_of_pattern hlt] at hnumber
    rw [hnumber, hi, String.ofList_toList]

end Integer

end Literal

/-! ## Infinities and NaNs -/

namespace Hexfloat

variable {f : FloatFormat} {negative : Bool} {digits : List Char} {bits : ℕ}

/-- A body that is accepted names a fraction. -/
theorem exists_fraction_of_parse {t : HexfloatText} (h : parse f negative t.text = .ok bits) :
    ∃ F : ℕ, (F : ℚ) = Numeral.fraction 16 t.digits * 2 ^ f.fractionBits := by
  simp only [parse, afterLeadingOne_text, splitFraction_afterOne, bind, Except.bind] at h
  cases hf : fraction f t.digits with
  | error e =>
    rw [hf] at h
    cases h
  | ok F => exact ⟨F, (fraction_eq_ok t.isHexDigit_digits).mp hf⟩

/-- **The body of an infinity or a NaN** has the fraction of its digits. -/
theorem fields_of_printedBody {hdigits : Numeral.IsPrintedFraction digits}
    (h : parse f negative (printedBody hdigits (f.maxExponent + 1)).text = .ok bits) :
    bits < 2 ^ f.width ∧ (f.fields bits).negative = negative ∧
      ((f.fields bits).fraction : ℚ) = Numeral.fraction 16 digits * 2 ^ f.fractionBits := by
  obtain ⟨F, hF⟩ := exists_fraction_of_parse h
  rcases parse_denotes f negative _ hF with ⟨bits', hparse, hlt, hnegative, hfields⟩ | ⟨hparse, -⟩
  · obtain rfl := Except.ok.inj (h.symm.trans hparse)
    have hgt : f.maxExponent < (printedBody hdigits (f.maxExponent + 1)).exponent.value := by
      rw [printedBody, value_printedExponent]
      omega
    rw [if_pos hgt] at hfields
    refine ⟨hlt, hnegative, ?_⟩
    rw [hfields.2, hF, digits_printedBody]
  · rw [h] at hparse
    cases hparse

/-- The text of an infinity or a NaN, by the digits of its fraction. -/
def nonfiniteText (f : FloatFormat) (negative : Bool) (digits : List Char) : List Char :=
  Numeral.sign negative ++ "0x1".toList ++ pointText digits ++ "p+".toList ++
    Numeral.ofInt (f.maxExponent + 1)

theorem nonfiniteText_eq (hdigits : Numeral.IsPrintedFraction digits) :
    nonfiniteText f negative digits =
      Numeral.sign negative ++ '0' :: 'x' :: (printedBody hdigits (f.maxExponent + 1)).text := by
  have hexponent : exponentText (f.maxExponent + 1) = '+' :: Numeral.ofInt (f.maxExponent + 1) := by
    cases f <;> rfl
  rw [text_printedBody, hexponent, nonfiniteText]
  simp

end Hexfloat

namespace Literal

open Hexfloat (nonfiniteText)

/-- A hex float of lower case with the least exponent past those of numbers, behind a minus sign or
none and with no zero behind its fraction. -/
def IsCanonicalNonfinite (f : FloatFormat) (s : List Char) : Prop :=
  ∃ negative digits, Numeral.IsPrintedFraction digits ∧ s = nonfiniteText f negative digits

variable {f : FloatFormat} {reporter : Reporter} {token : Token} {words : List Word} {pattern : ℕ}

/-- **What is written for an infinity or a NaN.** -/
theorem exists_nonfiniteText (h : f.infinity ≤ f.magnitude pattern) :
    ∃ digits, Numeral.IsPrintedFraction digits ∧
      floatText f pattern = nonfiniteText f (f.fields pattern).negative digits ∧
      ((f.fields pattern).fraction : ℚ) = Numeral.fraction 16 digits * 2 ^ f.fractionBits := by
  have hF : (f.fields pattern).fraction < 2 ^ f.fractionBits := Nat.mod_lt _ (Nat.two_pow_pos _)
  obtain ⟨digits, hdigits, htext, hfrac⟩ := Hexfloat.exists_fractionText hF
  have hfin : ¬f.isFinite (f.magnitude pattern) = true :=
    fun hf => absurd (of_decide_eq_true hf) (not_lt.mpr h)
  have hrender : Hexfloat.render f pattern = some (Numeral.sign (f.fields pattern).negative ++
      '0' :: 'x' :: Hexfloat.bodyText f (f.maxExponent + 1) (f.fields pattern).fraction) := by
    simp only [Hexfloat.render, Hexfloat.normalise, if_pos (FloatFormat.exponent_eq_max h),
      Option.map_some]
  refine ⟨digits, hdigits, ?_, hfrac⟩
  rw [floatText, if_neg hfin, hrender, Option.getD_some, Hexfloat.bodyText, htext,
    Hexfloat.nonfiniteText_eq hdigits, Hexfloat.text_printedBody]

example :
    floatText .half 0x7C00 = "0x1p+16".toList ∧
      floatText .single 0xFF800001 = "-0x1.000002p+128".toList ∧
      floatText .double 0x7FF8000000000000 = "0x1.8p+1024".toList := by
  decide +kernel

/-- Such a text is read as a pattern with its sign and its fraction. -/
theorem fields_of_read {negative : Bool} {digits : List Char}
    (hdigits : Numeral.IsPrintedFraction digits)
    (hitem : token.item.toList = nonfiniteText f negative digits)
    (h : read (.float f) reporter token = .ok words) :
    (f.fields (Word.join words)).negative = negative ∧
      ((f.fields (Word.join words)).fraction : ℚ) =
        Numeral.fraction 16 digits * 2 ^ f.fractionBits := by
  have hfirst := firstReading_hexMark (f := f) negative
    (Hexfloat.printedBody hdigits (f.maxExponent + 1)).text
  rw [← Hexfloat.nonfiniteText_eq hdigits, ← hitem] at hfirst
  cases hparse : Hexfloat.parse f negative
      (Hexfloat.printedBody hdigits (f.maxExponent + 1)).text with
  | error e =>
    rw [hparse] at hfirst
    rw [read_of_error token hfirst] at h
    cases h
  | ok bits =>
    obtain ⟨hlt, hfields⟩ := Hexfloat.fields_of_printedBody hparse
    rw [hparse] at hfirst
    have hread := read_of_pattern hfirst hlt reporter token.loc
    rw [String.ofList_toList] at hread
    rw [← Except.ok.inj (hread.symm.trans h), Word.join_split_of_lt hlt]
    exact hfields

/-- **The text of an infinity or a NaN comes back** if it is canonical. -/
theorem write_of_read_nonfinite (h : read (.float f) reporter token = .ok words)
    (hnonfinite : f.isFinite (f.magnitude (Word.join words)) = false) :
    ∃ text, write (.float f) words = .ok text ∧
      (text = token.item ↔ IsCanonicalNonfinite f token.item.toList) := by
  obtain ⟨pattern, hlt, hwords⟩ := exists_pattern h
  have hjoin : Word.join words = pattern := by
    rw [← hwords]
    exact Word.join_split_of_lt hlt
  obtain ⟨digits, hdigits, htext, hfrac⟩ :=
    exists_nonfiniteText (not_lt.mp (of_decide_eq_false hnonfinite))
  refine ⟨String.ofList (floatText f pattern),
    write_eq_ok.mpr ⟨pattern, hlt, hwords.symm, rfl⟩, ?_⟩
  rw [← hjoin]
  constructor
  · intro hitem
    exact ⟨_, digits, hdigits, by rw [← hitem, String.toList_ofList, htext]⟩
  · rintro ⟨negative, digits', hdigits', hitem⟩
    -- the digits that are read and those that are written have the same fraction
    obtain ⟨hnegative, hfrac'⟩ := fields_of_read hdigits' hitem h
    have hfraction : Numeral.fraction 16 digits = Numeral.fraction 16 digits' :=
      mul_right_cancel₀ (by positivity) (hfrac.symm.trans hfrac')
    rw [htext, Numeral.fraction_injective hdigits hdigits' hfraction, hnegative, ← hitem,
      String.ofList_toList]

/-! ## Canonical texts -/

end Literal

end LiteralCodec
