import LiteralCodec.Proofs.Hexfloat.Parse
import LiteralCodec.Proofs.Printed

/-!
# Hex floats that are printed

What is printed for an exponent and a fraction is a body of the grammar with just that exponent and
that fraction, so it reads back. They are those of the number: an infinity or a NaN is printed with
the exponent one past the largest, and a subnormal is shifted up until its leading bit is the one
before the point, which takes as much from the exponent.

Results:
* `exists_fractionText`: the fraction that is printed, by its digits.
* `exists_bodyText`: a body that is printed, as a body of the grammar.
* `place_normalise`: the exponent and the fraction that are printed give the fields back.
* `render_eq_none`: only zeroes are not printed.
* `exists_render`: all other numbers read back.
-/

namespace LiteralCodec.Hexfloat

variable {f : FloatFormat} {F : ℕ}

/-! ## Fractions -/

/-- The hex digits of a fraction, as many as write it out in full. -/
def paddedDigits (f : FloatFormat) (F : ℕ) : List Char :=
  (Nat.toDigits 16 (F * 2 ^ (4 * fractionDigits f - f.fractionBits))).leftpad (fractionDigits f) '0'

theorem fraction_padded (hF : F < 2 ^ f.fractionBits) :
    (F : ℚ) = Numeral.fraction 16 (paddedDigits f F) * 2 ^ f.fractionBits := by
  have hle : f.fractionBits ≤ 4 * fractionDigits f := by
    unfold fractionDigits
    omega
  have hpos : 0 < fractionDigits f := by
    have := f.fractionBits_pos
    unfold fractionDigits
    omega
  obtain ⟨k, hk⟩ := Nat.exists_eq_add_of_le hle
  have hlt : F * 2 ^ k < 16 ^ fractionDigits f := by
    rw [← two_pow_four_mul, hk, pow_add]
    exact Nat.mul_lt_mul_of_pos_right hF (Nat.two_pow_pos k)
  have hlen := (Nat.length_toDigits_le_iff (b := 16) (by omega) hpos).mpr hlt
  have h16 : (16 : ℚ) ^ fractionDigits f = 2 ^ f.fractionBits * 2 ^ k := by
    rw [← pow_add, ← hk]
    exact_mod_cast (two_pow_four_mul (fractionDigits f)).symm
  rw [paddedDigits, hk, Nat.add_sub_cancel_left, Numeral.fraction, Numeral.value_leftpad,
    Numeral.value_toDigits (by omega) (by omega), List.length_leftpad, max_eq_left hlen]
  push_cast
  rw [h16]
  field_simp

/-- What is printed of the digits are those up to the last one that is no zero. -/
theorem isPrintedFraction_padded (f : FloatFormat) (F : ℕ) :
    Numeral.IsPrintedFraction (Numeral.trimRight (paddedDigits f F)) where
  lower := by
    intro c hc
    have hmem := Numeral.mem_of_mem_trimRight hc
    rw [paddedDigits, Numeral.leftpad_eq] at hmem
    rcases List.mem_append.mp hmem with hmem | hmem
    · rw [List.eq_of_mem_replicate hmem]
      rfl
    · exact Numeral.isPrinted_sixteen.mp (Numeral.mem_toDigits (by omega) hmem)
  getLast?_ne := Numeral.getLast?_trimRight _

/-- A point and the digits behind it, nothing if there are none. -/
def pointText (digits : List Char) : List Char := if digits = [] then [] else '.' :: digits

/-- **The text of a fraction** is a point with the digits of the fraction. -/
theorem exists_fractionText (hF : F < 2 ^ f.fractionBits) :
    ∃ digits, Numeral.IsPrintedFraction digits ∧ fractionText f F = pointText digits ∧
      (F : ℚ) = Numeral.fraction 16 digits * 2 ^ f.fractionBits := by
  by_cases h0 : F = 0
  · refine ⟨[], Numeral.isPrintedFraction_nil, if_pos h0, ?_⟩
    rw [h0, Numeral.fraction_nil, zero_mul, Nat.cast_zero]
  · have hfrac := fraction_padded hF
    rw [← Numeral.fraction_trimRight (by omega)] at hfrac
    have hne : Numeral.trimRight (paddedDigits f F) ≠ [] := by
      intro h
      rw [h, Numeral.fraction_nil, zero_mul, Nat.cast_eq_zero] at hfrac
      exact h0 hfrac
    refine ⟨_, isPrintedFraction_padded f F, ?_, hfrac⟩
    rw [fractionText, if_neg h0, pointText, if_neg hne]
    rfl

/-! ## Bodies -/

/-- The exponent as it is printed. -/
def printedExponent (e : ℤ) : ExponentText isExponentMark := .ofInt 'p' (by decide) 0 e

theorem text_printedExponent (e : ℤ) : (printedExponent e).text = 'p' :: exponentText e := by
  rw [printedExponent, ExponentText.text_ofInt, Numeral.leftpad_eq, Nat.zero_sub]
  rfl

theorem value_printedExponent (e : ℤ) : (printedExponent e).value = e := ExponentText.value_ofInt e

/-- The body with the digits of a fraction and an exponent, as it is printed. -/
def printedBody {digits : List Char} (h : Numeral.IsPrintedFraction digits) (e : ℤ) :
    HexfloatText where
  fraction? := if digits = [] then none else some digits
  exponent := printedExponent e
  isHex_fraction := by
    intro s hs
    split_ifs at hs with hne
    · cases hs
    · obtain rfl := Option.some.inj hs
      exact Numeral.isHex_iff.mpr
        ⟨hne, fun c hc => Numeral.isHexDigit_of_isLowerHexDigit (h.lower c hc)⟩

theorem digits_printedBody {digits : List Char} (h : Numeral.IsPrintedFraction digits) (e : ℤ) :
    (printedBody h e).digits = digits := by
  unfold HexfloatText.digits printedBody
  split_ifs with hnil
  · exact hnil.symm
  · rfl

theorem text_printedBody {digits : List Char} (h : Numeral.IsPrintedFraction digits) (e : ℤ) :
    (printedBody h e).text = '1' :: (pointText digits ++ 'p' :: exponentText e) := by
  rw [HexfloatText.text, HexfloatText.afterOne, ← text_printedExponent, pointText]
  unfold printedBody
  split_ifs <;> rfl

/-- **A body that is printed** has the exponent and the fraction that were printed. -/
theorem exists_bodyText (hF : F < 2 ^ f.fractionBits) (e : ℤ) :
    ∃ t : HexfloatText, t.text = bodyText f e F ∧ t.exponent.value = e ∧
      (F : ℚ) = Numeral.fraction 16 t.digits * 2 ^ f.fractionBits := by
  obtain ⟨digits, hdigits, htext, hfrac⟩ := exists_fractionText hF
  refine ⟨printedBody hdigits e, ?_, value_printedExponent e, ?_⟩
  · rw [text_printedBody, bodyText, htext]
  · rw [digits_printedBody, hfrac]

/-! ## All patterns -/

/-- A fraction with its leading bit moved up to the place above the field. -/
theorem shifted_bounds {size n : ℕ} (h0 : n ≠ 0) (h : n < 2 ^ size) :
    n.log2 < size ∧ 2 ^ size ≤ n * 2 ^ (size - n.log2) ∧
      n * 2 ^ (size - n.log2) < 2 ^ size + 2 ^ size := by
  have hlog : n.log2 < size := (Nat.log2_lt h0).mpr h
  obtain ⟨k, hk⟩ := Nat.exists_eq_add_of_lt hlog
  have hsub : size - n.log2 = k + 1 := by omega
  have hsize : 2 ^ size = 2 ^ n.log2 * 2 ^ (k + 1) := by
    rw [hk, ← pow_add]
    rfl
  have htop : n < 2 ^ n.log2 + 2 ^ n.log2 := by
    have := Nat.lt_log2_self (n := n)
    rw [pow_succ] at this
    omega
  refine ⟨hlog, ?_, ?_⟩
  · rw [hsub, hsize]
    exact Nat.mul_le_mul_right _ (Nat.log2_self_le h0)
  · rw [hsub, hsize, ← Nat.add_mul]
    exact Nat.mul_lt_mul_of_pos_right htop (Nat.two_pow_pos _)

/-- **The exponent and the fraction that are written** are put together to the fields they came
from.
-/
theorem place_normalise {x : FloatFormat.Fields} (hx : x.Fit f) {e : ℤ}
    (h : normalise f x = some (e, F)) :
    F < 2 ^ f.fractionBits ∧ place f x.negative e F = .ok x := by
  obtain ⟨negative, exponent, fraction⟩ := x
  obtain ⟨hexp, hfrac⟩ : exponent ≤ f.exponentFieldMax ∧ fraction ≤ f.fractionMask := hx
  have hmax := f.exponentFieldMax_eq
  have hpos := Nat.two_pow_pos f.fractionBits
  have hlt := FloatFormat.le_fractionMask_iff.mp hfrac
  simp only [normalise] at h ⊢
  split_ifs at h with hnonfinite hnormal hsubnormal
  · -- infinities and NaNs
    obtain ⟨rfl, rfl⟩ := Prod.mk.inj (Option.some.inj h)
    exact ⟨hlt, by rw [place_of_gt (by omega), ← hnonfinite]⟩
  · -- normal numbers
    obtain ⟨rfl, rfl⟩ := Prod.mk.inj (Option.some.inj h)
    have hle : ¬f.maxExponent < (exponent : ℤ) - f.bias := by
      unfold FloatFormat.maxExponent
      omega
    have hmin : f.minExponent ≤ (exponent : ℤ) - f.bias := by
      unfold FloatFormat.minExponent
      omega
    rw [place, if_neg hle, if_pos hmin, Int.sub_add_cancel, Int.toNat_natCast]
    exact ⟨hlt, rfl⟩
  · -- subnormal numbers: the leading bit is the one before the point
    obtain ⟨rfl, rfl⟩ := Prod.mk.inj (Option.some.inj h)
    obtain ⟨hlog, hlo, hhi⟩ := shifted_bounds hsubnormal hlt
    obtain rfl : exponent = 0 := not_not.mp hnormal
    obtain ⟨shift, hshift⟩ : ∃ k, f.fractionBits - fraction.log2 = k := ⟨_, rfl⟩
    rw [hshift] at hlo hhi ⊢
    have hle : ¬f.maxExponent < f.minExponent - shift := by
      unfold FloatFormat.maxExponent FloatFormat.minExponent
      omega
    have hmin : ¬f.minExponent ≤ f.minExponent - shift := by omega
    have hdropped : (f.minExponent - (f.minExponent - shift)).toNat = shift := by omega
    have hsignificand : 2 ^ f.fractionBits + fraction * 2 ^ shift % 2 ^ f.fractionBits =
        fraction * 2 ^ shift := by
      rw [Nat.mod_eq_sub_mod hlo, Nat.mod_eq_of_lt (by omega)]
      omega
    refine ⟨Nat.mod_lt _ hpos, ?_⟩
    simp only [place, if_neg hle, if_neg hmin, hdropped, hsignificand]
    rw [if_pos ⟨by omega, Nat.mul_mod_left _ _⟩, Nat.mul_div_cancel _ (Nat.two_pow_pos shift)]

/-- Only zeroes are not written. -/
theorem normalise_eq_none {x : FloatFormat.Fields} :
    normalise f x = none ↔ x.exponent = 0 ∧ x.fraction = 0 := by
  have hmax : f.exponentFieldMax ≠ 0 := by cases f <;> decide
  unfold normalise
  split_ifs with hnonfinite hnormal hsubnormal
  · simp [hnonfinite, hmax]
  · simp [hnormal]
  · simp [hsubnormal]
  · simp [not_not.mp hnormal, not_not.mp hsubnormal]

theorem render_eq_none {bits : ℕ} : render f bits = none ↔ f.magnitude bits = 0 := by
  have hpos := Nat.two_pow_pos f.fractionBits
  rw [render, Option.map_eq_none_iff, normalise_eq_none, FloatFormat.magnitude_eq,
    Nat.add_eq_zero_iff, Nat.mul_eq_zero]
  simp only [hpos.ne', or_false]

/-- **What is written reads back**, behind its sign and its hex mark. -/
theorem exists_render {bits : ℕ} (hb : bits < 2 ^ f.width) (h : f.magnitude bits ≠ 0) :
    ∃ t : HexfloatText, render f bits =
        some (Numeral.sign (f.fields bits).negative ++ '0' :: 'x' :: t.text) ∧
      parse f (f.fields bits).negative t.text = .ok bits := by
  cases hn : normalise f (f.fields bits) with
  | none => exact absurd (render_eq_none.mp (by rw [render, hn, Option.map_none])) h
  | some written =>
    obtain ⟨e, F⟩ := written
    obtain ⟨hF, hplace⟩ := place_normalise (FloatFormat.fields_fit f bits) hn
    obtain ⟨t, htext, rfl, hfrac⟩ := exists_bodyText hF e
    refine ⟨t, ?_, ?_⟩
    · rw [render, hn, Option.map_some, htext]
    · rw [parse_text f _ t hfrac, hplace]
      exact congrArg Except.ok (FloatFormat.assemble_fields hb)

end LiteralCodec.Hexfloat
