import LiteralCodec.Fixed.Hexfloat
import LiteralCodec.Proofs.Fixed.Format
import LiteralCodec.Proofs.Hexfloat.Render

/-!
# Hex floats stay within their widths

Reading and writing hex floats in registers gives what they give for numbers of unlimited size, so
no step leaves its width. The bounds come from the steps before: digits that pass the length test
are worth 56 bits at most, an exponent lies within the clamp, the shift of a subnormal is at most
the size of the fraction, and fields that are put together fit their format. Only the number of
digits has to be bounded from outside, since it is counted in 32 bits.

Results:
* `fractionFixed_eq`, `exponentFixed_eq`, `placeFixed_eq`: the stages of reading.
* `parseFixed_eq`: reading a body of less than `2 ^ 30` characters.
* `renderFixed_eq`: writing any bits.
* `within_widths`: both ways, with the bounds that keep the steps in range.
-/

namespace LiteralCodec.Hexfloat

open Fixed (signed leadingZeros unsigned_eq unsigned_natCast signed_eq shiftLeft_eq shiftLeft_one
  shiftRight_eq lowOnes_eq lift_some_bind run_bind_eq)
open FloatFormat (biasFixed_eq minExponentFixed_eq exponentFieldMaxFixed_eq fractionBitsFixed_eq
  fractionMaskFixed_eq assembleFixed_eq le_fractionMask_iff two_pow_or)
open Numeral (splitExponentSign trimRight)

variable {f : FloatFormat} {negative : Bool} {e : ℤ} {F : ℕ}

/-! ## Fractions -/

theorem justifyFixed_eq {size given bits : ℕ} (hsize : size < 64) (hgiven : given < 64)
    (hbits : bits < 2 ^ given) :
    (justifyFixed size given bits).run = some (justify size given bits) := by
  unfold justifyFixed justify
  by_cases h : given ≤ size
  · obtain ⟨k, rfl⟩ := Nat.exists_eq_add_of_le h
    have hlt : bits * 2 ^ k < 2 ^ 64 := by
      calc bits * 2 ^ k < 2 ^ given * 2 ^ k := Nat.mul_lt_mul_of_pos_right hbits (Nat.two_pow_pos k)
        _ = 2 ^ (given + k) := (pow_add 2 given k).symm
        _ ≤ 2 ^ 64 := Nat.pow_le_pow_right (by omega) hsize.le
    rw [if_neg (by omega), if_pos h, unsigned_eq (n := k) (by omega) (by omega), lift_some_bind,
      shiftLeft_eq (by omega) hlt, Nat.add_sub_cancel_left]
    rfl
  · rw [if_pos (by omega), if_neg h, unsigned_eq (n := given - size) (by omega) (by omega),
      lift_some_bind, lowOnes_eq (by omega), lift_some_bind, shiftRight_eq (by omega),
      Nat.and_two_pow_sub_one_eq_mod, ite_not]
    split_ifs <;> rfl

theorem fractionDigits_lt (f : FloatFormat) : 4 * fractionDigits f < 64 := by
  cases f <;> decide

/-- **Digits that pass the length test fit their register.** -/
theorem value_kept_lt {digits : List Char} (hd : digits.all Char.isHexDigit = true)
    (hle : (trimRight digits).length ≤ fractionDigits f) :
    Numeral.value 16 (trimRight digits) < 2 ^ 64 := by
  have hlt := fractionDigits_lt f
  calc Numeral.value 16 (trimRight digits) < 2 ^ (4 * (trimRight digits).length) :=
        value_trimRight_lt hd
    _ ≤ 2 ^ 64 := Nat.pow_le_pow_right two_pos (by omega)

/-- **Reading the fraction.** The digits are counted in 32 bits, in fours. -/
theorem fractionFixed_eq {digits : List Char} (hlen : digits.length < 2 ^ 30) :
    (fractionFixed f digits).run = some (fraction f digits) := by
  simp only [fractionFixed, fraction]
  by_cases hd : digits.all Char.isHexDigit = true
  · obtain ⟨t, ht⟩ := Numeral.trimRight_append digits
    have hkept : (trimRight digits).length ≤ digits.length := by
      conv_rhs => rw [← ht]
      rw [List.length_append]
      omega
    have hsize := f.fractionBits_lt
    have hroom : (f.fractionBits + 3) / 4 * 4 = 4 * fractionDigits f := Nat.mul_comm _ _
    rw [if_pos hd, if_pos hd, fractionBitsFixed_eq, lift_some_bind, unsigned_natCast (by omega),
      lift_some_bind, unsigned_natCast (by omega), lift_some_bind, unsigned_natCast (by omega),
      lift_some_bind, unsigned_natCast (by omega), lift_some_bind, hroom, Nat.mul_comm _ 4]
    by_cases hle : (trimRight digits).length ≤ fractionDigits f
    · rw [if_neg (by omega), if_pos hle]
      by_cases hnil : trimRight digits = []
      · rw [hnil]
        cases f <;> rfl
      · have hgiven : 4 * (trimRight digits).length < 64 := by
          have := fractionDigits_lt f
          omega
        rw [if_neg (by rwa [List.isEmpty_iff]), unsigned_natCast (value_kept_lt hd hle),
          lift_some_bind]
        exact justifyFixed_eq hsize hgiven (value_trimRight_lt hd)
    · rw [if_pos (by omega), if_neg hle]
      rfl
  · rw [if_neg hd, if_neg hd]
    rfl

/-! ## Exponents -/

/-- Digits past the register are past the clamp. -/
theorem min_getD_signed (n : ℕ) :
    min ((signed 64 n).getD exponentClamp) exponentClamp = (min n exponentClamp : ℕ) := by
  have hclamp : exponentClamp = 2 ^ 20 := rfl
  by_cases h : n < 2 ^ 63
  · rw [signed_eq (by omega) (by exact_mod_cast h), Option.getD_some, Nat.cast_min]
  · have hout : signed 64 n = none := by
      rw [signed, if_neg]
      push_cast
      omega
    rw [hout, Option.getD_none, min_self, min_eq_right (by omega)]

/-- **Reading the exponent**, however many digits it has. -/
theorem exponentFixed_eq (s : List Char) : (exponentFixed s).run = some (exponent s) := by
  have hclamp : exponentClamp = 2 ^ 20 := rfl
  have hle := Nat.min_le_right (Numeral.value 10 (splitExponentSign s).2) exponentClamp
  simp only [exponentFixed, exponent]
  split_ifs with hd hn
  · rw [min_getD_signed, signed_eq (by omega) (by omega), lift_some_bind,
      signed_eq (by omega) (by omega)]
    rfl
  · rw [min_getD_signed, signed_eq (by omega) (by omega)]
    rfl
  · rfl

/-! ## Patterns -/

/-- Fields that were found are put together. -/
theorem assembleFixed_run (hF : F ≤ f.fractionMask) {x : FloatFormat.Fields}
    (h : place f negative e F = .ok x) :
    (liftM (f.assembleFixed x) : Checked ℕ).run = some ((place f negative e F).map f.assemble) := by
  rw [h, assembleFixed_eq (place_fit hF h)]
  rfl

/-- Under the least normal number the shift is at most the size of the fraction, or refused. -/
theorem placeFixed_of_lt (he : -exponentClamp ≤ e) (hF : F ≤ f.fractionMask)
    (hlt : e < f.minExponent) :
    (placeFixed f negative e F).run = some ((place f negative e F).map f.assemble) := by
  have hclamp : exponentClamp = 2 ^ 20 := rfl
  have hmin : f.minExponent = 1 - f.bias := rfl
  have hbias := f.bias_lt
  have hsize := f.fractionBits_lt
  obtain ⟨dropped, hdropped⟩ : ∃ k : ℕ, f.minExponent - e = k :=
    ⟨(f.minExponent - e).toNat, by omega⟩
  have hplace : place f negative e F = if dropped ≤ f.fractionBits ∧
      (2 ^ f.fractionBits + F) % 2 ^ dropped = 0 then
        .ok ⟨negative, 0, (2 ^ f.fractionBits + F) / 2 ^ dropped⟩ else .error .inexact := by
    rw [place, FloatFormat.maxExponent, if_neg (by omega), if_neg (by omega), hdropped]
    rfl
  simp only [placeFixed, biasFixed_eq, minExponentFixed_eq, fractionBitsFixed_eq, lift_some_bind]
  rw [if_neg (by omega), if_neg (by omega), signed_eq (by omega) (by omega), lift_some_bind,
    unsigned_eq hdropped (by omega), lift_some_bind]
  by_cases hle : dropped ≤ f.fractionBits
  · rw [if_neg (by omega), shiftLeft_one hsize, lift_some_bind,
      two_pow_or (le_fractionMask_iff.mp hF), lowOnes_eq (by omega), lift_some_bind,
      Nat.and_two_pow_sub_one_eq_mod, shiftRight_eq (by omega), lift_some_bind, ite_not]
    by_cases hlow : (2 ^ f.fractionBits + F) % 2 ^ dropped = 0
    · rw [if_pos ⟨hle, hlow⟩] at hplace
      rw [if_pos hlow]
      exact assembleFixed_run hF hplace
    · rw [hplace, if_neg hlow, if_neg fun h => hlow h.2]
      rfl
  · rw [hplace, if_pos (by omega), if_neg fun h => hle h.1]
    rfl

/-- **Putting the pattern together**, for an exponent within the clamp. -/
theorem placeFixed_eq (he : -exponentClamp ≤ e ∧ e ≤ exponentClamp) (hF : F ≤ f.fractionMask) :
    (placeFixed f negative e F).run = some ((place f negative e F).map f.assemble) := by
  have hclamp : exponentClamp = 2 ^ 20 := rfl
  have hmin : f.minExponent = 1 - f.bias := rfl
  have hbias := f.bias_lt
  by_cases hlt : e < f.minExponent
  · exact placeFixed_of_lt he.1 hF hlt
  simp only [placeFixed, biasFixed_eq, minExponentFixed_eq, exponentFieldMaxFixed_eq,
    lift_some_bind]
  by_cases hgt : (f.bias : ℤ) < e
  · rw [if_pos hgt]
    exact assembleFixed_run hF (place_of_gt hgt)
  · have hplace : place f negative e F = .ok ⟨negative, (e + f.bias).toNat, F⟩ := by
      rw [place, FloatFormat.maxExponent, if_neg hgt, if_pos (by omega)]
    rw [if_neg hgt, if_pos (by omega), signed_eq (by omega) (by omega), lift_some_bind,
      unsigned_eq (n := (e + f.bias).toNat) (by omega) (by omega), lift_some_bind]
    exact assembleFixed_run hF hplace

/-! ## Bodies -/

theorem length_digits_le {body rest digits tail : List Char}
    (hone : afterLeadingOne body = .ok rest) (hsplit : splitFraction rest = .ok (digits, tail)) :
    digits.length ≤ body.length := by
  rw [afterLeadingOne_eq_ok hone]
  obtain ⟨c, -, ⟨rfl, -⟩ | ⟨-, rfl⟩⟩ := splitFraction_eq_ok hsplit
  · exact Nat.zero_le _
  · simp only [List.length_cons, List.length_append]
    omega

/-- **Reading a body.** -/
theorem parseFixed_eq {body : List Char} (hlen : body.length < 2 ^ 30) :
    (parseFixed f negative body).run = some (parse f negative body) := by
  unfold parseFixed parse
  refine run_bind_eq rfl fun rest hone => ?_
  refine run_bind_eq rfl fun (digits, tail) hsplit => ?_
  have hdigits := length_digits_le hone hsplit
  refine run_bind_eq (fractionFixed_eq (by omega)) fun F hF => ?_
  refine run_bind_eq (exponentFixed_eq tail) fun e he => ?_
  rw [placeFixed_eq (exponent_clamped he) (fraction_le hF)]
  cases place f negative e F <;> rfl

/-! ## Writing -/

theorem leadingZeros_eq (h0 : F ≠ 0) (h : F < 2 ^ 64) : (leadingZeros 64 F : ℤ) = 63 - F.log2 := by
  have hlog := (Nat.log2_lt h0).mpr h
  rw [leadingZeros, if_neg h0]
  omega

/-- The exponent and the fraction to write. -/
theorem normaliseFixed_eq {x : FloatFormat.Fields} (hx : x.Fit f) :
    normaliseFixed f x = some (normalise f x) := by
  have hmax := f.exponentFieldMax_eq
  have hbias := f.bias_lt
  have hsize := f.fractionBits_lt
  obtain ⟨hexp, hfrac⟩ := hx
  simp only [normaliseFixed, Option.bind_eq_bind]
  unfold normalise
  rw [exponentFieldMaxFixed_eq, Option.bind_some]
  by_cases hnonfinite : x.exponent = f.exponentFieldMax
  · rw [if_pos hnonfinite, if_pos hnonfinite, biasFixed_eq, Option.bind_some,
      signed_eq (by omega) (by omega)]
    rfl
  rw [if_neg hnonfinite, if_neg hnonfinite]
  by_cases hnormal : x.exponent ≠ 0
  · rw [if_pos hnormal, if_pos hnormal, signed_eq (by omega) (by omega), Option.bind_some,
      biasFixed_eq, Option.bind_some, signed_eq (by omega) (by omega)]
    rfl
  rw [if_neg hnormal, if_neg hnormal]
  by_cases hsubnormal : x.fraction ≠ 0
  · have hlt := le_fractionMask_iff.mp hfrac
    obtain ⟨hlog, -, hhi⟩ := shifted_bounds hsubnormal hlt
    have hmin : f.minExponent = 1 - f.bias := rfl
    have h64 : 2 ^ f.fractionBits + 2 ^ f.fractionBits ≤ 2 ^ 64 := by
      rw [← two_mul, ← pow_succ']
      exact Nat.pow_le_pow_right two_pos hsize
    rw [if_pos hsubnormal, if_pos hsubnormal, leadingZeros_eq hsubnormal (by omega),
      unsigned_eq (n := x.fraction.log2) (by omega) (by omega), Option.bind_some,
      fractionBitsFixed_eq, Option.bind_some,
      unsigned_eq (n := f.fractionBits - x.fraction.log2) (by omega) (by omega), Option.bind_some,
      minExponentFixed_eq, Option.bind_some, signed_eq (by omega) (by omega), Option.bind_some,
      signed_eq (by omega) (by omega), Option.bind_some, shiftLeft_eq (by omega) (by omega),
      Option.bind_some, fractionMaskFixed_eq, Option.bind_some, FloatFormat.fractionMask,
      Nat.and_two_pow_sub_one_eq_mod]
    rfl
  · rw [if_neg hsubnormal, if_neg hsubnormal]
    rfl

/-- The digits of a fraction that fits. -/
theorem fractionTextFixed_eq (hF : F < 2 ^ f.fractionBits) :
    fractionTextFixed f F = some (fractionText f F) := by
  unfold fractionTextFixed fractionText
  by_cases h0 : F = 0
  · rw [if_pos h0, if_pos h0]
    rfl
  obtain ⟨pad, hpad⟩ : ∃ k, 4 * fractionDigits f - f.fractionBits = k := ⟨_, rfl⟩
  have hmod : (4 - f.fractionBits % 4) % 4 = pad := by
    unfold fractionDigits at hpad
    omega
  have hfull : f.fractionBits + pad = 4 * fractionDigits f := by
    unfold fractionDigits at hpad ⊢
    omega
  have hdigits := fractionDigits_lt f
  have hlt : F * 2 ^ pad < 2 ^ 64 := by
    calc F * 2 ^ pad < 2 ^ f.fractionBits * 2 ^ pad :=
          Nat.mul_lt_mul_of_pos_right hF (Nat.two_pow_pos pad)
      _ = 2 ^ (4 * fractionDigits f) := by rw [← pow_add, hfull]
      _ ≤ 2 ^ 64 := Nat.pow_le_pow_right two_pos hdigits.le
  simp only [fractionBitsFixed_eq, Option.bind_eq_bind, Option.bind_some]
  rw [if_neg h0, if_neg h0, unsigned_eq (n := 4 - f.fractionBits % 4) (by omega) (by omega),
    Option.bind_some, hmod, unsigned_natCast (by omega), Option.bind_some, hfull,
    Nat.mul_div_cancel_left _ (by omega), shiftLeft_eq (by omega) hlt, hpad]
  rfl

/-- **Writing a pattern.** -/
theorem renderFixed_eq (bits : ℕ) : renderFixed f bits = some (render f bits) := by
  have hfit := f.fields_fit bits
  simp only [renderFixed, render, FloatFormat.fieldsFixed_eq, Option.bind_eq_bind, Option.bind_some,
    normaliseFixed_eq hfit]
  cases h : normalise f (f.fields bits) with
  | none => rfl
  | some written =>
    simp only [fractionTextFixed_eq (place_normalise hfit h).1]
    rfl

/-! ## Both ways -/

/-- **Hex floats stay within their widths**, for every format and sign, every body of less than
`2 ^ 30` bytes and all bits. Reading and writing in registers give what they give for numbers of
unlimited size, the stages of reading included: no step overflows, underflows or shifts by its width
or more. The digits that pass the length test fit 64 bits, the exponent can be moved by the bias or
taken from the least one in 32 bits, and the fields that are put together fit the format. -/
theorem within_widths (f : FloatFormat) (negative : Bool) {body : List Char}
    (hbody : (String.ofList body).utf8ByteSize < 2 ^ 30) (bits : ℕ) :
    (parseFixed f negative body).run = some (parse f negative body) ∧
      renderFixed f bits = some (render f bits) ∧
      ∀ rest digits tail, afterLeadingOne body = .ok rest →
        splitFraction rest = .ok (digits, tail) →
        (fractionFixed f digits).run = some (fraction f digits) ∧
        (exponentFixed tail).run = some (exponent tail) ∧
        (digits.all Char.isHexDigit = true → (trimRight digits).length ≤ fractionDigits f →
          Numeral.value 16 (trimRight digits) < 2 ^ 64) ∧
        ∀ F e, fraction f digits = .ok F → exponent tail = .ok e →
          (placeFixed f negative e F).run = some ((place f negative e F).map f.assemble) ∧
          (signed 32 (e + f.bias) = some (e + f.bias) ∧
            signed 32 (f.minExponent - e) = some (f.minExponent - e)) ∧
          ∀ x, place f negative e F = .ok x →
            x.exponent ≤ f.exponentFieldMax ∧ x.fraction ≤ f.fractionMask := by
  have hlen := (Numeral.length_le_utf8ByteSize body).trans_lt hbody
  refine ⟨parseFixed_eq hlen, renderFixed_eq bits, fun rest digits tail hone hsplit => ?_⟩
  have hdigits := length_digits_le hone hsplit
  refine ⟨fractionFixed_eq (by omega), exponentFixed_eq tail, value_kept_lt, fun F e hF he => ?_⟩
  have hclamped := exponent_clamped he
  have hfits := fraction_le hF
  refine ⟨placeFixed_eq hclamped hfits, ?_, fun x hx => place_fit hfits hx⟩
  have hclamp : exponentClamp = 2 ^ 20 := rfl
  have hmin : f.minExponent = 1 - f.bias := rfl
  have hbias := f.bias_lt
  exact ⟨signed_eq (by omega) (by omega), signed_eq (by omega) (by omega)⟩

/-- A half under the least normal one, with zeroes behind its fraction. -/
theorem within_widths_subnormal :
    (parseFixed .half true "1.80000000000000000000p-15".toList).run = some (.ok 0x8300) ∧
      renderFixed .half 0x8300 = some (some "-0x1.8p-15".toList) ∧
      (placeFixed .half true (-15) 0x200).run = some (.ok 0x8300) := by
  have hbody : (String.ofList "1.80000000000000000000p-15".toList).utf8ByteSize < 2 ^ 30 := by
    decide +kernel
  obtain ⟨hparse, hrender, hstages⟩ := within_widths .half true hbody 0x8300
  obtain ⟨-, -, -, hplace⟩ := hstages _ "80000000000000000000".toList "-15".toList rfl rfl
  rw [hparse, hrender, (hplace 0x200 (-15) (by rfl) rfl).1]
  exact ⟨rfl, by decide +kernel, rfl⟩

end LiteralCodec.Hexfloat
