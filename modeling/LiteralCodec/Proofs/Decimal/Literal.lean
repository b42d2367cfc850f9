import LiteralCodec.Proofs.Decimal.Pattern
import LiteralCodec.Proofs.Decimal.Text
import LiteralCodec.Proofs.Reading

/-!
# Decimal literals of floating point types

A decimal literal is rounded once, to the nearest number of its type. The decimal forms of the other
types and the hex forms do not get in the way, since a decimal literal starts with neither an
exclamation mark nor a hex mark.

Results:
* `firstReading_decimal`: a decimal literal is read as a decimal.
* `read_decimal`: the words of a decimal literal.
-/

namespace LiteralCodec.Literal

open FloatFormat (half single double)
open Numeral (length_le_utf8ByteSize)

theorem firstReading_decimal (f : FloatFormat) (t : DecimalText) :
    firstReading Form.all (.float f) t.text =
      some ((t.decimal.pattern? f).elim (.error .outOfRange) fun p => .ok (.bits p)) := by
  have hraw : Form.readRawBits t.text = none := by
    refine readRawBits_eq_none fun h => ?_
    obtain ⟨c, hc, hd⟩ := t.head?_text
    rw [hc, Option.some.injEq] at h
    subst h
    rcases hd with hd | hd | hd <;> cases hd
  have hhex : Form.readHexFloat f t.text = none := by
    simp only [Form.readHexFloat, t.splitSign_text, t.afterHexMark?_unsigned, Option.map_none]
  have hdec : Form.readDecimalFloat f t.text =
      some ((t.decimal.pattern? f).elim (.error .outOfRange) fun p => .ok (.bits p)) := by
    simp only [Form.readDecimalFloat, t.parse?_text, Option.map_some]
    cases t.decimal.pattern? f <;> rfl
  rw [firstReading_float, hraw, hhex, hdec]
  rfl

/-- **A decimal literal is rounded once.** Its words hold the sign and the magnitude nearest to the
number it denotes, ties to even. If that is infinity, which is so from the bound of the format on,
the literal is out of range. -/
theorem read_decimal (f : FloatFormat) (reporter : Reporter) (loc : Option Location)
    (t : DecimalText)
    (hlen : (String.ofList t.text).utf8ByteSize < 2 ^ 62) :
    ∃ m, f.IsNearest |t.value| m ∧
      (m = f.infinity ↔ (2 - 1 / 2 ^ (f.fractionBits + 1)) * 2 ^ f.bias ≤ |t.value|) ∧
      (f = half → (m = f.infinity ↔ 65520 ≤ |t.value|)) ∧
      read (.float f) reporter ⟨loc, String.ofList t.text⟩ =
        if m < f.infinity then
          .ok (Word.ofInt (Word.count f.width) (f.sign t.negative + m : ℕ))
        else .error (reporter.invalid .outOfRange ⟨loc, String.ofList t.text⟩) := by
  have hlen' : t.decimal.digits.length < 2 ^ 62 :=
    (t.length_digits_le.trans (length_le_utf8ByteSize t.text)).trans_lt hlen
  obtain ⟨m, hr, hp⟩ := Decimal.pattern?_rounds t.isDigit_digits hlen' f
  have hfirst := firstReading_decimal f t
  have hneg : t.decimal.negative = t.negative := rfl
  rw [hp, hneg, ← String.toList_ofList (l := t.text)] at hfirst
  rw [← t.abs_value] at hr
  have hiff := FloatFormat.rounds_infinity_iff hr
  refine ⟨m, hr.isNearest, by rw [hiff, FloatFormat.overflow_eq], ?_, ?_⟩
  · rintro rfl
    have hb : half.overflow = 65520 := by
      rw [FloatFormat.overflow_eq]
      have hfb : half.fractionBits = 10 := rfl
      have hbias : half.bias = 15 := rfl
      rw [hfb, hbias]
      norm_num
    rw [hiff, hb]
  · by_cases hm : m < f.infinity
    · rw [if_pos hm, Option.elim_some] at hfirst
      rw [if_pos hm]
      have hlt := FloatFormat.sign_add_lt t.negative (hm.trans f.infinity_lt_signBit)
      have hbits : (Value.bits (f.sign t.negative + m)).toBits (.float f) =
          .ok (f.sign t.negative + m) := if_pos hlt
      rw [read_of_ok ⟨loc, String.ofList t.text⟩ hfirst, hbits, ← Value.split_extend_float]
    · rw [if_neg hm, Option.elim_none] at hfirst
      rw [if_neg hm]
      exact read_of_error ⟨loc, String.ofList t.text⟩ hfirst

/-- The least decimal that is out of range for halves. -/
theorem read_decimal_65520 :
    read (.float half) ⟨"", .soft⟩ ⟨none, "65520"⟩ =
      .error (.invalid ⟨.outOfRange, "65520", none⟩) := by
  let t : DecimalText :=
    { negative := false
      integer := ['6', '5', '5', '2', '0']
      fraction? := none
      exponent? := none
      isDigit_integer := List.all_eq_true.mp (by decide)
      isDigit_fraction := List.forall_mem_nil _
      digits_ne_nil := by decide }
  have hv : |t.value| = 65520 := by
    rw [t.abs_value, Decimal.magnitude, show t.decimal.coefficient = 65520 from rfl,
      show t.decimal.scale = 0 from rfl]
    norm_num
  obtain ⟨m, -, -, hm, hread⟩ := read_decimal half ⟨"", .soft⟩ none t (by decide)
  rw [if_neg (by rw [(hm rfl).mpr hv.ge]; exact lt_irrefl _)] at hread
  exact hread

end LiteralCodec.Literal
