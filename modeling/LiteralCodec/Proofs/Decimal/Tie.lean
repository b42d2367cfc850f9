import LiteralCodec.Proofs.Decimal.Pattern
import LiteralCodec.Proofs.Decimal.Text

/-!
# Decimals and the midpoints of halves

Whether a decimal lies above a midpoint of halves, below it or on it is read off the significant
digits of both. That is the order of the numbers for all midpoints and for all decimals, near to the
midpoint or not, as long as the powers of ten of the decimal are kept.

Results:
* `compareToTie_exact`: significant digits are those of the number, and decide its order with every
  midpoint.
-/

namespace LiteralCodec

open FloatFormat (half double)

namespace Decimal

theorem eq_of_significant?_eq_some {d : Decimal} {a : Significant} (h : d.significant? = some a) :
    a = d.significant := by
  rcases d.significant?_cases with hs | hs <;> rw [hs] at h
  · cases h
  · exact (Option.some.inj h).symm

/-- **Significant digits are exact.** Let a decimal literal denote a number other than zero, and let
its powers of ten be kept. Then its significant digits have no zero at either end, and the number is
the fraction that they denote times the power of ten, but for the sign. Every midpoint between two
halves, from `2 ^ -25` to 65520, is a double, and comparing the literal with a double that is a
midpoint gives the order of the two numbers, the sign of either left out. -/
theorem compareToTie_exact (t : DecimalText) (h0 : t.value ≠ 0) {a : Significant}
    (h : t.decimal.significant? = some a) :
    parse? t.text = some t.decimal ∧ a.Normal ∧
    |t.value| = Numeral.fraction 10 a.digits * 10 ^ a.power ∧
    half.midpoint 0 = 1 / 2 ^ 25 ∧ half.midpoint (half.infinity - 1) = 65520 ∧
    ∀ k < half.infinity, (∃ m < double.infinity, double.value m = half.midpoint k) ∧
      ∀ bits, double.value (double.magnitude bits) = half.midpoint k →
        t.decimal.compareToTie bits = compare |t.value| (half.midpoint k) := by
  obtain rfl := eq_of_significant?_eq_some h
  have hcoefficient : t.decimal.coefficient ≠ 0 := fun hc => by
    rw [← abs_ne_zero, t.abs_value, magnitude, hc, Nat.cast_zero, zero_mul] at h0
    exact h0 rfl
  have hnormal : t.decimal.significant.Normal := significant_normal t.isDigit_digits hcoefficient
  refine ⟨t.parse?_text, hnormal, ?_, FloatFormat.midpoint_half_zero,
    FloatFormat.midpoint_half_last, fun k hk =>
      ⟨FloatFormat.exists_double_midpoint hk, fun bits hv => ?_⟩⟩
  · rw [t.abs_value, ← significant_value, Significant.value]
  · rw [t.abs_value]
    exact compareToTie_of_kept hnormal h hk hv

/-- A number just past the midpoint after one, which as a double is on it. -/
theorem compareToTie_exact_past :
    ∃ d, parse? "-1.00048828125000000000000000001".toList = some d ∧
      d.compareToTie 0x3FF0020000000000 = .gt := by
  let t : DecimalText :=
    { negative := true
      integer := ['1']
      fraction? := some "00048828125000000000000000001".toList
      exponent? := none
      isDigit_integer := List.all_eq_true.mp (by decide)
      isDigit_fraction := List.all_eq_true.mp (by decide +kernel)
      digits_ne_nil := by decide }
  have hvalue : |t.value| = 100048828125000000000000000001 / 10 ^ 29 := by
    rw [t.abs_value, magnitude,
      show t.decimal.coefficient = 100048828125000000000000000001 by decide +kernel,
      show t.decimal.scale = -29 by decide +kernel]
    norm_num
  have hmid : half.midpoint 0x3C00 = 1 + 1 / 2 ^ 11 := by
    rw [FloatFormat.midpoint_half_eq,
      show half.units 0x3C00 + half.units (0x3C00 + 1) = 2 ^ 25 + 2 ^ 14 by decide]
    norm_num
  have htie : double.value (double.magnitude 0x3FF0020000000000) = half.midpoint 0x3C00 := by
    have hv : double.value (1023 * 2 ^ double.fractionBits + 2 ^ 41) =
        (1 + (2 ^ 41 : ℕ) / 2 ^ 52) * 2 ^ ((1023 : ℕ) - 1023 : ℤ) :=
      FloatFormat.value_double_normal (by decide) (by decide)
    have hm : double.magnitude 0x3FF0020000000000 = 1023 * 2 ^ double.fractionBits + 2 ^ 41 := by
      decide
    rw [hm, hv, hmid]
    norm_num
  have h0 : t.value ≠ 0 := by
    rw [← abs_ne_zero, hvalue]
    norm_num
  obtain ⟨hparse, -, -, -, -, hties⟩ := compareToTie_exact t h0
    (a := ⟨"100048828125000000000000000001".toList, 1⟩) (by decide +kernel)
  refine ⟨t.decimal, hparse, ?_⟩
  rw [(hties 0x3C00 (by decide)).2 _ htie, hvalue, hmid, compare_gt_iff_gt]
  norm_num

end Decimal

end LiteralCodec
