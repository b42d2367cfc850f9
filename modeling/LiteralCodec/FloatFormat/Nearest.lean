import LiteralCodec.FloatFormat
import LiteralCodec.Rounding

/-!
# The nearest number of a format

Rounds a rational number to the nearest magnitude of a format, ties to the even significand. The
rational is first counted in least subnormals. If that count needs more bits than a significand has,
the surplus low bits are dropped, and each of them stands for one step of the exponent field. So the
pattern is the rounded significand plus `dropped` steps of the exponent, in all cases: a count that
drops nothing is its own pattern, and a carry out of the significand moves to the next exponent by
itself. What rounds past the largest finite number is infinity.

Operations: `parse` of a decimal as a single or a double (`ofDecimal`).

## Results

* `FloatFormat.nearest_le_infinity`: the result is a magnitude.
-/

namespace LiteralCodec

-- powers are those of core, whatever else is imported
attribute [local instance (high)] instPowNat

namespace FloatFormat

/-- How many low bits of a count of least subnormals lie below the significand. -/
def droppedBits (f : FloatFormat) (units : Nat) : Nat := units.log2 - f.fractionBits

/-- The magnitude nearest to `n / d`, ties to even. -/
def nearest (f : FloatFormat) (n d : Nat) : Nat :=
  let scaled := n * 2 ^ f.unitExponent
  let dropped := f.droppedBits (scaled / d)
  min (dropped * 2 ^ f.fractionBits + roundQuotient .eq scaled (d * 2 ^ dropped)) f.infinity

/-- The magnitude nearest to `coefficient * 10 ^ exponent`, ties to even. Since ten is more than two
cubed, a power past the first bound is past every finite number, and a number under the second is
less than half the least subnormal; neither needs its power of ten worked out. -/
def ofDecimal (f : FloatFormat) (coefficient : Nat) : Int → Nat
  | .ofNat k =>
    if coefficient = 0 then 0
    else if f.bias < 3 * k then f.infinity
    else f.nearest (coefficient * 10 ^ k) 1
  | .negSucc k =>
    if coefficient = 0 then 0
    else if coefficient.log2 + f.unitExponent + 2 ≤ 3 * (k + 1) then 0
    else f.nearest coefficient (10 ^ (k + 1))

theorem nearest_le_infinity (f : FloatFormat) (n d : Nat) : f.nearest n d ≤ f.infinity :=
  Nat.min_le_right _ _

theorem ofDecimal_le_infinity (f : FloatFormat) (coefficient : Nat) (exponent : Int) :
    f.ofDecimal coefficient exponent ≤ f.infinity := by
  unfold ofDecimal
  split <;> split
  · exact Nat.zero_le _
  · split
    · exact Nat.le_refl _
    · exact nearest_le_infinity _ _ _
  · exact Nat.zero_le _
  · split
    · exact Nat.zero_le _
    · exact nearest_le_infinity _ _ _

end FloatFormat

end LiteralCodec
