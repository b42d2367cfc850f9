import LiteralCodec.Decimal.Significant
import LiteralCodec.FloatFormat.Narrowing
import LiteralCodec.FloatFormat.Nearest

/-!
# The pattern of a decimal

Reads a decimal numeral as a number of a format, rounded once: to the nearest, ties to even, the
sign kept also on zeroes. A decimal that rounds past the largest finite number has no pattern.

A half is read by way of the nearest double. That double can lie exactly halfway between two halves
while the decimal does not, so the decimal is then compared with the double, digit for digit. Every
point halfway between two halves is a multiple of two to the minus 25, so 25 places write it out in
full.

Operations: `decimal_to_f16_bits` (`Decimal.toHalf`), `compare_with_tie` (`Decimal.compareToTie`);
`parse` of a decimal as a single or a double, and the check for infinity behind it
(`Decimal.pattern?`).
-/

namespace LiteralCodec

open FloatFormat (half single double narrow)

-- powers are those of core, whatever else is imported
attribute [local instance (high)] instPowNat

namespace Decimal

/-- The nearest double, infinity included. -/
def toDouble (d : Decimal) : Nat := double.sign d.negative + double.ofDecimal d.coefficient d.scale

/-- The order of the magnitudes of a decimal and of a double halfway between two halves. A power of
ten too large to be kept leaves the two unordered, which counts as equal. -/
def compareToTie (d : Decimal) (bits : Nat) : Ordering :=
  let tie := ofQuotient 25 (double.units (double.magnitude bits)) (2 ^ double.unitExponent)
  match d.significant?, tie.significant? with
  | some a, some b => a.compare b
  | _, _ => .eq

/-- The nearest half, infinity included. -/
def toHalf (d : Decimal) : Nat := narrow (d.compareToTie d.toDouble) d.toDouble

/-- The pattern of the number that a decimal rounds to, unless that is infinite. -/
def pattern? (d : Decimal) : FloatFormat → Option Nat
  | .half =>
    if double.isFinite (double.magnitude d.toDouble) && half.isFinite (half.magnitude d.toHalf) then
      some d.toHalf
    else none
  | .single =>
    let magnitude := single.ofDecimal d.coefficient d.scale
    if single.isFinite magnitude then some (single.sign d.negative + magnitude) else none
  | .double =>
    let magnitude := double.ofDecimal d.coefficient d.scale
    if double.isFinite magnitude then some (double.sign d.negative + magnitude) else none

end Decimal

end LiteralCodec
