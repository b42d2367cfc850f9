import LiteralCodec.FloatFormat
import LiteralCodec.Rounding

/-!
# Narrowing doubles to halves

A double that stands for another number, such as the decimal it was read from, can lie exactly
halfway between two halves while the number it stands for does not. So narrowing takes the order of
that number and the double: it decides halfway, and nowhere else. With `.eq` the double stands for
itself, and a tie goes to the even half.

The significand of a double has 42 bits more than that of a half, and more again below the least
normal half, where each step of the exponent costs one more bit.

Operations: `round_to_half` (`narrow`), `f64_to_f16_bits` (`narrow .eq`).
-/

namespace LiteralCodec

-- powers are those of core, whatever else is imported
attribute [local instance (high)] instPowNat

namespace FloatFormat

/-- The exponent field that doubles give to the exponent of the least normal half. -/
def leastNormalHalf : Nat := double.bias - (half.bias - 1)

/-- The exponent field that doubles give to the exponent of the largest finite half. -/
def greatestNormalHalf : Nat := double.bias + half.bias

/-- How many low bits of a double's significand lie below the half's, for its exponent field. -/
def narrowedBits (exponent : Nat) : Nat :=
  double.fractionBits - half.fractionBits + (leastNormalHalf - exponent)

/-- The magnitude of the half nearest to a double with these fields. A double whose significand is
dropped with bits to spare lies under half the least half, as all subnormal doubles do. A NaN
becomes the quiet NaN. -/
def narrowMagnitude (tie : Ordering) (exponent fraction : Nat) : Nat :=
  if exponent = double.exponentFieldMax then
    half.infinity + if fraction = 0 then 0 else 2 ^ (half.fractionBits - 1)
  else if exponent = 0 then 0
  else if greatestNormalHalf < exponent then half.infinity
  else if 63 < narrowedBits exponent then 0
  else
    (exponent - leastNormalHalf) * 2 ^ half.fractionBits +
      roundQuotient tie (2 ^ double.fractionBits + fraction) (2 ^ narrowedBits exponent)

/-- The half nearest to a double, with the sign of the double. -/
def narrow (tie : Ordering) (bits : Nat) : Nat :=
  let x := double.fields bits
  half.sign x.negative + narrowMagnitude tie x.exponent x.fraction

end FloatFormat

end LiteralCodec
