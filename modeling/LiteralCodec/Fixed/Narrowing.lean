import LiteralCodec.Fixed
import LiteralCodec.FloatFormat.Narrowing

/-!
# Narrowing in fixed widths

Narrowing a double as it is done in registers: the pattern and its significand in 64 bits, exponents
in 32 with their sign, the result in 16. The answer to the question how to break a tie is optional,
and a question without an answer leaves no result. So narrowing without an answer has a result just
if the question is not asked.

Operations: `round_to_half` (`narrowFixed`).
-/

namespace LiteralCodec

open Fixed (unsigned signed shiftLeft shiftRight lowOnes)

-- powers are those of core, whatever else is imported
attribute [local instance (high)] instPowNat

namespace FloatFormat

/-- Whether a significand is rounded up, from the order of what was shifted out and half the step.
The question is asked on a tie only. -/
def roundsUpFixed (tie? : Option Ordering) (remainder : Ordering) (m : Nat) : Option Bool :=
  match remainder with
  | .gt => some true
  | .lt => some false
  | .eq => do
    match ← tie? with
    | .eq => return m &&& 1 == 1
    | side => return side == .gt

/-- A significand shifted down and rounded. -/
def roundShiftedFixed (tie? : Option Ordering) (significand shift : Nat) : Option Nat := do
  let m ← shiftRight 64 significand shift
  let remainder := significand &&& (← lowOnes 64 shift)
  let halfway ← shiftLeft 64 1 (← unsigned 32 (shift - 1 : Int))
  let up ← roundsUpFixed tie? (compare remainder halfway) m
  if up then unsigned 64 (m + 1 : Nat) else return m

/-- The magnitude of a half with a rounded significand and the exponent of its place. A carry out
of the significand goes to the exponent. -/
def placeHalfFixed (target : Int) (m : Nat) : Option Nat := do
  let leading ← shiftLeft 64 1 half.fractionBits
  if leading ≤ m then
    let field ← unsigned 64 (← signed 32 (target + half.bias))
    let fraction ← unsigned 64 (m - leading : Int)
    unsigned 64 ((← shiftLeft 64 field half.fractionBits) + fraction : Nat)
  else return m

/-- The magnitude of the half nearest to a double with these fields. -/
def narrowMagnitudeFixed (tie? : Option Ordering) (exponent fraction : Nat) : Option Nat := do
  if exponent = double.exponentFieldMax then
    return half.infinity ||| if fraction ≠ 0 then 2 ^ (half.fractionBits - 1) else 0
  else if exponent = 0 then return 0
  else
    let unbiased ← signed 32 ((← signed 32 exponent) - double.bias)
    if half.maxExponent < unbiased then return half.infinity
    else
      let significand := fraction ||| (← shiftLeft 64 1 double.fractionBits)
      let target := max unbiased half.minExponent
      let lost : Int := double.fractionBits - half.fractionBits
      let shift ← unsigned 32 (← signed 32 ((← signed 32 (lost + target)) - unbiased))
      if 63 < shift then return 0
      else
        let m ← roundShiftedFixed tie? significand shift
        unsigned 16 (← placeHalfFixed target m)

/-- The half nearest to a double, with the sign of the double. -/
def narrowFixed (tie? : Option Ordering) (bits : Nat) : Option Nat := do
  let top ← shiftRight 64 bits (double.width - half.width)
  let sign ← unsigned 16 (top &&& half.signBit : Nat)
  let exponent := (← shiftRight 64 bits double.fractionBits) &&& double.exponentFieldMax
  let magnitude ← narrowMagnitudeFixed tie? exponent (bits &&& double.fractionMask)
  return sign ||| magnitude

end FloatFormat

end LiteralCodec
