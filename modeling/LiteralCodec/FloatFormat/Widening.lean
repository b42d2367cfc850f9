import LiteralCodec.FloatFormat.Nearest

/-!
# Widening halves to singles

A half becomes a single by the arithmetic of singles: the fraction, with the leading bit of the
significand if there is one, is multiplied by a power of two. Each operation is rounded to the
nearest single. The sign is a factor of one and only sets the sign bit, so that magnitudes are
enough.

Operations: `f16_bits_to_f32` (`halfToSingle`). Out of scope: how a power of two is multiplied
together. Every power of two in between is a single as well.
-/

namespace LiteralCodec

-- powers are those of core, whatever else is imported
attribute [local instance (high)] instPowNat

namespace FloatFormat

/-- The magnitude nearest to the sum of two finite ones. -/
def sum (f : FloatFormat) (a b : Nat) : Nat :=
  f.nearest (f.units a + f.units b) (2 ^ f.unitExponent)

/-- The magnitude nearest to the product of two finite ones. -/
def product (f : FloatFormat) (a b : Nat) : Nat :=
  f.nearest (f.units a * f.units b) (2 ^ f.unitExponent * 2 ^ f.unitExponent)

/-- The magnitude of a power of two. -/
def twoPower (f : FloatFormat) : Int → Nat
  | .ofNat k => f.nearest (2 ^ k) 1
  | .negSucc k => f.nearest 1 (2 ^ (k + 1))

/-- The magnitude of the single that a half becomes. -/
def halfToSingle (magnitude : Nat) : Nat :=
  let x := half.fields magnitude
  let fraction := single.nearest x.fraction 1
  if x.exponent = 0 then single.product fraction (single.twoPower (-24))
  else
    single.product (single.sum (single.nearest 1024 1) fraction)
      (single.twoPower (x.exponent - 25))

/-- The magnitude of the double nearest to a finite single. -/
def singleToDouble (magnitude : Nat) : Nat :=
  double.nearest (single.units magnitude) (2 ^ single.unitExponent)

end FloatFormat

end LiteralCodec
