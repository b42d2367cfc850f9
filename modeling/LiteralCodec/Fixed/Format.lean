import LiteralCodec.Fixed
import LiteralCodec.FloatFormat

/-!
# Fields of patterns in fixed widths

A pattern is kept in 64 bits, whatever its format, and so are its fields; exponents are numbers of
32 bits with their sign. Putting fields together has no result if they do not fit the format.

Operations: `fraction_bits`, `bias`, `min_exponent`, `exponent_field_max`, `fraction_mask`,
`sign_bit`, `fields`, `assemble`.

## Results

* `FloatFormat.fractionBitsFixed_eq`, `FloatFormat.biasFixed_eq` and the like: the parameters of the
  formats are in range.
-/

namespace LiteralCodec

open Fixed (unsigned signed shiftLeft shiftRight lowOnes)

-- powers are those of core, whatever else is imported
attribute [local instance (high)] instPowNat

namespace FloatFormat

variable (f : FloatFormat)

/-! ## Parameters -/

/-- The size of the fraction field. -/
def fractionBitsFixed : Option Nat := do
  let behindExponent ← unsigned 32 (f.width - f.exponentBits : Int)
  unsigned 32 (behindExponent - 1 : Int)

/-- What the exponent field of a normal number exceeds its exponent by. -/
def biasFixed : Option Int := do
  let amount ← unsigned 32 (f.exponentBits - 1 : Int)
  let bit ← signed 32 (← shiftLeft 32 1 amount)
  signed 32 (bit - 1)

/-- The smallest exponent of a normal number. -/
def minExponentFixed : Option Int := do
  signed 32 (1 - (← f.biasFixed))

/-- The exponent field of infinities and NaNs. -/
def exponentFieldMaxFixed : Option Nat := lowOnes 64 f.exponentBits

/-- The largest fraction. -/
def fractionMaskFixed : Option Nat := do
  lowOnes 64 (← f.fractionBitsFixed)

/-- The pattern of the sign bit alone. -/
def signBitFixed : Option Nat := do
  shiftLeft 64 1 (← unsigned 32 (f.width - 1 : Int))

theorem fractionBitsFixed_eq : f.fractionBitsFixed = some f.fractionBits := by
  cases f <;> rfl

theorem biasFixed_eq : f.biasFixed = some (f.bias : Int) := by
  cases f <;> rfl

theorem minExponentFixed_eq : f.minExponentFixed = some f.minExponent := by
  cases f <;> rfl

theorem exponentFieldMaxFixed_eq : f.exponentFieldMaxFixed = some f.exponentFieldMax := by
  cases f <;> rfl

theorem fractionMaskFixed_eq : f.fractionMaskFixed = some f.fractionMask := by
  cases f <;> rfl

theorem signBitFixed_eq : f.signBitFixed = some f.signBit := by
  cases f <;> rfl

theorem fractionBits_lt : f.fractionBits < 64 := by
  cases f <;> decide

theorem bias_lt : f.bias < 1024 := by
  cases f <;> decide

/-! ## Fields -/

/-- The fields of a pattern. -/
def fieldsFixed (bits : Nat) : Option Fields := do
  let negative := bits &&& (← f.signBitFixed) != 0
  let exponent := (← shiftRight 64 bits (← f.fractionBitsFixed)) &&& (← f.exponentFieldMaxFixed)
  let fraction := bits &&& (← f.fractionMaskFixed)
  return ⟨negative, exponent, fraction⟩

/-- The sign bit, if the flag is set. -/
def signFixed (negative : Bool) : Option Nat := if negative then f.signBitFixed else some 0

/-- The pattern of fields, which must fit the format. -/
def assembleFixed (x : Fields) : Option Nat := do
  guard (x.exponent ≤ (← f.exponentFieldMaxFixed))
  guard (x.fraction ≤ (← f.fractionMaskFixed))
  let sign ← f.signFixed x.negative
  let exponent ← shiftLeft 64 x.exponent (← f.fractionBitsFixed)
  return sign ||| exponent ||| x.fraction

theorem signFixed_eq (negative : Bool) : f.signFixed negative = some (f.sign negative) := by
  rw [signFixed, signBitFixed_eq, sign]
  cases negative <;> rfl

end FloatFormat

end LiteralCodec
