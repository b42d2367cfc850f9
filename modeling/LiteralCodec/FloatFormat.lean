/-!
# Binary floating point formats

The three interchange formats a literal can be stored in, and the fields of their patterns: sign,
biased exponent and fraction. A **magnitude** is a pattern without its sign bit. Finite magnitudes
are counted in **units** of the least subnormal, which makes the value of a pattern a natural number
divided by a power of two: `units m / 2 ^ unitExponent`.

Operations: `from_width` (`ofWidth?`), `width`, `exponent_bits`, `fraction_bits`, `bias`,
`max_exponent`, `min_exponent`, `exponent_field_max`, `fraction_mask`, `sign_bit`, `fields`,
`assemble`, each under its own name.

## Results

* `FloatFormat.fields_fit`: the fields of a pattern fit the format.
* `FloatFormat.fields_assemble`: fields that fit are read back from the pattern they make.
-/

namespace LiteralCodec

-- powers are those of core, whatever else is imported
attribute [local instance (high)] instPowNat

/-- An interchange format. -/
inductive FloatFormat
  | half
  | single
  | double
  deriving DecidableEq, Repr

namespace FloatFormat

/-! ## Parameters -/

/-- The size of a pattern in bits. -/
def width : FloatFormat → Nat
  | half => 16
  | single => 32
  | double => 64

/-- The format of that many bits, if there is one. -/
def ofWidth? : Nat → Option FloatFormat
  | 16 => some half
  | 32 => some single
  | 64 => some double
  | _ => none

/-- The size of the exponent field. -/
def exponentBits : FloatFormat → Nat
  | half => 5
  | single => 8
  | double => 11

/-- The size of the fraction field; the leading bit of a significand is not stored. -/
def fractionBits (f : FloatFormat) : Nat := f.width - f.exponentBits - 1

/-- What the exponent field of a normal number exceeds its exponent by. -/
def bias (f : FloatFormat) : Nat := 2 ^ (f.exponentBits - 1) - 1

/-- The largest exponent of a finite number. -/
def maxExponent (f : FloatFormat) : Int := f.bias

/-- The smallest exponent of a normal number. -/
def minExponent (f : FloatFormat) : Int := 1 - f.bias

/-- The exponent field of infinities and NaNs. -/
def exponentFieldMax (f : FloatFormat) : Nat := 2 ^ f.exponentBits - 1

/-- The largest fraction. -/
def fractionMask (f : FloatFormat) : Nat := 2 ^ f.fractionBits - 1

/-- The pattern of the sign bit alone. -/
def signBit (f : FloatFormat) : Nat := 2 ^ (f.width - 1)

/-- The magnitude of infinity, one above the largest finite magnitude. -/
def infinity (f : FloatFormat) : Nat := f.exponentFieldMax * 2 ^ f.fractionBits

/-- The least subnormal is two to the minus this. -/
def unitExponent (f : FloatFormat) : Nat := f.bias - 1 + f.fractionBits

/-- The name of the type of numbers in the format. -/
def text (f : FloatFormat) : String := "f" ++ toString f.width

theorem width_eq (f : FloatFormat) : f.width = f.fractionBits + f.exponentBits + 1 := by
  cases f <;> rfl

theorem exponentFieldMax_eq (f : FloatFormat) : f.exponentFieldMax = 2 * f.bias + 1 := by
  cases f <;> rfl

theorem le_fractionMask_iff {f : FloatFormat} {n : Nat} :
    n ≤ f.fractionMask ↔ n < 2 ^ f.fractionBits :=
  Nat.le_sub_one_iff_lt (Nat.two_pow_pos _)

/-! ## Fields -/

/-- The three fields of a pattern. -/
structure Fields where
  negative : Bool
  exponent : Nat
  fraction : Nat
  deriving DecidableEq, Repr

/-- The exponent and the fraction have no more bits than their fields. -/
def Fields.Fit (f : FloatFormat) (x : Fields) : Prop :=
  x.exponent ≤ f.exponentFieldMax ∧ x.fraction ≤ f.fractionMask

instance (f : FloatFormat) (x : Fields) : Decidable (x.Fit f) :=
  inferInstanceAs (Decidable (_ ∧ _))

/-- The fields of a pattern; bits above the width are ignored. -/
def fields (f : FloatFormat) (bits : Nat) : Fields where
  negative := bits / 2 ^ (f.width - 1) % 2 == 1
  exponent := bits / 2 ^ f.fractionBits % 2 ^ f.exponentBits
  fraction := bits % 2 ^ f.fractionBits

/-- The sign bit, if the flag is set. -/
def sign (f : FloatFormat) (negative : Bool) : Nat := if negative then f.signBit else 0

/-- The pattern of fields that fit. -/
def assemble (f : FloatFormat) (x : Fields) : Nat :=
  f.sign x.negative + x.exponent * 2 ^ f.fractionBits + x.fraction

theorem fields_fit (f : FloatFormat) (bits : Nat) : (f.fields bits).Fit f :=
  ⟨Nat.le_pred_of_lt (Nat.mod_lt _ (Nat.two_pow_pos _)),
    Nat.le_pred_of_lt (Nat.mod_lt _ (Nat.two_pow_pos _))⟩

theorem fields_assemble {f : FloatFormat} {x : Fields} (h : x.Fit f) :
    f.fields (f.assemble x) = x := by
  obtain ⟨negative, exponent, fraction⟩ := x
  obtain ⟨he, hf⟩ := h
  cases f <;> cases negative <;>
    simp only [fields, assemble, sign, signBit, exponentFieldMax, fractionMask, fractionBits,
      exponentBits, width, Fields.mk.injEq] at * <;>
    simp <;> omega

/-! ## Magnitudes -/

/-- A pattern without its sign bit. -/
def magnitude (f : FloatFormat) (bits : Nat) : Nat := bits % f.signBit

/-- A magnitude below infinity's is that of a finite number. -/
def isFinite (f : FloatFormat) (magnitude : Nat) : Bool := magnitude < f.infinity

/-- The value of a finite magnitude, counted in least subnormals. -/
def units (f : FloatFormat) (magnitude : Nat) : Nat :=
  let exponent := magnitude / 2 ^ f.fractionBits
  let fraction := magnitude % 2 ^ f.fractionBits
  if exponent = 0 then fraction else (2 ^ f.fractionBits + fraction) * 2 ^ (exponent - 1)

end FloatFormat

end LiteralCodec
