import LiteralCodec.Fixed.Word
import LiteralCodec.Value

/-!
# Values in fixed widths

Packing and unpacking values as it is done in registers of 128 bits. The width of a type is a mask
of low ones. Bits fit the type if none of them stands above the mask. A number without a sign fits a
signed type if it is at most the mask without its highest bit. A number with a sign lies between two
bounds that are found by a shift, except in the widest type, which holds whatever its register
holds. Unpacking cuts bits off by masks, and compares what was stored with what packing would have
stored.

Operations: `low_mask` (`Bits.lowMaskFixed`), `to_bits` (`toBitsFixed`), `pack` (`packFixed`),
`unpack` (`unpackFixed`).
-/

namespace LiteralCodec

open Fixed (Checked shiftLeft shiftRight complement lowOnes)

-- powers are those of core, whatever else is imported
attribute [local instance (high)] instPowNat

/-- All ones in the low `width` bits. -/
def Bits.lowMaskFixed (width : Nat) : Option Nat :=
  if maxWidth ≤ width then some (2 ^ maxWidth - 1) else lowOnes maxWidth width

namespace Value

/-- Whether what is given fits its register. -/
def InRegister : Value → Prop
  | unsigned number => number < 2 ^ Bits.maxWidth
  | signed number => -2 ^ (Bits.maxWidth - 1) ≤ number ∧ number < 2 ^ (Bits.maxWidth - 1)
  | bits pattern => pattern < 2 ^ Bits.maxWidth

/-- The greatest number of an integer type. -/
def greatestFixed (isSigned : Bool) (width : Nat) : Option Nat := do
  let mask ← Bits.lowMaskFixed width
  if isSigned then shiftRight Bits.maxWidth mask 1 else return mask

/-- Whether a number with a sign lies in the range of an integer type. -/
def inRangeFixed (isSigned : Bool) (width : Nat) (number : Int) : Option Bool := do
  let mask ← Bits.lowMaskFixed width
  if !isSigned then return 0 ≤ number && Bits.ofInt Bits.maxWidth number ≤ mask
  else if width = Bits.maxWidth then return true
  else
    let amount ← Fixed.unsigned 32 (width - 1 : Int)
    let bound ← Fixed.signed Bits.maxWidth (← shiftLeft Bits.maxWidth 1 amount)
    let least ← Fixed.signed Bits.maxWidth (-bound)
    return least ≤ number && number < bound

/-- The pattern of a value in a type. -/
def toBitsFixed (value : Value) (ty : NumericType) : Checked PackError Nat := do
  let mask ← Bits.lowMaskFixed ty.width
  match value, ty with
  | bits pattern, _ =>
    if pattern &&& complement Bits.maxWidth mask = 0 then return pattern
    else throw (.outOfRange value ty)
  | unsigned number, .int isSigned width _ _ =>
    if number ≤ (← greatestFixed isSigned width) then return number
    else throw (.outOfRange value ty)
  | signed number, .int isSigned width _ _ =>
    if ← inRangeFixed isSigned width number then return Bits.ofInt Bits.maxWidth number &&& mask
    else throw (.outOfRange value ty)
  | unsigned _, .float _ | signed _, .float _ => throw (.notAnInteger value ty)

/-- The pattern with the bits above the width filled in. -/
def extendFixed (ty : NumericType) (pattern : Nat) : Option Nat :=
  if ty.signExtends then Bits.signExtendFixed pattern ty.width else some pattern

/-- The words of a value, low-order word first. -/
def packFixed (value : Value) (ty : NumericType) : Checked PackError (List Word) := do
  let pattern ← value.toBitsFixed ty
  Word.splitFixed (← extendFixed ty pattern) (← Word.countFixed ty.width)

/-- What packing would have stored for a pattern, in the words of a type. -/
def canonicalFixed (ty : NumericType) (pattern : Nat) : Option Nat := do
  let storage ← Fixed.unsigned 32 ((← Word.countFixed ty.width) * 32 : Nat)
  if ty.signExtends then
    return (← Bits.signExtendFixed pattern ty.width) &&& (← Bits.lowMaskFixed storage)
  else return pattern

/-- The value of a pattern within the width of a type. -/
def ofBitsFixed (ty : NumericType) (pattern : Nat) : Option Value :=
  match ty with
  | .int true width _ _ => do
    return signed (Bits.toInt Bits.maxWidth (← Bits.signExtendFixed pattern width))
  | .int false _ _ _ => some (unsigned pattern)
  | .float _ => some (bits pattern)

/-- The value of words, low-order word first. -/
def unpackFixed (words : List Word) (ty : NumericType) : Checked PackError Value := do
  let expected ← Word.countFixed ty.width
  if words.length = expected then
    let stored ← Word.joinFixed words
    let pattern := stored &&& (← Bits.lowMaskFixed ty.width)
    if stored = (← canonicalFixed ty pattern) then ofBitsFixed ty pattern
    else throw (.nonCanonicalPadding words ty)
  else throw (.wordCountMismatch expected words.length)

end Value

end LiteralCodec
