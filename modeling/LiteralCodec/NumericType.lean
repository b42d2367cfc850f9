import LiteralCodec.FloatFormat
import LiteralCodec.Word

/-!
# Numeric types

The declared type a literal is read for: an integer of 1 to 128 bits, signed or not, or a floating
point number of one of the three formats. The bounds on an integer's width are part of the type.

Operations: `int`, `float` and `new` (`declare`), `width`, `float_format` (`format?`), `word_count`
(`wordCount`), `sign_extends` (`signExtends`).

## Results

* `NumericType.width_pos`, `NumericType.width_le`: a type has 1 to 128 bits.
-/

namespace LiteralCodec

-- powers are those of core, whatever else is imported
attribute [local instance (high)] instPowNat

/-- A type that literals are stored as. -/
inductive NumericType
  | int (signed : Bool) (width : Nat) (pos : 0 < width) (le : width ≤ Bits.maxWidth)
  | float (format : FloatFormat)
  deriving DecidableEq, Repr

namespace NumericType

/-! ## Declaring a type -/

/-- Why a declaration names no type. -/
inductive Error
  | intWidth (width : Nat)
  | floatWidth (width : Nat)
  deriving DecidableEq, Repr

/-- The text of a failure. -/
def Error.message : Error → String
  | intWidth width =>
    "unsupported integer width " ++ toString width ++ " (expected 1 to " ++
      toString Bits.maxWidth ++ ")"
  | floatWidth width =>
    "unsupported floating point width " ++ toString width ++ " (expected 16, 32 or 64)"

/-- The type with a declared width; signedness counts for integers only. -/
def declare (width : Nat) (signed isFloat : Bool) : Except Error NumericType :=
  if isFloat then
    match FloatFormat.ofWidth? width with
    | some format => .ok (.float format)
    | none => .error (.floatWidth width)
  else if h : 0 < width ∧ width ≤ Bits.maxWidth then .ok (.int signed width h.1 h.2)
  else .error (.intWidth width)

/-! ## What a type fixes -/

/-- The size of a number in bits. -/
def width : NumericType → Nat
  | int _ width _ _ => width
  | float format => format.width

/-- The size of a number in words. -/
def wordCount (ty : NumericType) : Nat := Word.count ty.width

/-- The format of a floating point type. -/
def format? : NumericType → Option FloatFormat
  | int .. => none
  | float format => some format

/-- Whether the bits above the width repeat the sign bit; otherwise they are zero. -/
def signExtends : NumericType → Bool
  | int signed .. => signed
  | float _ => false

/-- The least integer of an integer type. -/
def least (signed : Bool) (width : Nat) : Int := if signed then -2 ^ (width - 1) else 0

/-- The greatest integer of an integer type. -/
def greatest (signed : Bool) (width : Nat) : Int :=
  if signed then 2 ^ (width - 1) - 1 else 2 ^ width - 1

/-- The name of a type: `i48`, `u16`, `f32`. -/
def text : NumericType → String
  | int signed width _ _ => (if signed then "i" else "u") ++ toString width
  | float format => format.text

theorem width_pos (ty : NumericType) : 0 < ty.width := by
  cases ty with
  | int _ _ pos _ => exact pos
  | float format => cases format <;> decide

theorem width_le (ty : NumericType) : ty.width ≤ Bits.maxWidth := by
  cases ty with
  | int _ _ _ le => exact le
  | float format => cases format <;> decide

end NumericType

end LiteralCodec
