import LiteralCodec.Hexfloat
import LiteralCodec.Scientific.Shortest
import LiteralCodec.Value

/-!
# Writing literals

The canonical text of a number: an integer in decimal, a finite floating point number as its
shortest decimal, and an infinity or a NaN as a hex float. Reading the text gives the same words.

Operations: `format_float` (`floatText`), `format_value` (`writeValue`), `format_literal` (`write`).
The failure of the last two is that of packing and unpacking, not yet wrapped.

## Results

* `Literal.write_eq`: words are written as the value they hold.
-/

namespace LiteralCodec

namespace Literal

/-- The text of the floating point number with a pattern. Only zeroes have no hex float, and they
are finite. -/
def floatText (format : FloatFormat) (pattern : Nat) : List Char :=
  if format.isFinite (format.magnitude pattern) then
    (Scientific.ofPattern format pattern).layout
  else (Hexfloat.render format pattern).getD []

/-- The text of the number with a pattern. -/
def patternText (ty : NumericType) (pattern : Nat) : List Char :=
  match ty with
  | .int true width _ _ => Numeral.ofInt (Bits.toInt width pattern)
  | .int false _ _ _ => Numeral.ofNat pattern
  | .float format => floatText format pattern

/-- The text of a value. -/
def writeValue (ty : NumericType) (value : Value) : Except PackError String := do
  let pattern ← value.toBits ty
  return String.ofList (patternText ty pattern)

/-- The text of words, low-order word first. -/
def write (ty : NumericType) (words : List Word) : Except PackError String := do
  writeValue ty (← Value.unpack words ty)

/-- The text of a failure to write. -/
def writeFailureText (e : PackError) : String := "cannot disassemble literal: " ++ e.message

theorem write_eq {ty : NumericType} {words : List Word} {value : Value}
    (h : Value.unpack words ty = .ok value) : write ty words = writeValue ty value := by
  simp [write, h, bind, Except.bind]

end Literal

end LiteralCodec
