import LiteralCodec.Decimal.Pattern
import LiteralCodec.Diagnostic
import LiteralCodec.Hexfloat
import LiteralCodec.Value

/-!
# The forms of a literal

A literal is written in one of five forms. Each form says of a text and a type whether the text has
the form at all, and if so, which value it gives or what is wrong with it. An integer must fit the
widest integer type there is; whether it fits the type at hand is not the form's concern. A number
too large for every format, or too small to be exact, has no pattern to give.

Operations: `match_raw_bits`, `match_hex_float`, `match_hex_int`, `match_decimal_int`,
`match_decimal_float` (`readRawBits` and so on), `parse_magnitude` (`magnitude`), `negate`
(`negated`).

## Results

* `Literal.Form.mem_all`: the list of forms has every form.
-/

namespace LiteralCodec

open Numeral (splitSign afterHexMark? isHex isDecimal)

-- powers are those of core, whatever else is imported
attribute [local instance (high)] instPowNat

namespace Literal

/-- A way to write a literal. -/
inductive Form
  /-- `!0x…`, the bits themselves. -/
  | rawBits
  /-- `[-]0x1[.…]p…`, for floating point types. -/
  | hexFloat
  /-- `[-]0x…`, for integer types. -/
  | hexInteger
  /-- `[-]…`, for integer types. -/
  | decimalInteger
  /-- `[-]…[.…][e…]`, for floating point types. -/
  | decimalFloat
  deriving DecidableEq, Repr

/-- What a text of some form gives. -/
abbrev Reading := Except DiagnosticKind Value

namespace Form

/-- The forms in the order they are tried. -/
def all : List Form := [rawBits, hexFloat, hexInteger, decimalInteger, decimalFloat]

theorem mem_all (form : Form) : form ∈ all := by
  cases form <;> decide

/-- The number that digits denote, if the widest pattern holds it. -/
def magnitude (base : Nat) (digits : List Char) : Except DiagnosticKind Nat :=
  let number := Numeral.value base digits
  if number < 2 ^ Bits.maxWidth then .ok number else .error .outOfRange

/-- The number with the opposite sign, if the widest signed integer type holds it. -/
def negated (number : Nat) : Reading :=
  if number ≤ 2 ^ (Bits.maxWidth - 1) then .ok (.signed (-number)) else .error .outOfRange

/-- A text behind an exclamation mark is meant as raw bits, whatever it is. -/
def readRawBits : List Char → Option Reading
  | '!' :: body =>
    match afterHexMark? body with
    | some digits =>
      some (if isHex digits then (magnitude 16 digits).map .bits else .error .malformedLiteral)
    | none => some (.error .malformedLiteral)
  | _ => none

/-- What a reporter calls a hex float that cannot be read. -/
def hexFloatFailure : Hexfloat.Error → DiagnosticKind
  | .inexact => .outOfRange
  | _ => .malformedHexFloat

/-- A text behind a hex mark is meant as a hex float, whatever it is. -/
def readHexFloat (format : FloatFormat) (text : List Char) : Option Reading :=
  let (negative, rest) := splitSign text
  (afterHexMark? rest).map fun body =>
    match Hexfloat.parse format negative body with
    | .ok pattern => .ok (.bits pattern)
    | .error e => .error (hexFloatFailure e)

/-- Hex digits give bits; with a minus sign they give a number. -/
def readHexInteger (text : List Char) : Option Reading :=
  let (negative, rest) := splitSign text
  match afterHexMark? rest with
  | some digits =>
    if isHex digits then
      some do
        let number ← magnitude 16 digits
        if negative then negated number else return .bits number
    else none
  | none => none

/-- Decimal digits give a number. -/
def readDecimalInteger (text : List Char) : Option Reading :=
  let (negative, digits) := splitSign text
  if isDecimal digits then
    some do
      let number ← magnitude 10 digits
      if negative then negated number else return .unsigned number
  else none

/-- A decimal numeral gives the pattern of the nearest number, if that is finite. -/
def readDecimalFloat (format : FloatFormat) (text : List Char) : Option Reading :=
  (Decimal.parse? text).map fun decimal =>
    match decimal.pattern? format with
    | some pattern => .ok (.bits pattern)
    | none => .error .outOfRange

/-- What a text gives in a form, none if it does not have the form or the form is not for the type.
-/
def read (form : Form) (ty : NumericType) (text : List Char) : Option Reading :=
  match form, ty with
  | rawBits, _ => readRawBits text
  | hexFloat, .float format => readHexFloat format text
  | hexInteger, .int .. => readHexInteger text
  | decimalInteger, .int .. => readDecimalInteger text
  | decimalFloat, .float format => readDecimalFloat format text
  | _, _ => none

end Form

end Literal

end LiteralCodec
