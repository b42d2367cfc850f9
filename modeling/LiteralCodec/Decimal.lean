import LiteralCodec.Numeral

/-!
# Decimal numerals

A decimal numeral is `[-]digits[.digits][e[+|-]digits]`, with `e` in either case. The digits on
either side of the point may be missing, but not on both. Nothing else is one: no plus sign in
front, no words for infinity or NaN. The digits are kept as they were written, so that no length or
exponent is too large; the number denoted is `coefficient * 10 ^ scale`.

Operations: `is_decimal_float`, which is kept with what it has found (`Decimal.parse?`).
-/

namespace LiteralCodec

open Numeral (cut splitSign splitExponentSign isDecimal)

/-- A decimal numeral. -/
structure Decimal where
  negative : Bool
  integer : List Char
  fraction : List Char
  exponent : Int
  deriving DecidableEq, Repr

namespace Decimal

/-- The digits before and after the point. -/
def digits (d : Decimal) : List Char := d.integer ++ d.fraction

/-- The digits as one integer. -/
def coefficient (d : Decimal) : Nat := Numeral.value 10 d.digits

/-- The power of ten that the last digit counts. -/
def scale (d : Decimal) : Int := d.exponent - d.fraction.length

/-- The character between the digits and the exponent. -/
def isExponentMark (c : Char) : Bool := c == 'e' || c == 'E'

/-- Reads the text of an exponent: decimal digits, with a sign or without. -/
def exponent? (s : List Char) : Option Int :=
  let (negative, digits) := splitExponentSign s
  if isDecimal digits then
    some (if negative then -Numeral.value 10 digits else Numeral.value 10 digits)
  else none

/-- Reads a decimal numeral. -/
def parse? (s : List Char) : Option Decimal :=
  let (negative, rest) := splitSign s
  let (mantissa, power) := cut isExponentMark rest
  let (integer, fraction) := cut (· == '.') mantissa
  let fraction := fraction.getD []
  if isDecimal (integer ++ fraction) then
    match power with
    | none => some ⟨negative, integer, fraction, 0⟩
    | some t => (exponent? t).map (⟨negative, integer, fraction, ·⟩)
  else none

end Decimal

end LiteralCodec
