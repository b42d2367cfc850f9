import LiteralCodec.Decimal
import LiteralCodec.Scientific

/-!
# Scientific notation as a text

A number in scientific notation is printed as `[-]d[.d…]ed…`, and laid out from that text. Only
printed texts are read, so nothing about them is checked: the first `e` ends the digits, points
among the digits are passed over, and an exponent that is missing, that is none, or that does not
fit 32 bits counts as zero.

Operations: `layout_decimal` (`layoutText`), and the text it is given (`text`).
-/

namespace LiteralCodec

namespace Scientific

/-- The number as it is printed. Only the digits of a zero are all trimmed away. -/
def text (x : Scientific) : List Char :=
  Numeral.sign x.negative ++
    match x.digits with
    | [] => ['0', 'e', '0']
    | lead :: rest =>
      lead :: ((if rest = [] then [] else '.' :: rest) ++ 'e' :: Numeral.ofInt x.exponent)

/-- Whether an exponent fits 32 bits. -/
def fitsExponent (e : Int) : Bool := Int32.minValue.toInt ≤ e && e ≤ Int32.maxValue.toInt

/-- Reads a number in scientific notation. -/
def ofText (s : List Char) : Scientific :=
  let (mantissa, power) := Numeral.cut (· == 'e') s
  let (negative, digits) := Numeral.splitSign mantissa
  { negative := negative
    digits := digits.filter (· != '.')
    exponent := ((power.bind Decimal.exponent?).filter fitsExponent).getD 0 }

/-- The layout of a number that is given in scientific notation. -/
def layoutText (s : List Char) : List Char := (ofText s).layout

end Scientific

end LiteralCodec
