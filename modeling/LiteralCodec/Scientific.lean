import LiteralCodec.Numeral

/-!
# Scientific notation and its layout

A number in scientific notation is a list of digits with the point after the first, and an exponent
of ten. It is laid out without an exponent where that stays short: from four zeroes after the point
up to six digits before it, or as many as there are digits. Outside that range the exponent is
written with its sign and at least two digits.

Operations: `layout_decimal`, behind the text it reads (`layout`).

## Results

* `Scientific.layout_zero`: a number whose digits are all zero is written as one zero.
-/

namespace LiteralCodec

/-- The number `d₁.d₂…dₙ * 10 ^ exponent`, with its sign. -/
structure Scientific where
  negative : Bool
  digits : List Char
  exponent : Int
  deriving DecidableEq, Repr

namespace Scientific

/-- The number `coefficient * 10 ^ scale`; zeroes at the end of the coefficient go into the
exponent. -/
def ofCoefficient (negative : Bool) (coefficient : Nat) (scale : Int) : Scientific where
  negative := negative
  digits := Numeral.trimRight (Numeral.ofNat coefficient)
  exponent := scale + Numeral.digitCount coefficient - 1

/-- Whether the number is written without an exponent. -/
def isPositional (x : Scientific) : Bool := -4 ≤ x.exponent && x.exponent < max 6 x.digits.length

/-- The digits with an explicit exponent. -/
def layoutExponent (x : Scientific) : List Char :=
  x.digits.take 1 ++ (if x.digits.length ≤ 1 then [] else '.' :: x.digits.drop 1) ++
    'e' :: (if x.exponent < 0 then '-' else '+') ::
      (Numeral.ofNat x.exponent.natAbs).leftpad 2 '0'

/-- The digits without an exponent: behind zeroes, before zeroes, or with the point among them. -/
def layoutPositional (x : Scientific) : List Char :=
  match x.exponent with
  | .negSucc k => '0' :: '.' :: (List.replicate k '0' ++ x.digits)
  | .ofNat k =>
    if x.digits.length ≤ k + 1 then x.digits ++ List.replicate (k + 1 - x.digits.length) '0'
    else x.digits.take (k + 1) ++ '.' :: x.digits.drop (k + 1)

/-- The text of the number. -/
def layout (x : Scientific) : List Char :=
  Numeral.sign x.negative ++
    if x.digits.all (· == '0') then ['0']
    else if x.isPositional then x.layoutPositional
    else x.layoutExponent

theorem layout_zero {x : Scientific} (h : x.digits.all (· == '0') = true) :
    x.layout = Numeral.sign x.negative ++ ['0'] := by
  simp only [layout, h, ↓reduceIte]

end Scientific

end LiteralCodec
