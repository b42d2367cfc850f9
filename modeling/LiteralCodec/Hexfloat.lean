import LiteralCodec.FloatFormat
import LiteralCodec.Numeral

/-!
# Hex floats

The notation `[-]0x1[.<hex digits>]p[+|-]<decimal digits>` names an exact bit pattern. An exponent
past that of the largest finite number stands for the exponent field of all ones, and the fraction
is then taken as it is: this is how infinities and NaNs are written. Zeroes have no such notation.

Reading works on the **body**, what follows `0x`. It is cut into the digits of the fraction and the
text of the exponent; both are read; and the pattern is put together from them. Writing goes the
other way, with the fraction of a subnormal shifted up until its leading bit is the one before the
point.

Operations: `parse_fraction` (`fraction`), `parse_exponent` (`exponent`), `parse`, `format`
(`render`).

## Results

* `Hexfloat.fraction_le`: a fraction that was read fits its field.
* `Hexfloat.exponent_clamped`: an exponent that was read lies within the clamp.
-/

namespace LiteralCodec

open Numeral (cut splitExponentSign isDecimal trimRight trimRight_append value_lt
  digit_lt_of_isHexDigit)

-- powers are those of core, whatever else is imported
attribute [local instance (high)] instPowNat

namespace Hexfloat

/-- Why a body names no pattern. -/
inductive Error
  | missingLeadingOne
  | emptyFraction
  | invalidFractionDigit
  | fractionTooLong
  | missingExponent
  | invalidExponent
  /-- The number is too small to be held without dropping bits. -/
  | inexact
  deriving DecidableEq, Repr

/-- The text of a failure. -/
def Error.message : Error → String
  | missingLeadingOne => "the leading mantissa digit must be '1'"
  | emptyFraction => "expected hex digits after '.'"
  | invalidFractionDigit => "invalid hex digit in mantissa"
  | fractionTooLong => "mantissa has more bits than the format holds"
  | missingExponent => "expected a 'p' exponent"
  | invalidExponent => "invalid decimal exponent"
  | inexact => "value is too small to represent exactly"

/-- The character between the fraction and the exponent. -/
def isExponentMark (c : Char) : Bool := c == 'p' || c == 'P'

/-- How many hex digits write out a fraction in full. -/
def fractionDigits (f : FloatFormat) : Nat := (f.fractionBits + 3) / 4

/-! ## Reading -/

/-- What follows the leading digit, which must be a one with no digit after it. -/
def afterLeadingOne : List Char → Except Error (List Char)
  | '1' :: rest =>
    if rest.head?.any Char.isHexDigit then .error .missingLeadingOne else .ok rest
  | _ => .error .missingLeadingOne

/-- The digits of the fraction, if there is a point, and the text behind the exponent mark. -/
def splitFraction : List Char → Except Error (List Char × List Char)
  | '.' :: rest =>
    match cut isExponentMark rest with
    | ([], _) => .error .emptyFraction
    | (_, none) => .error .missingExponent
    | (digits, some exponent) => .ok (digits, exponent)
  | c :: rest => if isExponentMark c then .ok ([], rest) else .error .missingExponent
  | [] => .error .missingExponent

/-- Moves `given` bits to the upper end of a field of `size` bits. Bits that this pushes out must be
zero. -/
def justify (size given bits : Nat) : Except Error Nat :=
  if given ≤ size then .ok (bits * 2 ^ (size - given))
  else if bits % 2 ^ (given - size) = 0 then .ok (bits / 2 ^ (given - size))
  else .error .fractionTooLong

/-- The fraction field that hex digits after the point name. Zeroes at the end are free; the digits
before them must fit the field, and so must the bits of the last one. -/
def fraction (f : FloatFormat) (digits : List Char) : Except Error Nat :=
  if digits.all Char.isHexDigit then
    let kept := trimRight digits
    if kept.length ≤ fractionDigits f then
      justify f.fractionBits (4 * kept.length) (Numeral.value 16 kept)
    else .error .fractionTooLong
  else .error .invalidFractionDigit

/-- An exponent of this size is far outside every format, and larger ones are read as this one. -/
def exponentClamp : Nat := 2 ^ (20 : Nat)

/-- The exponent that a text names. -/
def exponent (s : List Char) : Except Error Int :=
  let (negative, digits) := splitExponentSign s
  if isDecimal digits then
    let size : Nat := min (Numeral.value 10 digits) exponentClamp
    .ok (if negative then -size else size)
  else .error .invalidExponent

/-- The fields of the number `1.fraction * 2 ^ exponent`. Below the least normal number the leading
one is stored, and the bits that this pushes out must be zero. -/
def place (f : FloatFormat) (negative : Bool) (exponent : Int) (fraction : Nat) :
    Except Error FloatFormat.Fields :=
  if f.maxExponent < exponent then .ok ⟨negative, f.exponentFieldMax, fraction⟩
  else if f.minExponent ≤ exponent then .ok ⟨negative, (exponent + f.bias).toNat, fraction⟩
  else
    let dropped := (f.minExponent - exponent).toNat
    let significand := 2 ^ f.fractionBits + fraction
    if dropped ≤ f.fractionBits ∧ significand % 2 ^ dropped = 0 then
      .ok ⟨negative, 0, significand / 2 ^ dropped⟩
    else .error .inexact

/-- Reads the body of a hex float, with the sign that stood in front. -/
def parse (f : FloatFormat) (negative : Bool) (body : List Char) : Except Error Nat := do
  let rest ← afterLeadingOne body
  let (digits, mark) ← splitFraction rest
  let fraction ← fraction f digits
  let exponent ← exponent mark
  return f.assemble (← place f negative exponent fraction)

/-! ## Writing -/

/-- The exponent and the fraction to write, none for a zero. -/
def normalise (f : FloatFormat) (x : FloatFormat.Fields) : Option (Int × Nat) :=
  if x.exponent = f.exponentFieldMax then some (f.maxExponent + 1, x.fraction)
  else if x.exponent ≠ 0 then some (x.exponent - f.bias, x.fraction)
  else if x.fraction ≠ 0 then
    let shift := f.fractionBits - x.fraction.log2
    some (f.minExponent - shift, x.fraction * 2 ^ shift % 2 ^ f.fractionBits)
  else none

/-- The point and the hex digits of a fraction, nothing for zero. -/
def fractionText (f : FloatFormat) (fraction : Nat) : List Char :=
  if fraction = 0 then []
  else
    let padded := fraction * 2 ^ (4 * fractionDigits f - f.fractionBits)
    '.' :: trimRight ((Nat.toDigits 16 padded).leftpad (fractionDigits f) '0')

/-- An exponent with its sign, plus included. -/
def exponentText (exponent : Int) : List Char :=
  (if exponent < 0 then '-' else '+') :: Numeral.ofNat exponent.natAbs

/-- The body that names an exponent and a fraction. -/
def bodyText (f : FloatFormat) (exponent : Int) (fraction : Nat) : List Char :=
  '1' :: (fractionText f fraction ++ 'p' :: exponentText exponent)

/-- Writes the number with a pattern, none for a zero. -/
def render (f : FloatFormat) (bits : Nat) : Option (List Char) :=
  let x := f.fields bits
  (normalise f x).map fun (exponent, fraction) =>
    Numeral.sign x.negative ++ '0' :: 'x' :: bodyText f exponent fraction

/-! ## Ranges -/

/-- What is moved still fits its field. -/
theorem justify_lt {size given bits n : Nat} (hb : bits < 2 ^ given)
    (h : justify size given bits = .ok n) : n < 2 ^ size := by
  unfold justify at h
  split at h
  · next hle =>
    rw [Except.ok.injEq] at h
    rw [← h, show size = given + (size - given) by omega, Nat.pow_add, Nat.add_sub_cancel_left]
    exact Nat.mul_lt_mul_of_pos_right hb (Nat.two_pow_pos _)
  · next hlt =>
    split at h
    · rw [Except.ok.injEq] at h
      rw [← h]
      apply Nat.div_lt_of_lt_mul
      rwa [← Nat.pow_add, show given - size + size = given by omega]
    · simp at h

/-- The digits that are kept count four bits each. -/
theorem value_trimRight_lt {digits : List Char} (h : digits.all Char.isHexDigit = true) :
    Numeral.value 16 (trimRight digits) < 2 ^ (4 * (trimRight digits).length) := by
  obtain ⟨t, ht⟩ := trimRight_append digits
  have hv : Numeral.value 16 (trimRight digits) < 16 ^ (trimRight digits).length :=
    value_lt fun c hc =>
      digit_lt_of_isHexDigit (List.all_eq_true.1 h c (ht ▸ List.mem_append_left t hc))
  rwa [show 16 = 2 ^ 4 by rfl, ← Nat.pow_mul] at hv

theorem fraction_le {f : FloatFormat} {digits : List Char} {n : Nat}
    (h : fraction f digits = .ok n) : n ≤ f.fractionMask := by
  simp only [fraction] at h
  split at h
  · next hd =>
    split at h
    · exact FloatFormat.le_fractionMask_iff.2 (justify_lt (value_trimRight_lt hd) h)
    · simp at h
  · simp at h

theorem exponent_clamped {s : List Char} {e : Int} (h : exponent s = .ok e) :
    -exponentClamp ≤ e ∧ e ≤ exponentClamp := by
  simp only [exponent] at h
  split at h
  · simp only [Except.ok.injEq] at h
    subst h
    split <;> constructor <;> grind
  · simp at h

end Hexfloat

end LiteralCodec
