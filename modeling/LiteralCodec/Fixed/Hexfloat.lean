import LiteralCodec.Fixed.Format
import LiteralCodec.Hexfloat

/-!
# Hex floats in fixed widths

Reading and writing hex floats as it is done in registers: patterns and fractions in 64 bits, sizes
and amounts of shifts in 32, exponents in 32 with their sign. Fractions are cut by masks and joined
bit by bit. A step that leaves its width has no result at all, which is told apart from a body that
names no pattern. Digits that are read into a register count as such a step, and so do fields that
are put together though they do not fit.

Operations: `parse_fraction` (`fractionFixed`), `parse_exponent` (`exponentFixed`), `parse`
(`parseFixed`), `format` (`renderFixed`).

## Results

* `Hexfloat.exponentClamp_lt`: the clamp is an exponent of 32 bits.
-/

namespace LiteralCodec

open Fixed (unsigned signed shiftLeft shiftRight lowOnes leadingZeros)
open Numeral (splitExponentSign isDecimal trimRight)

-- powers are those of core, whatever else is imported
attribute [local instance (high)] instPowNat

namespace Hexfloat

/-- What comes of steps in fixed widths that read a body, which can name no pattern. -/
abbrev Checked := Fixed.Checked Error

/-! ## Reading -/

/-- Moves `given` bits to the upper end of a field of `size` bits. -/
def justifyFixed (size given bits : Nat) : Checked Nat := do
  if size < given then
    let shift ← unsigned 32 (given - size : Int)
    if bits &&& (← lowOnes 64 shift) ≠ 0 then throw .fractionTooLong
    else shiftRight 64 bits shift
  else shiftLeft 64 bits (← unsigned 32 (size - given : Int))

/-- The fraction field that hex digits after the point name. -/
def fractionFixed (f : FloatFormat) (digits : List Char) : Checked Nat := do
  if digits.all Char.isHexDigit then
    let kept := trimRight digits
    let size ← f.fractionBitsFixed
    let given ← unsigned 32 ((← unsigned 32 kept.length) * 4 : Nat)
    let room ← unsigned 32 ((← unsigned 32 (size + 3 : Nat)) / 4 * 4 : Nat)
    if room < given then throw .fractionTooLong
    else if kept.isEmpty then return 0
    else justifyFixed size given (← unsigned 64 (Numeral.value 16 kept))
  else throw .invalidFractionDigit

/-- The exponent that a text names. Digits past 64 bits are read as the clamp. -/
def exponentFixed (s : List Char) : Checked Int := do
  let (negative, digits) := splitExponentSign s
  if isDecimal digits then
    let read := (signed 64 (Numeral.value 10 digits)).getD exponentClamp
    let size ← signed 32 (min read exponentClamp)
    if negative then signed 32 (-size) else return size
  else throw .invalidExponent

/-- The pattern of the number `1.fraction * 2 ^ exponent`. -/
def placeFixed (f : FloatFormat) (negative : Bool) (exponent : Int) (fraction : Nat) :
    Checked Nat := do
  if (← f.biasFixed) < exponent then
    f.assembleFixed ⟨negative, ← f.exponentFieldMaxFixed, fraction⟩
  else if (← f.minExponentFixed) ≤ exponent then
    let biased ← unsigned 64 (← signed 32 (exponent + (← f.biasFixed)))
    f.assembleFixed ⟨negative, biased, fraction⟩
  else
    let size ← f.fractionBitsFixed
    let shift ← unsigned 32 (← signed 32 ((← f.minExponentFixed) - exponent))
    if size < shift then throw .inexact
    else
      let significand := (← shiftLeft 64 1 size) ||| fraction
      if significand &&& (← lowOnes 64 shift) ≠ 0 then throw .inexact
      else f.assembleFixed ⟨negative, 0, ← shiftRight 64 significand shift⟩

/-- Reads the body of a hex float, with the sign that stood in front. -/
def parseFixed (f : FloatFormat) (negative : Bool) (body : List Char) : Checked Nat := do
  let rest ← afterLeadingOne body
  let (digits, mark) ← splitFraction rest
  let fraction ← fractionFixed f digits
  let exponent ← exponentFixed mark
  placeFixed f negative exponent fraction

/-! ## Writing -/

/-- The exponent and the fraction to write, none for a zero. -/
def normaliseFixed (f : FloatFormat) (x : FloatFormat.Fields) : Option (Option (Int × Nat)) := do
  if x.exponent = (← f.exponentFieldMaxFixed) then
    let exponent ← signed 32 ((← f.biasFixed) + 1)
    return some (exponent, x.fraction)
  else if x.exponent ≠ 0 then
    let exponent ← signed 32 ((← signed 32 x.exponent) - (← f.biasFixed))
    return some (exponent, x.fraction)
  else if x.fraction ≠ 0 then
    let lead ← unsigned 32 (63 - leadingZeros 64 x.fraction : Int)
    let shift ← unsigned 32 ((← f.fractionBitsFixed) - lead : Int)
    let exponent ← signed 32 ((← f.minExponentFixed) - (← signed 32 shift))
    let fraction := (← shiftLeft 64 x.fraction shift) &&& (← f.fractionMaskFixed)
    return some (exponent, fraction)
  else return none

/-- The point and the hex digits of a fraction, nothing for zero. -/
def fractionTextFixed (f : FloatFormat) (fraction : Nat) : Option (List Char) := do
  if fraction = 0 then return []
  else
    let size ← f.fractionBitsFixed
    let pad := (← unsigned 32 (4 - size % 4 : Int)) % 4
    let width := (← unsigned 32 (size + pad : Nat)) / 4
    let padded ← shiftLeft 64 fraction pad
    return '.' :: trimRight ((Nat.toDigits 16 padded).leftpad width '0')

/-- Writes the number with a pattern, none for a zero. -/
def renderFixed (f : FloatFormat) (bits : Nat) : Option (Option (List Char)) := do
  let x ← f.fieldsFixed bits
  match ← normaliseFixed f x with
  | none => return none
  | some (exponent, fraction) =>
    let body := '1' :: ((← fractionTextFixed f fraction) ++ 'p' :: exponentText exponent)
    return some (Numeral.sign x.negative ++ '0' :: 'x' :: body)

end Hexfloat

end LiteralCodec
