import LiteralCodec.Decimal
import LiteralCodec.Rounding

/-!
# Significant digits and the order of decimals

Two decimals are compared without working out a power of ten, which an exponent of any length would
make too large. Each is brought to the form `0.d₁d₂…dₙ * 10 ^ power`, where neither the first digit
nor the last is zero. Then the larger power is the larger number, and at equal powers the digits
decide as in a dictionary, because the missing digits of the shorter text are zeroes.

Operations: `significant_digits` (`Decimal.significant?`), the order of `compare_with_tie`
(`Significant.compare`), and a double written with 25 places (`Decimal.ofQuotient`).

## Results

* `Decimal.significant_head`, `Decimal.significant_last`: no zero at either end.
-/

namespace LiteralCodec

open Numeral (trimLeft trimRight trimRight_append)

-- powers are those of core, whatever else is imported
attribute [local instance (high)] instPowNat

/-- The digits of a decimal between its first and last digit that is not zero, and the power of ten
just above the first. -/
structure Significant where
  digits : List Char
  power : Int
  deriving DecidableEq, Repr

/-- The order of the magnitudes. -/
def Significant.compare (a b : Significant) : Ordering :=
  (Ord.compare a.power b.power).then (Ord.compare a.digits b.digits)

namespace Decimal

/-- The significant digits of a decimal, whatever its sign. -/
def significant (d : Decimal) : Significant where
  digits := trimRight (trimLeft d.digits)
  power := d.integer.length - (d.digits.length - (trimLeft d.digits).length : Nat) + d.exponent

/-- Whether an integer is one of 64 bits, in which powers of ten are kept. -/
def fitsPower (i : Int) : Bool := -2 ^ (63 : Nat) ≤ i && i < 2 ^ (63 : Nat)

/-- The significant digits of a decimal, if its powers of ten can be kept. -/
def significant? (d : Decimal) : Option Significant :=
  if fitsPower d.exponent && fitsPower d.significant.power then some d.significant else none

/-- The decimal of `n / d` rounded to a number of places after the point. -/
def ofQuotient (places n d : Nat) : Decimal :=
  let scaled := roundQuotient .eq (n * 10 ^ places) d
  { negative := false
    integer := Numeral.ofNat (scaled / 10 ^ places)
    fraction := (Numeral.ofNat (scaled % 10 ^ places)).leftpad places '0'
    exponent := 0 }

theorem significant_head (d : Decimal) {c : Char} (h : d.significant.digits.head? = some c) :
    c ≠ '0' := by
  rintro rfl
  obtain ⟨t, ht⟩ := trimRight_append (trimLeft d.digits)
  simp only [significant] at h
  have hd := List.head?_dropWhile_not (· == '0') d.digits
  rw [← trimLeft, ← ht, List.head?_append, h] at hd
  simp at hd

theorem significant_last (d : Decimal) {c : Char} (h : d.significant.digits.getLast? = some c) :
    c ≠ '0' := by
  rintro rfl
  simp only [significant, trimRight, List.getLast?_reverse] at h
  have := List.head?_dropWhile_not (· == '0') (trimLeft d.digits).reverse
  simp [h] at this

end Decimal

end LiteralCodec
