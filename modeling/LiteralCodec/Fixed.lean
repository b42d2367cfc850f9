/-!
# Arithmetic in fixed widths

Numbers of unlimited size say what a computation means, but a machine keeps them in registers of a
fixed number of bits. A step then has no result if it leaves its width: a number that does not fit
the register it is put in, a shift by the width or more, a shift that pushes bits out where it is
not meant to. Whatever depends on such a step has no result either. So a computation that does have
a result overflowed nowhere, and if it agrees with the unlimited one it lost nothing on the way.

Operations: conversions between integers (`unsigned`, `signed`), shifts to either side, the
complement of all bits (`complement`), `leading_zeros` (`leadingZeros`).

## Results

* `Fixed.unsigned_natCast`, `Fixed.signed_eq`: numbers that fit.
* `Fixed.shiftLeft_eq`, `Fixed.shiftRight_eq`: shifts that lose nothing at the upper end.
* `Fixed.shiftOut_eq`, `Fixed.shiftRightSigned_eq`: shifts that drop or copy bits there.
* `Fixed.run_bind_eq`: stages that stay within their widths do so together.
-/

namespace LiteralCodec

-- powers are those of core, whatever else is imported
attribute [local instance (high)] instPowNat

namespace Fixed

/-- A number in an unsigned register. -/
def unsigned (width : Nat) (i : Int) : Option Nat :=
  if 0 ≤ i ∧ i.toNat < 2 ^ width then some i.toNat else none

/-- A number in a two's-complement register. -/
def signed (width : Nat) (i : Int) : Option Int :=
  if -(2 ^ (width - 1) : Nat) ≤ i ∧ i < (2 ^ (width - 1) : Nat) then some i else none

/-- A register shifted up. -/
def shiftLeft (width n amount : Nat) : Option Nat :=
  if amount < width then unsigned width (n * 2 ^ amount : Nat) else none

/-- A register shifted down, and the bits below dropped. -/
def shiftRight (width n amount : Nat) : Option Nat :=
  if amount < width then some (n / 2 ^ amount) else none

/-- A register shifted up, and the bits past its upper end dropped. -/
def shiftOut (width n amount : Nat) : Option Nat :=
  if amount < width then some (n * 2 ^ amount % 2 ^ width) else none

/-- A two's-complement register shifted down: copies of the sign bit come in at the upper end, so
that the quotient is rounded down. -/
def shiftRightSigned (width : Nat) (i : Int) (amount : Nat) : Option Int :=
  if amount < width then some (i / (2 ^ amount : Nat)) else none

/-- The bits of a register the other way round. -/
def complement (width n : Nat) : Nat := 2 ^ width - 1 - n

/-- The ones below an amount of bits. -/
def lowOnes (width amount : Nat) : Option Nat := do
  let bit ← shiftLeft width 1 amount
  unsigned width (bit - 1)

/-- How many zeroes stand above the highest one in a register. -/
def leadingZeros (width n : Nat) : Nat := if n = 0 then width else width - 1 - n.log2

theorem unsigned_natCast {width n : Nat} (h : n < 2 ^ width) : unsigned width n = some n := by
  rw [unsigned, Int.toNat_natCast, if_pos ⟨Int.natCast_nonneg n, h⟩]

/-- A whole number that does not come as one. -/
theorem unsigned_eq {width n : Nat} {i : Int} (hi : i = n) (h : n < 2 ^ width) :
    unsigned width i = some n := by
  rw [hi, unsigned_natCast h]

theorem signed_eq {width : Nat} {i : Int} (hlo : -(2 ^ (width - 1) : Nat) ≤ i)
    (hhi : i < (2 ^ (width - 1) : Nat)) : signed width i = some i :=
  if_pos ⟨hlo, hhi⟩

theorem shiftLeft_eq {width n amount : Nat} (ha : amount < width) (h : n * 2 ^ amount < 2 ^ width) :
    shiftLeft width n amount = some (n * 2 ^ amount) := by
  rw [shiftLeft, if_pos ha, unsigned_natCast h]

theorem shiftLeft_one {width amount : Nat} (ha : amount < width) :
    shiftLeft width 1 amount = some (2 ^ amount) := by
  have h : 1 * 2 ^ amount < 2 ^ width := by
    rw [Nat.one_mul]
    exact Nat.pow_lt_pow_right (by decide) ha
  rw [shiftLeft_eq ha h, Nat.one_mul]

theorem shiftRight_eq {width n amount : Nat} (ha : amount < width) :
    shiftRight width n amount = some (n / 2 ^ amount) :=
  if_pos ha

theorem shiftOut_eq {width n amount : Nat} (ha : amount < width) :
    shiftOut width n amount = some (n * 2 ^ amount % 2 ^ width) :=
  if_pos ha

theorem shiftRightSigned_eq {width amount : Nat} {i : Int} (ha : amount < width) :
    shiftRightSigned width i amount = some (i / (2 ^ amount : Nat)) :=
  if_pos ha

theorem lowOnes_eq {width amount : Nat} (ha : amount < width) :
    lowOnes width amount = some (2 ^ amount - 1) := by
  have hlt : 2 ^ amount < 2 ^ width := Nat.pow_lt_pow_right (by decide) ha
  have hpos := Nat.two_pow_pos amount
  rw [lowOnes, shiftLeft_one ha, Option.bind_eq_bind, Option.bind_some]
  exact unsigned_eq (by omega) (by omega)

/-! ## Steps that can fail -/

/-- What comes of steps in fixed widths: nothing if one leaves its width, else a result or a failure
that has to do with what is computed. -/
abbrev Checked (ε : Type) := ExceptT ε Option

theorem lift_some_bind {ε α β : Type} (a : α) (k : α → Checked ε β) :
    (liftM (some a) : Checked ε α) >>= k = k a := rfl

/-- Stages behind one another, each within its widths. -/
theorem run_bind_eq {ε α β : Type} {x : Checked ε α} {y : Except ε α} {k : α → Checked ε β}
    {k' : α → Except ε β} (hx : x.run = some y)
    (hk : ∀ a, y = .ok a → (k a).run = some (k' a)) : (x >>= k).run = some (y >>= k') := by
  rw [ExceptT.run_bind, hx]
  cases y with
  | error e => rfl
  | ok a => exact hk a rfl

end Fixed

end LiteralCodec
