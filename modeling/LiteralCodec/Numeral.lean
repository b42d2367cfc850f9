/-!
# Numerals

The pieces of text that every number literal is made of: digits, the minus sign, the hex mark, and
the character at which a literal is cut in two. Texts are lists of characters here. Digits are ASCII
only: a digit of another script is no digit.

Operations: `split_sign` (`splitSign`), `strip_hex_prefix` (`afterHexMark?`), `is_hex_digits`
(`isHex`), `is_decimal_digits` (`isDecimal`).

## Results

* `Numeral.value_append`: the value of a numeral, read off its two parts.
* `Numeral.cut_eq_none`: a text that is not cut is kept whole.
-/

namespace LiteralCodec

-- powers are those of core, whatever else is imported
attribute [local instance (high)] instPowNat

namespace Numeral

/-! ## Digits -/

/-- What a digit counts for; letters of either case go on from ten. -/
def digit (c : Char) : Nat :=
  if c.isDigit then c.toNat - '0'.toNat
  else if 'a' ≤ c then c.toNat - 'a'.toNat + 10
  else c.toNat - 'A'.toNat + 10

/-- The number that a list of digits denotes in `base`. -/
def value (base : Nat) (digits : List Char) : Nat :=
  digits.foldl (fun n c => base * n + digit c) 0

/-- One or more decimal digits. -/
def isDecimal (s : List Char) : Bool := !s.isEmpty && s.all Char.isDigit

/-- One or more hex digits, of either case. -/
def isHex (s : List Char) : Bool := !s.isEmpty && s.all Char.isHexDigit

/-- The decimal digits of a number, without leading zeroes. -/
def ofNat (n : Nat) : List Char := Nat.toDigits 10 n

/-- How many decimal digits a number has; zero has one. -/
def digitCount (n : Nat) : Nat := (ofNat n).length

/-- The digits without the zeroes in front of them. -/
def trimLeft (digits : List Char) : List Char := digits.dropWhile (· == '0')

/-- The digits without the zeroes behind them. -/
def trimRight (digits : List Char) : List Char := (digits.reverse.dropWhile (· == '0')).reverse

theorem foldl_value (base n : Nat) (s : List Char) :
    s.foldl (fun n c => base * n + digit c) n = base ^ s.length * n + value base s := by
  induction s generalizing n with
  | nil => simp [value]
  | cons c s ih =>
    simp only [value, List.foldl_cons, List.length_cons]
    rw [ih, ih (base * 0 + digit c)]
    grind

theorem value_append (base : Nat) (s t : List Char) :
    value base (s ++ t) = base ^ t.length * value base s + value base t := by
  rw [value, List.foldl_append, foldl_value]
  rfl

/-- A numeral is less than the power of its base that has one digit more. -/
theorem value_lt {base : Nat} {s : List Char} (h : ∀ c ∈ s, digit c < base) :
    value base s < base ^ s.length := by
  induction s with
  | nil => simp [value]
  | cons c s ih =>
    have hc : digit c + 1 ≤ base := h c (by simp)
    have hs := ih fun d hd => h d (by simp [hd])
    have hv : value base (c :: s) = base ^ s.length * digit c + value base s := by
      simpa [value] using value_append base [c] s
    rw [hv, List.length_cons, Nat.pow_succ]
    have := Nat.mul_le_mul_left (base ^ s.length) hc
    rw [Nat.mul_add, Nat.mul_one] at this
    omega

theorem digit_lt_of_isHexDigit {c : Char} (h : c.isHexDigit = true) : digit c < 16 := by
  simp only [Char.isHexDigit, Bool.or_eq_true, Bool.and_eq_true, decide_eq_true_eq, ge_iff_le,
    Char.isDigit, UInt32.le_iff_toNat_le, Char.reduceVal, UInt32.reduceToNat] at h
  simp only [digit, Char.isDigit, Bool.and_eq_true, decide_eq_true_eq, ge_iff_le,
    UInt32.le_iff_toNat_le, Char.le_def, Char.reduceVal, UInt32.reduceToNat, Char.toNat]
  grind

/-- Only what stands at the end is trimmed away. -/
theorem trimRight_append (s : List Char) : ∃ t, trimRight s ++ t = s := by
  obtain ⟨t, ht⟩ := List.dropWhile_suffix (· == '0') (l := s.reverse)
  exact ⟨t.reverse, by rw [trimRight, ← List.reverse_append, ht, List.reverse_reverse]⟩

/-! ## Signs and marks -/

/-- Takes one minus sign off the front, and says whether there was one. -/
def splitSign : List Char → Bool × List Char
  | '-' :: s => (true, s)
  | s => (false, s)

/-- Takes one sign off the front of an exponent, and says whether it was a minus. -/
def splitExponentSign : List Char → Bool × List Char
  | '+' :: s => (false, s)
  | '-' :: s => (true, s)
  | s => (false, s)

/-- A minus sign if the flag is set. -/
def sign (negative : Bool) : List Char := if negative then ['-'] else []

/-- What follows `0x` or `0X` at the front of a text. -/
def afterHexMark? : List Char → Option (List Char)
  | '0' :: 'x' :: s => some s
  | '0' :: 'X' :: s => some s
  | _ => none

/-- The text before the first character of a class, and what follows that character if it is there.
-/
def cut (p : Char → Bool) (s : List Char) : List Char × Option (List Char) :=
  (s.takeWhile (!p ·), match s.dropWhile (!p ·) with
    | [] => none
    | _ :: rest => some rest)

/-- A decimal integer with its sign, as it is printed. -/
def ofInt (i : Int) : List Char := sign (i < 0) ++ ofNat i.natAbs

theorem cut_eq_none {p : Char → Bool} {s t : List Char} (h : cut p s = (t, none)) : s = t := by
  simp only [cut, Prod.mk.injEq] at h
  obtain ⟨h₁, h₂⟩ := h
  have hs := List.takeWhile_append_dropWhile (p := (!p ·)) (l := s)
  split at h₂
  · next hd => rw [hd, List.append_nil] at hs; rw [← hs, h₁]
  · simp at h₂

end Numeral

end LiteralCodec
