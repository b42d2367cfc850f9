import LiteralCodec.NumericType
import LiteralCodec.Proofs.Parts

/-!
# The texts of integers

An integer literal is what stands in front of its digits, and the digits. It is written in decimal
or in hex, with a minus sign or without, or in hex behind an exclamation mark. Hex digits with no
minus sign are the **pattern** of the integer, in all other literals the digits are its magnitude.

Results:
* `IntegerText.Fits`, `IntegerText.meant`: which literals a type takes, and the integer that is
  meant.
* `IntegerText.padded`: the literal with zeroes in front of its digits.
-/

namespace LiteralCodec

/-- What stands in front of the digits of an integer literal. -/
inductive IntegerLead
  | decimal (negative : Bool)
  | hex (negative upper : Bool)
  | raw (upper : Bool)

namespace IntegerLead

/-- The mark in front of hex digits. -/
def hexMark (upper : Bool) : List Char := ['0', if upper then 'X' else 'x']

/-- The lead as it is written. -/
def text : IntegerLead → List Char
  | decimal negative => Numeral.sign negative
  | hex negative upper => Numeral.sign negative ++ hexMark upper
  | raw upper => '!' :: hexMark upper

/-- The base of the digits. -/
def base : IntegerLead → ℕ
  | decimal _ => 10
  | hex .. | raw _ => 16

/-- One or more digits of the base. -/
def isNumeral : IntegerLead → List Char → Bool
  | decimal _ => Numeral.isDecimal
  | hex .. | raw _ => Numeral.isHex

/-- Whether there is a minus sign. -/
def negative : IntegerLead → Bool
  | decimal negative | hex negative _ => negative
  | raw _ => false

/-- Whether the digits are a pattern. -/
def isPattern : IntegerLead → Bool
  | decimal _ => false
  | hex negative _ => !negative
  | raw _ => true

end IntegerLead

/-- An integer literal in its parts. -/
structure IntegerText where
  lead : IntegerLead
  digits : List Char
  isNumeral_digits : lead.isNumeral digits = true

namespace IntegerText

variable (t : IntegerText)

/-- The literal as it is written. -/
def text : List Char := t.lead.text ++ t.digits

/-- The number that the digits denote. -/
def size : ℕ := Numeral.value t.lead.base t.digits

/-- The number with its sign. -/
def number : ℤ := if t.lead.negative then -t.size else t.size

/-- Whether a type of that many bits takes the literal: a pattern may fill all of them, an integer
has to lie in the range of the type. -/
def Fits (signed : Bool) (width : ℕ) : Prop :=
  if t.lead.isPattern then t.size < 2 ^ width
  else if signed then -2 ^ (width - 1) ≤ t.number ∧ t.number ≤ 2 ^ (width - 1) - 1
  else 0 ≤ t.number ∧ t.number ≤ 2 ^ width - 1

instance (signed : Bool) (width : ℕ) : Decidable (t.Fits signed width) :=
  inferInstanceAs (Decidable (ite _ _ _))

/-- The integer that is meant: a pattern with the top bit set means a negative integer in a signed
type. -/
def meant (signed : Bool) (width : ℕ) : ℤ :=
  if t.lead.isPattern ∧ signed ∧ 2 ^ (width - 1) ≤ t.number then t.number - 2 ^ width else t.number

theorem negative_of_isPattern {lead : IntegerLead} (h : lead.isPattern = true) :
    lead.negative = false := by
  cases lead with
  | decimal _ => cases h
  | hex _ _ => simpa [IntegerLead.isPattern, IntegerLead.negative] using h
  | raw _ => rfl

/-! ## Patterns and numbers -/

variable {t}

theorem fits_of_isPattern (h : t.lead.isPattern = true) (signed : Bool) (width : ℕ) :
    t.Fits signed width ↔ t.size < 2 ^ width := by
  rw [Fits, if_pos h]

theorem meant_of_isPattern (h : t.lead.isPattern = true) (signed : Bool) (width : ℕ) :
    t.meant signed width =
      if signed ∧ 2 ^ (width - 1) ≤ t.size then (t.size : ℤ) - 2 ^ width else t.size := by
  have hn : t.number = t.size := by
    rw [number, negative_of_isPattern h, if_neg Bool.false_ne_true]
  have hz : (2 : ℤ) ^ (width - 1) ≤ t.size ↔ 2 ^ (width - 1) ≤ t.size := by norm_cast
  simp only [meant, h, hn, true_and, hz]

theorem fits_of_number (h : t.lead.isPattern = false) (signed : Bool) (width : ℕ) :
    t.Fits signed width ↔ NumericType.least signed width ≤ t.number ∧
      t.number ≤ NumericType.greatest signed width := by
  unfold Fits NumericType.least NumericType.greatest
  rw [h]
  cases signed <;> rfl

theorem meant_of_number (h : t.lead.isPattern = false) (signed : Bool) (width : ℕ) :
    t.meant signed width = t.number := by
  rw [meant, h, if_neg (by simp)]

/-- No type of up to `n` bits takes a number of more. -/
theorem Fits.size_lt {signed : Bool} {width n : ℕ} (h : t.Fits signed width)
    (pos : 0 < width) (le : width ≤ n) :
    t.size < 2 ^ n ∧ (t.lead.negative = true → t.size ≤ 2 ^ (n - 1)) := by
  obtain ⟨k, rfl⟩ : ∃ k, width = k + 1 := ⟨width - 1, by omega⟩
  have hp : (2 : ℤ) ^ (k + 1) = 2 * 2 ^ k := by ring
  have hpos : (0 : ℤ) < 2 ^ k := by positivity
  have hle : 2 ^ (k + 1) ≤ 2 ^ n := Nat.pow_le_pow_right (by omega) le
  have hle' : 2 ^ k ≤ 2 ^ (n - 1) := Nat.pow_le_pow_right (by omega) (by omega)
  have hlt : 2 ^ (n - 1) < 2 ^ n := Nat.pow_lt_pow_right (by omega) (by omega)
  unfold Fits number at h
  by_cases hb : t.lead.isPattern = true
  · rw [if_pos hb] at h
    exact ⟨h.trans_le hle, fun hn => by rw [negative_of_isPattern hb] at hn; cases hn⟩
  · rw [if_neg hb, Nat.add_sub_cancel, hp] at h
    have hcast : t.size ≤ 2 ^ k ∨ t.lead.negative = false ∧ t.size < 2 ^ (k + 1) := by
      cases hn : t.lead.negative with
      | true =>
        rw [hn, if_pos rfl] at h
        left
        have hz : (t.size : ℤ) ≤ 2 ^ k := by split_ifs at h <;> omega
        exact_mod_cast hz
      | false =>
        rw [hn, if_neg Bool.false_ne_true] at h
        have hz : (t.size : ℤ) < 2 ^ (k + 1) := by split_ifs at h <;> omega
        exact Or.inr ⟨rfl, by exact_mod_cast hz⟩
    rcases hcast with hs | ⟨hn, hs⟩
    · exact ⟨by omega, fun _ => by omega⟩
    · exact ⟨by omega, fun hn' => by rw [hn] at hn'; cases hn'⟩

/-! ## Digits -/

theorem ne_nil_of_isNumeral {lead : IntegerLead} {digits : List Char}
    (h : lead.isNumeral digits = true) : digits ≠ [] := by
  cases lead with
  | decimal _ => exact (Numeral.isDecimal_iff.mp h).1
  | hex _ _ => exact (Numeral.isHex_iff.mp h).1
  | raw _ => exact (Numeral.isHex_iff.mp h).1

theorem isNumeral_zeroes_append {lead : IntegerLead} {digits : List Char} (k : ℕ)
    (h : lead.isNumeral digits = true) :
    lead.isNumeral (List.replicate k '0' ++ digits) = true := by
  have hne : List.replicate k '0' ++ digits ≠ [] :=
    List.append_ne_nil_of_right_ne_nil _ (ne_nil_of_isNumeral h)
  cases lead with
  | decimal _ =>
    refine Numeral.isDecimal_iff.mpr ⟨hne, fun c hc => ?_⟩
    rcases List.mem_append.mp hc with hc | hc
    · exact Numeral.isDigit_of_mem_replicate hc
    · exact (Numeral.isDecimal_iff.mp h).2 c hc
  | hex _ _ | raw _ =>
    refine Numeral.isHex_iff.mpr ⟨hne, fun c hc => ?_⟩
    rcases List.mem_append.mp hc with hc | hc
    · rw [List.eq_of_mem_replicate hc]
      rfl
    · exact (Numeral.isHex_iff.mp h).2 c hc

variable (t)

/-- The literal with zeroes in front of its digits. -/
def padded (k : ℕ) : IntegerText where
  lead := t.lead
  digits := List.replicate k '0' ++ t.digits
  isNumeral_digits := isNumeral_zeroes_append k t.isNumeral_digits

theorem size_padded (k : ℕ) : (t.padded k).size = t.size :=
  Numeral.value_zeroes_append _ _ _

theorem number_padded (k : ℕ) : (t.padded k).number = t.number := by
  unfold number
  rw [size_padded]
  rfl

theorem fits_padded (k : ℕ) (signed : Bool) (width : ℕ) :
    (t.padded k).Fits signed width ↔ t.Fits signed width := by
  unfold Fits
  rw [size_padded, number_padded]
  rfl

theorem meant_padded (k : ℕ) (signed : Bool) (width : ℕ) :
    (t.padded k).meant signed width = t.meant signed width := by
  unfold meant
  rw [number_padded]
  rfl

/-- Digits that are all zero denote zero. -/
theorem size_eq_zero (h : ∀ c ∈ t.digits, c = '0') : t.size = 0 := by
  rw [size, List.eq_replicate_of_mem h, Numeral.value_replicate_zero]

theorem number_eq_zero (h : t.size = 0) : t.number = 0 := by
  unfold number
  rw [h]
  split_ifs <;> rfl

/-- Every type takes zero, under either sign. -/
theorem fits_of_size_eq_zero (h : t.size = 0) (signed : Bool) (width : ℕ) :
    t.Fits signed width := by
  have hpos : (0 : ℤ) < 2 ^ (width - 1) := by positivity
  have hpos' : (0 : ℤ) < 2 ^ width := by positivity
  unfold Fits
  rw [h, t.number_eq_zero h]
  split_ifs
  · exact Nat.two_pow_pos width
  · omega
  · omega

theorem meant_of_size_eq_zero (h : t.size = 0) (signed : Bool) (width : ℕ) :
    t.meant signed width = 0 := by
  unfold meant
  rw [t.number_eq_zero h, if_neg (by simp)]

end IntegerText

end LiteralCodec
