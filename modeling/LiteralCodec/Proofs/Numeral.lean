import LiteralCodec.Numeral
import Mathlib.Algebra.Order.Field.Basic
import Mathlib.Data.Rat.Lemmas
import Mathlib.Order.Compare
import Mathlib.Tactic.FieldSimp
import Mathlib.Tactic.IntervalCases
import Mathlib.Tactic.Linarith
import Mathlib.Tactic.Positivity
import Mathlib.Tactic.Ring

/-!
# Numerals and the numbers they denote

Printing a number and reading the digits gives the number back, in every base of up to sixteen.
Zeroes in front of a numeral change nothing, and zeroes behind it multiply by the base.

A list of digits also stands for a proper **fraction**, the digits behind a point. Then zeroes
behind it change nothing, and the order of the fractions is the order of a dictionary on the digits.

Results:
* `value_toDigits`: printing and reading.
* `value_trimLeft`, `value_zeroes_append`, `value_append_zeroes`: zeroes at the ends.
* `compare_eq_fraction`: the dictionary order of digits is the order of fractions.
-/

namespace LiteralCodec.Numeral

/-! ## Characters -/

/-- A text has no more characters than bytes. -/
theorem length_le_utf8ByteSize (s : List Char) : s.length ≤ (String.ofList s).utf8ByteSize := by
  induction s with
  | nil => exact Nat.zero_le _
  | cons c s ih =>
    have hpos := c.utf8Size_pos
    have hs : String.ofList (c :: s) = String.singleton c ++ String.ofList s := by
      rw [String.singleton_eq_ofList, ← String.ofList_append]
      rfl
    rw [hs, String.utf8ByteSize_append, String.utf8ByteSize_singleton, List.length_cons]
    omega

/-! ## Single digits -/

theorem digit_digitChar {d : ℕ} (h : d < 16) : digit d.digitChar = d := by
  interval_cases d <;> rfl

theorem isHexDigit_digitChar {d : ℕ} (h : d < 16) : d.digitChar.isHexDigit = true := by
  interval_cases d <;> rfl

theorem digit_of_isDigit {c : Char} (h : c.isDigit = true) : digit c = c.toNat - 48 := by
  rw [digit, if_pos h]
  rfl

theorem toNat_of_isDigit {c : Char} (h : c.isDigit = true) : 48 ≤ c.toNat ∧ c.toNat ≤ 57 := by
  simpa [Char.isDigit, UInt32.le_iff_toNat_le] using h

theorem digit_lt_of_isDigit {c : Char} (h : c.isDigit = true) : digit c < 10 := by
  have := toNat_of_isDigit h
  rw [digit_of_isDigit h]
  omega

theorem digit_zero : digit '0' = 0 := rfl

theorem digit_pos_of_ne {c : Char} (h : c.isDigit = true) (hc : c ≠ '0') : 0 < digit c := by
  have := toNat_of_isDigit h
  have hne : c.toNat ≠ 48 := fun e => hc (Char.toNat_inj.mp e)
  rw [digit_of_isDigit h]
  omega

/-- Only zero counts for nothing. -/
theorem eq_zero_of_digit_eq_zero {c : Char} (h : digit c = 0) : c = '0' := by
  by_cases hc : c.isDigit = true
  · by_contra hne
    exact (digit_pos_of_ne hc hne).ne' h
  · rw [digit, if_neg hc] at h
    split_ifs at h

/-- Decimal digits are ordered like what they count for. -/
theorem compare_digit {c d : Char} (hc : c.isDigit = true) (hd : d.isDigit = true) :
    compare c d = compare (digit c) (digit d) := by
  have hc' := toNat_of_isDigit hc
  have hd' := toNat_of_isDigit hd
  rw [digit_of_isDigit hc, digit_of_isDigit hd]
  show compareOfLessAndEq c d = _
  unfold compareOfLessAndEq
  rcases lt_trichotomy c.toNat d.toNat with h | h | h
  · have hlt : c < d := h
    rw [if_pos hlt]
    exact (Nat.compare_eq_lt.mpr (by omega)).symm
  · rw [Char.toNat_inj.mp h, if_neg (Char.lt_irrefl d), if_pos rfl]
    exact (Nat.compare_eq_eq.mpr rfl).symm
  · have hlt : d < c := h
    rw [if_neg (Char.lt_asymm hlt), if_neg (by rintro rfl; omega)]
    exact (Nat.compare_eq_gt.mpr (by omega)).symm

/-! ## Printing and reading -/

theorem value_nil (b : ℕ) : value b [] = 0 := rfl

theorem value_singleton (b : ℕ) (c : Char) : value b [c] = digit c := by
  simp [value]

theorem value_cons (b : ℕ) (c : Char) (s : List Char) :
    value b (c :: s) = b ^ s.length * digit c + value b s := by
  have := value_append b [c] s
  rwa [value_singleton] at this

/-- **A number is read back from its digits.** -/
theorem value_toDigits {b : ℕ} (hb : 1 < b) (hb' : b ≤ 16) (n : ℕ) :
    value b (Nat.toDigits b n) = n := by
  induction n using Nat.strong_induction_on with
  | _ n ih =>
    by_cases h : n < b
    · rw [Nat.toDigits_of_lt_base h, value_singleton, digit_digitChar (by omega)]
    · have hlt : n / b < n := Nat.div_lt_self (by omega) hb
      have hmod := Nat.mod_lt n (by omega : 0 < b)
      rw [Nat.toDigits_of_base_le hb (by omega), value_append, ih _ hlt, value_singleton,
        digit_digitChar (by omega), List.length_singleton, pow_one]
      exact Nat.div_add_mod n b

theorem value_ofNat (n : ℕ) : value 10 (ofNat n) = n :=
  value_toDigits (by omega) (by omega) n

theorem isDigit_of_mem_ofNat {n : ℕ} {c : Char} (h : c ∈ ofNat n) : c.isDigit = true :=
  Nat.isDigit_of_mem_toDigits (by omega) (by omega) h

theorem ofNat_ne_nil (n : ℕ) : ofNat n ≠ [] := Nat.toDigits_ne_nil

theorem isDecimal_iff {s : List Char} :
    isDecimal s = true ↔ s ≠ [] ∧ ∀ c ∈ s, c.isDigit = true := by
  simp [isDecimal]

theorem isHex_iff {s : List Char} : isHex s = true ↔ s ≠ [] ∧ ∀ c ∈ s, c.isHexDigit = true := by
  simp [isHex]

theorem isDecimal_ofNat (n : ℕ) : isDecimal (ofNat n) = true :=
  isDecimal_iff.mpr ⟨ofNat_ne_nil n, fun _ => isDigit_of_mem_ofNat⟩

theorem lt_pow_digitCount (n : ℕ) : n < 10 ^ digitCount n :=
  (Nat.length_toDigits_le_iff (by omega) Nat.length_toDigits_pos).mp (le_refl _)

theorem digitCount_pos (n : ℕ) : 0 < digitCount n := Nat.length_toDigits_pos

theorem pow_digitCount_le {n : ℕ} (h : 0 < n) : 10 ^ (digitCount n - 1) ≤ n := by
  by_cases h1 : digitCount n = 1
  · rw [h1]
    exact h
  · by_contra hlt
    have hpos := digitCount_pos n
    have hle : digitCount n ≤ digitCount n - 1 :=
      (Nat.length_toDigits_le_iff (by omega) (by omega)).mpr (not_le.mp hlt)
    omega

/-! ## Zeroes at the ends -/

theorem value_replicate_zero (b k : ℕ) : value b (List.replicate k '0') = 0 := by
  induction k with
  | zero => rfl
  | succ k ih => rw [List.replicate_succ, value_cons, digit_zero, ih, mul_zero]

theorem trimLeft_eq (s : List Char) : ∃ k, s = List.replicate k '0' ++ trimLeft s := by
  induction s with
  | nil => exact ⟨0, rfl⟩
  | cons c s ih =>
    by_cases hc : c = '0'
    · obtain ⟨k, hk⟩ := ih
      refine ⟨k + 1, ?_⟩
      rw [trimLeft, List.dropWhile_cons_of_pos (by simp [hc]), ← trimLeft, List.replicate_succ,
        List.cons_append, ← hk, hc]
    · refine ⟨0, ?_⟩
      rw [trimLeft, List.dropWhile_cons_of_neg (by simp [hc])]
      rfl

theorem trimRight_eq (s : List Char) : ∃ k, s = trimRight s ++ List.replicate k '0' := by
  obtain ⟨k, hk⟩ := trimLeft_eq s.reverse
  refine ⟨k, ?_⟩
  have := congrArg List.reverse hk
  rwa [List.reverse_reverse, List.reverse_append, List.reverse_replicate] at this

theorem isDigit_of_mem_replicate {k : ℕ} {c : Char} (h : c ∈ List.replicate k '0') :
    c.isDigit = true := by
  rw [List.eq_of_mem_replicate h]
  rfl

theorem value_append_zeroes (b : ℕ) (s : List Char) (k : ℕ) :
    value b (s ++ List.replicate k '0') = b ^ k * value b s := by
  rw [value_append, value_replicate_zero, List.length_replicate, add_zero]

theorem value_zeroes_append (b : ℕ) (s : List Char) (k : ℕ) :
    value b (List.replicate k '0' ++ s) = value b s := by
  rw [value_append, value_replicate_zero, mul_zero, zero_add]

/-- Zeroes in front of a numeral change nothing. -/
theorem value_trimLeft (b : ℕ) (s : List Char) : value b (trimLeft s) = value b s := by
  obtain ⟨k, hk⟩ := trimLeft_eq s
  conv_rhs => rw [hk, value_zeroes_append]

theorem getLast?_trimRight (s : List Char) : (trimRight s).getLast? ≠ some '0' := by
  intro h
  have hd := List.head?_dropWhile_not (· == '0') s.reverse
  rw [trimRight, List.getLast?_reverse] at h
  rw [h] at hd
  simp at hd

theorem mem_of_mem_trimRight {s : List Char} {c : Char} (h : c ∈ trimRight s) : c ∈ s := by
  obtain ⟨k, hk⟩ := trimRight_eq s
  rw [hk]
  exact List.mem_append_left _ h

theorem mem_of_mem_trimLeft {s : List Char} {c : Char} (h : c ∈ trimLeft s) : c ∈ s := by
  obtain ⟨k, hk⟩ := trimLeft_eq s
  rw [hk]
  exact List.mem_append_right _ h

theorem leftpad_eq (k : ℕ) (s : List Char) :
    s.leftpad k '0' = List.replicate (k - s.length) '0' ++ s := rfl

theorem value_leftpad (b k : ℕ) (s : List Char) : value b (s.leftpad k '0') = value b s := by
  rw [leftpad_eq, value_zeroes_append]

/-! ## Fractions -/

/-- The proper fraction of the digits behind a point. -/
def fraction (b : ℕ) (s : List Char) : ℚ := value b s / b ^ s.length

theorem fraction_nil (b : ℕ) : fraction b [] = 0 := by
  simp [fraction, value_nil]

theorem fraction_cons {b : ℕ} (hb : 0 < b) (c : Char) (s : List Char) :
    fraction b (c :: s) = (digit c + fraction b s) / b := by
  have hb' : (b : ℚ) ≠ 0 := by exact_mod_cast hb.ne'
  unfold fraction
  rw [value_cons, List.length_cons, pow_succ]
  push_cast
  field_simp

theorem fraction_nonneg (b : ℕ) (s : List Char) : 0 ≤ fraction b s := by
  unfold fraction
  positivity

/-- Zeroes behind a fraction change nothing. -/
theorem fraction_trimRight {b : ℕ} (hb : 0 < b) (s : List Char) :
    fraction b (trimRight s) = fraction b s := by
  obtain ⟨k, hk⟩ := trimRight_eq s
  have hb' : (b : ℚ) ≠ 0 := by exact_mod_cast hb.ne'
  conv_rhs => rw [hk]
  unfold fraction
  rw [value_append_zeroes, List.length_append, List.length_replicate, pow_add]
  push_cast
  field_simp

theorem fraction_lt_one {b : ℕ} (hb : 0 < b) {s : List Char} (h : ∀ c ∈ s, digit c < b) :
    fraction b s < 1 := by
  have hv : (value b s : ℚ) < b ^ s.length := by exact_mod_cast value_lt h
  have hp : (0 : ℚ) < b ^ s.length := by
    have : (0 : ℚ) < b := by exact_mod_cast hb
    positivity
  exact (div_lt_one hp).mpr hv

/-- Digits that do not end in a zero denote more than nothing, unless there are none. -/
theorem fraction_pos {b : ℕ} (hb : 0 < b) {s : List Char} (hs : s ≠ [])
    (hl : s.getLast? ≠ some '0') : 0 < fraction b s := by
  have hlast := List.dropLast_append_getLast hs
  have hc : digit (s.getLast hs) ≠ 0 := fun h => hl (by
    rw [List.getLast?_eq_some_getLast hs, eq_zero_of_digit_eq_zero h])
  have hv : 0 < value b s := by
    rw [← hlast, value_append, value_singleton]
    omega
  unfold fraction
  positivity

/-- The first digit decides, since what follows is less than one; at equal digits the rest decides.
-/
theorem compare_add_div {a b : ℕ} {x y : ℚ} (hx0 : 0 ≤ x) (hx1 : x < 1) (hy0 : 0 ≤ y)
    (hy1 : y < 1) :
    compare ((a + x) / 10) ((b + y) / 10) = (compare a b).then (compare x y) := by
  rcases lt_trichotomy a b with h | rfl | h
  · have hq : (a : ℚ) + 1 ≤ b := by exact_mod_cast h
    rw [compare_lt_iff_lt.mpr h, Ordering.lt_then, compare_lt_iff_lt]
    exact div_lt_div_of_pos_right (by linarith) (by norm_num)
  · rw [(compare_eq_iff_eq (a := a)).mpr rfl, Ordering.eq_then]
    rcases lt_trichotomy x y with h | rfl | h
    · rw [compare_lt_iff_lt.mpr h, compare_lt_iff_lt]
      exact div_lt_div_of_pos_right (by linarith) (by norm_num)
    · rw [compare_eq_iff_eq.mpr rfl, compare_eq_iff_eq.mpr rfl]
    · rw [compare_gt_iff_gt.mpr h, compare_gt_iff_gt]
      exact div_lt_div_of_pos_right (by linarith) (by norm_num)
  · have hq : (b : ℚ) + 1 ≤ a := by exact_mod_cast h
    rw [compare_gt_iff_gt.mpr h, Ordering.gt_then, compare_gt_iff_gt]
    exact div_lt_div_of_pos_right (by linarith) (by norm_num)

theorem getLast?_ne_of_cons {c d : Char} {s : List Char} (h : (c :: s).getLast? ≠ some d) :
    s.getLast? ≠ some d := by
  cases s with
  | nil => simp
  | cons x s => rwa [List.getLast?_cons_cons] at h

/-- **The dictionary order of digits is the order of fractions**, because the digits that the
shorter list lacks are zeroes, and the longer one does not end in a zero. -/
theorem compare_eq_fraction {s t : List Char} (hs : ∀ c ∈ s, c.isDigit = true)
    (ht : ∀ c ∈ t, c.isDigit = true) (hsl : s.getLast? ≠ some '0') (htl : t.getLast? ≠ some '0') :
    compare s t = compare (fraction 10 s) (fraction 10 t) := by
  induction s generalizing t with
  | nil =>
    cases t with
    | nil => rw [fraction_nil, (compare_eq_iff_eq (a := (0 : ℚ))).mpr rfl, List.compare_nil_nil]
    | cons d t =>
      have := fraction_pos (by omega : 0 < 10) (List.cons_ne_nil d t) htl
      rw [fraction_nil, compare_lt_iff_lt.mpr this]
      rfl
  | cons c s ih =>
    cases t with
    | nil =>
      have := fraction_pos (by omega : 0 < 10) (List.cons_ne_nil c s) hsl
      rw [fraction_nil, compare_gt_iff_gt.mpr this]
      rfl
    | cons d t =>
      obtain ⟨hc, hs⟩ := List.forall_mem_cons.mp hs
      obtain ⟨hd, ht⟩ := List.forall_mem_cons.mp ht
      have hs1 := fraction_lt_one (by omega : 0 < 10) fun x hx => digit_lt_of_isDigit (hs x hx)
      have ht1 := fraction_lt_one (by omega : 0 < 10) fun x hx => digit_lt_of_isDigit (ht x hx)
      have hstep := compare_add_div (a := digit c) (b := digit d) (fraction_nonneg 10 s) hs1
        (fraction_nonneg 10 t) ht1
      rw [List.compare_cons_cons, compare_digit hc hd, fraction_cons (by omega),
        fraction_cons (by omega), ih hs ht (getLast?_ne_of_cons hsl) (getLast?_ne_of_cons htl)]
      exact hstep.symm

end LiteralCodec.Numeral
