import LiteralCodec.Proofs.Parts

/-!
# Numerals as they are printed

A number is printed in digits of lower case, with no zero in front. There is one such numeral for
each number: a list of digits of that kind is what is printed for its value. The digits behind a
point have no zero at the end instead, and then they can be told by the fraction they stand for.

Results:
* `isPrinted_ten`, `isPrinted_sixteen`: which digits are printed.
* `toDigits_value`: digits without a zero in front are those of their value.
* `exists_ofInt`: the texts that are printed for integers.
* `fraction_injective`: digits without a zero at the end are those of their fraction.
-/

namespace LiteralCodec.Numeral

/-! ## Digits -/

/-- A digit of a base, as it is printed. -/
def IsPrinted (b : ℕ) (c : Char) : Prop := ∃ d < b, d.digitChar = c

/-- A hex digit, of lower case if it is a letter. -/
def isLowerHexDigit (c : Char) : Bool := c.isDigit || ('a' ≤ c && c ≤ 'f')

variable {b : ℕ} {c : Char} {s t : List Char}

theorem IsPrinted.digit_lt (h : IsPrinted b c) (hb : b ≤ 16) : digit c < b := by
  obtain ⟨d, hd, rfl⟩ := h
  rwa [digit_digitChar (by omega)]

theorem IsPrinted.digitChar_digit (h : IsPrinted b c) (hb : b ≤ 16) : (digit c).digitChar = c := by
  obtain ⟨d, hd, rfl⟩ := h
  rw [digit_digitChar (by omega)]

/-- A printed digit is told by what it counts for. -/
theorem IsPrinted.injective {d : Char} (hc : IsPrinted b c) (hd : IsPrinted b d) (hb : b ≤ 16)
    (h : digit c = digit d) : c = d := by
  rw [← hc.digitChar_digit hb, h, hd.digitChar_digit hb]

theorem isPrinted_ten : IsPrinted 10 c ↔ c.isDigit = true := by
  constructor
  · rintro ⟨d, hd, rfl⟩
    interval_cases d <;> rfl
  · intro h
    obtain ⟨hlo, hhi⟩ := toNat_of_isDigit h
    refine ⟨c.toNat - 48, by omega, Char.toNat_inj.mp ?_⟩
    generalize c.toNat = n at hlo hhi
    interval_cases n <;> rfl

theorem isPrinted_sixteen : IsPrinted 16 c ↔ isLowerHexDigit c = true := by
  constructor
  · rintro ⟨d, hd, rfl⟩
    interval_cases d <;> rfl
  · intro h
    rw [isLowerHexDigit, Bool.or_eq_true, Bool.and_eq_true, decide_eq_true_eq,
      decide_eq_true_eq] at h
    rcases h with h | ⟨hlo, hhi⟩
    · obtain ⟨d, hd, rfl⟩ := isPrinted_ten.mpr h
      exact ⟨d, by omega, rfl⟩
    · have hlo : 97 ≤ c.toNat := hlo
      have hhi : c.toNat ≤ 102 := hhi
      refine ⟨c.toNat - 87, by omega, Char.toNat_inj.mp ?_⟩
      generalize c.toNat = n at hlo hhi
      interval_cases n <;> rfl

theorem isHexDigit_of_isLowerHexDigit (h : isLowerHexDigit c = true) : c.isHexDigit = true := by
  obtain ⟨d, hd, rfl⟩ := isPrinted_sixteen.mpr h
  exact isHexDigit_digitChar hd

/-! ## Numbers -/

/-- A numeral with no zero in front denotes no zero. -/
theorem value_pos (hb : 0 < b) (hne : s ≠ []) (hhead : s.head? ≠ some '0') : 0 < value b s := by
  obtain ⟨c, s, rfl⟩ := List.exists_cons_of_ne_nil hne
  have hc : digit c ≠ 0 := fun h => hhead (congrArg some (eq_zero_of_digit_eq_zero h))
  rw [value_cons]
  positivity

/-- **Digits without a zero in front** are those that are printed for their value. -/
theorem toDigits_value (hb : 1 < b) (hb' : b ≤ 16) (hs : ∀ c ∈ s, IsPrinted b c) (hne : s ≠ [])
    (hhead : s.head? ≠ some '0') : Nat.toDigits b (value b s) = s := by
  induction s using List.reverseRecOn with
  | nil => exact absurd rfl hne
  | append_singleton s c ih =>
    have hc := hs c (by simp)
    have hlt := hc.digit_lt hb'
    rw [value_append, value_singleton, List.length_singleton, pow_one]
    by_cases hs0 : s = []
    · rw [hs0, value_nil, mul_zero, zero_add, Nat.toDigits_of_lt_base hlt, hc.digitChar_digit hb',
        List.nil_append]
    · have hhead' : s.head? ≠ some '0' := by
        rwa [List.head?_append_of_ne_nil s hs0] at hhead
      have hpos := value_pos (by omega : 0 < b) hs0 hhead'
      have hle : b ≤ b * value b s + digit c := by
        have := Nat.le_mul_of_pos_right b hpos
        omega
      have hdiv : (b * value b s + digit c) / b = value b s := by
        rw [Nat.mul_add_div (by omega), Nat.div_eq_of_lt hlt, add_zero]
      have hmod : (b * value b s + digit c) % b = digit c := by
        rw [Nat.mul_add_mod, Nat.mod_eq_of_lt hlt]
      rw [Nat.toDigits_of_base_le hb hle, hdiv, hmod, hc.digitChar_digit hb',
        ih (fun d hd => hs d (by simp [hd])) hs0 hhead']

theorem mem_toDigits (hb : 1 < b) {n : ℕ} (h : c ∈ Nat.toDigits b n) : IsPrinted b c := by
  induction n using Nat.strong_induction_on with
  | _ n ih =>
    by_cases hn : n < b
    · rw [Nat.toDigits_of_lt_base hn, List.mem_singleton] at h
      exact ⟨n, hn, h.symm⟩
    · rw [Nat.toDigits_of_base_le hb (by omega), List.mem_append, List.mem_singleton] at h
      rcases h with h | rfl
      · exact ih (n / b) (Nat.div_lt_self (by omega) hb) h
      · exact ⟨n % b, Nat.mod_lt n (by omega), rfl⟩

/-- Only zero is printed with a zero in front. -/
theorem head?_ofNat_ne {n : ℕ} (h : n ≠ 0) : (ofNat n).head? ≠ some '0' := by
  intro hhead
  obtain ⟨tail, htail⟩ : ∃ tail, ofNat n = '0' :: tail := by
    cases hs : ofNat n with
    | nil => exact absurd hs (ofNat_ne_nil n)
    | cons c tail =>
      rw [hs, List.head?_cons, Option.some.injEq] at hhead
      exact ⟨tail, by rw [hhead]⟩
  -- without that zero there is a digit less, so the number is too small for its digits
  have hdigits : ∀ c ∈ tail, digit c < 10 := fun c hc => by
    have hmem : c ∈ ofNat n := by
      rw [htail]
      exact List.mem_cons_of_mem _ hc
    exact digit_lt_of_isDigit (isDigit_of_mem_ofNat hmem)
  have hlt := value_lt hdigits
  have hvalue := value_ofNat n
  have hle := pow_digitCount_le (Nat.pos_of_ne_zero h)
  rw [htail, value_cons, digit_zero, mul_zero, zero_add] at hvalue
  rw [digitCount, htail, List.length_cons, Nat.add_sub_cancel] at hle
  omega

/-- **The texts that are printed for integers**: zero, and the digits of a number with no zero in
front, behind a minus sign or none. -/
theorem exists_ofInt :
    (∃ i, ofInt i = s) ↔ s = ['0'] ∨ ∃ negative digits, isDecimal digits = true ∧
      digits.head? ≠ some '0' ∧ s = sign negative ++ digits := by
  constructor
  · rintro ⟨i, rfl⟩
    by_cases hi : i = 0
    · left
      rw [hi]
      rfl
    · exact .inr ⟨decide (i < 0), ofNat i.natAbs, isDecimal_ofNat _,
        head?_ofNat_ne (Int.natAbs_ne_zero.mpr hi), rfl⟩
  · rintro (rfl | ⟨negative, digits, hdigits, hhead, rfl⟩)
    · exact ⟨0, rfl⟩
    · obtain ⟨hne, hall⟩ := isDecimal_iff.mp hdigits
      have hpos := value_pos (by omega : 0 < 10) hne hhead
      have hprint : ofNat (value 10 digits) = digits :=
        toDigits_value (by omega) (by omega) (fun c hc => isPrinted_ten.mpr (hall c hc)) hne hhead
      cases negative with
      | true =>
        have hneg : -(value 10 digits : ℤ) < 0 := by omega
        refine ⟨-(value 10 digits : ℤ), ?_⟩
        rw [ofInt, Int.natAbs_neg, Int.natAbs_natCast, hprint, decide_eq_true hneg]
      | false =>
        have hneg : ¬(value 10 digits : ℤ) < 0 := by omega
        refine ⟨value 10 digits, ?_⟩
        rw [ofInt, Int.natAbs_natCast, hprint, decide_eq_false hneg]

/-! ## Fractions -/

/-- The digits of a fraction as they are printed. -/
structure IsPrintedFraction (s : List Char) : Prop where
  lower : ∀ c ∈ s, isLowerHexDigit c = true
  getLast?_ne : s.getLast? ≠ some '0'

theorem isPrintedFraction_nil : IsPrintedFraction [] where
  lower := List.forall_mem_nil _
  getLast?_ne := nofun

theorem IsPrintedFraction.tail (h : IsPrintedFraction (c :: s)) : IsPrintedFraction s where
  lower := fun d hd => h.lower d (List.mem_cons_of_mem c hd)
  getLast?_ne := getLast?_ne_of_cons h.getLast?_ne

theorem IsPrintedFraction.lt_one (h : IsPrintedFraction s) : fraction 16 s < 1 :=
  fraction_lt_one (by omega) fun c hc =>
    digit_lt_of_isHexDigit (isHexDigit_of_isLowerHexDigit (h.lower c hc))

/-- **Digits without a zero at the end** are told by their fraction. -/
theorem fraction_injective (hs : IsPrintedFraction s) (ht : IsPrintedFraction t)
    (h : fraction 16 s = fraction 16 t) : s = t := by
  have hnil : ∀ {c s}, IsPrintedFraction (c :: s) → fraction 16 [] ≠ fraction 16 (c :: s) := by
    intro c s hs
    rw [fraction_nil]
    exact (fraction_pos (by omega) (List.cons_ne_nil c s) hs.getLast?_ne).ne
  induction s generalizing t with
  | nil =>
    cases t with
    | nil => rfl
    | cons d t => exact absurd h (hnil ht)
  | cons c s ih =>
    cases t with
    | nil => exact absurd h.symm (hnil hs)
    | cons d t =>
      rw [fraction_cons (by omega), fraction_cons (by omega), div_left_inj' (by norm_num)] at h
      -- the first digits are the integral parts of the same number
      have hs0 := fraction_nonneg 16 s
      have ht0 := fraction_nonneg 16 t
      have hs1 := hs.tail.lt_one
      have ht1 := ht.tail.lt_one
      have hle : digit c < digit d + 1 := by
        have : (digit c : ℚ) < digit d + 1 := by linarith
        exact_mod_cast this
      have hge : digit d < digit c + 1 := by
        have : (digit d : ℚ) < digit c + 1 := by linarith
        exact_mod_cast this
      have hdigit : digit c = digit d := by omega
      have hc := isPrinted_sixteen.mpr (hs.lower c List.mem_cons_self)
      have hd := isPrinted_sixteen.mpr (ht.lower d List.mem_cons_self)
      rw [hdigit, add_right_inj] at h
      rw [hc.injective hd le_rfl hdigit, ih hs.tail ht.tail h]

end LiteralCodec.Numeral
