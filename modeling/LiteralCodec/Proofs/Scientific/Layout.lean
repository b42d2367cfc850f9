import LiteralCodec.Proofs.Decimal.Text
import LiteralCodec.Scientific

/-!
# The layout of a number is a decimal literal

Each way to lay out digits and an exponent is a decimal literal of the same sign and magnitude.
Zeroes are added in front or behind, the point moves, and the exponent written makes up for it.
Where the digits have no needless zeroes the literal has none.

Results:
* `exists_layout`, `exists_text`: the layout of a number, as a decimal literal.
* `magnitude_ofCoefficient`: zeroes at the end of a coefficient go into the exponent.
-/

namespace LiteralCodec.Scientific

open Numeral (value)

variable (x : Scientific)

/-- The number without its sign. -/
def magnitude : ℚ := value 10 x.digits * 10 ^ (x.exponent + 1 - x.digits.length)

/-- The first and the last digit are not zero. -/
structure Trimmed : Prop where
  head_ne : x.digits.head? ≠ some '0'
  last_ne : x.digits.getLast? ≠ some '0'

/-- A decimal literal has the sign and the magnitude of `x`, few more digits, and none of them is
needless if none of `x` is. -/
structure LaidOut (t : DecimalText) : Prop where
  negative_eq : t.negative = x.negative
  magnitude_eq : t.decimal.magnitude = x.magnitude
  length_le : t.decimal.digits.length ≤ x.digits.length + 6
  tidy : x.Trimmed → t.Tidy

/-- `text` is a layout of `x` with an exponent or without. -/
def IsLayout (text : List Char) (exponent? : Option (ExponentText Decimal.isExponentMark)) : Prop :=
  ∃ t : DecimalText,
    t.text = Numeral.sign x.negative ++ text ∧ t.exponent? = exponent? ∧ x.LaidOut t

variable {x}

/-! ## Without an exponent -/

/-- Digits with a point among them, and no exponent. -/
theorem isLayout_point {integer fraction : List Char}
    (hi : ∀ c ∈ integer, c.isDigit = true) (hf : ∀ c ∈ fraction, c.isDigit = true)
    (hne : integer ≠ []) (hl : integer.length + fraction.length ≤ x.digits.length + 6)
    (hv : (value 10 (integer ++ fraction) : ℚ) * 10 ^ (-(fraction.length : ℤ)) = x.magnitude)
    (hhead : x.Trimmed → integer = ['0'] ∨ integer.head? ≠ some '0')
    (hlast : x.Trimmed → fraction ≠ [] ∧ fraction.getLast? ≠ some '0') :
    x.IsLayout (integer ++ '.' :: fraction) none := by
  refine ⟨⟨x.negative, integer, some fraction, none, hi, hf, ?_⟩, ?_, rfl, rfl, ?_, ?_, fun h => ?_⟩
  · exact List.append_ne_nil_of_left_ne_nil hne _
  · simp [DecimalText.text, DecimalText.unsigned, DecimalText.mantissa]
  · rw [← hv, Decimal.magnitude, Decimal.scale, Decimal.coefficient]
    simp [DecimalText.decimal, DecimalText.fraction, DecimalText.exponent, Decimal.digits]
  · exact (List.length_append).trans_le hl
  · exact ⟨hne, hhead h, fun he => (hlast h).1 (Option.some.inj he), (hlast h).2⟩

/-- Digits with neither a point nor an exponent. -/
theorem isLayout_integer {integer : List Char} (hi : ∀ c ∈ integer, c.isDigit = true)
    (hne : integer ≠ []) (hl : integer.length ≤ x.digits.length + 6)
    (hv : (value 10 integer : ℚ) = x.magnitude)
    (hhead : x.Trimmed → integer = ['0'] ∨ integer.head? ≠ some '0') : x.IsLayout integer none := by
  refine ⟨⟨x.negative, integer, none, none, hi, by simp, by simpa using hne⟩, ?_, rfl, rfl, ?_, ?_,
    fun h => ?_⟩
  · simp [DecimalText.text, DecimalText.unsigned, DecimalText.mantissa]
  · rw [← hv, Decimal.magnitude, Decimal.scale, Decimal.coefficient]
    simp [DecimalText.decimal, DecimalText.fraction, DecimalText.exponent, Decimal.digits]
  · simpa [DecimalText.decimal, DecimalText.fraction, Decimal.digits] using hl
  · exact ⟨hne, hhead h, (Option.some_ne_none _).symm, (Option.some_ne_none _).symm⟩

theorem isLayout_behind_zeroes (hd : ∀ c ∈ x.digits, c.isDigit = true) (hne : x.digits ≠ []) {k : ℕ}
    (hk : k < 4) (he : x.exponent = Int.negSucc k) :
    x.IsLayout ('0' :: '.' :: (List.replicate k '0' ++ x.digits)) none := by
  change x.IsLayout (['0'] ++ '.' :: (List.replicate k '0' ++ x.digits)) none
  refine isLayout_point (by simp) ?_ (by simp) ?_ ?_ (fun _ => .inl rfl) fun h => ?_
  · intro c hc
    rcases List.mem_append.mp hc with hc | hc
    · exact Numeral.isDigit_of_mem_replicate hc
    · exact hd c hc
  · rw [List.length_append, List.length_replicate, List.length_singleton]
    omega
  · have hz : ['0'] ++ (List.replicate k '0' ++ x.digits) =
        List.replicate (k + 1) '0' ++ x.digits := by
      rw [List.replicate_succ]
      rfl
    rw [hz, Numeral.value_zeroes_append, magnitude, he, List.length_append, List.length_replicate]
    congr 2
    omega
  · rw [List.getLast?_append_of_ne_nil _ hne]
    exact ⟨List.append_ne_nil_of_right_ne_nil _ hne, h.last_ne⟩

theorem isLayout_before_zeroes (hd : ∀ c ∈ x.digits, c.isDigit = true) (hne : x.digits ≠ []) {k : ℕ}
    (hk : k < max 6 x.digits.length) (hle : x.digits.length ≤ k + 1) (he : x.exponent = k) :
    x.IsLayout (x.digits ++ List.replicate (k + 1 - x.digits.length) '0') none := by
  refine isLayout_integer ?_ (by simp [hne]) ?_ ?_ fun h => .inr ?_
  · intro c hc
    rcases List.mem_append.mp hc with hc | hc
    · exact hd c hc
    · exact Numeral.isDigit_of_mem_replicate hc
  · rw [List.length_append, List.length_replicate]
    omega
  · have hz : x.exponent + 1 - x.digits.length = ((k + 1 - x.digits.length : ℕ) : ℤ) := by omega
    rw [Numeral.value_append_zeroes, magnitude, hz, zpow_natCast]
    push_cast
    ring
  · rw [List.head?_append_of_ne_nil _ hne]
    exact h.head_ne

theorem isLayout_among_digits (hd : ∀ c ∈ x.digits, c.isDigit = true) {k : ℕ}
    (hlt : k + 1 < x.digits.length) (he : x.exponent = k) :
    x.IsLayout (x.digits.take (k + 1) ++ '.' :: x.digits.drop (k + 1)) none := by
  have htd := List.take_append_drop (k + 1) x.digits
  have hl := congrArg List.length htd
  rw [List.length_append] at hl
  have htake : x.digits.take (k + 1) ≠ [] := by
    refine List.length_pos_iff.mp ?_
    rw [List.length_take]
    omega
  have hdrop : x.digits.drop (k + 1) ≠ [] := fun h => (List.drop_eq_nil_iff.mp h).not_gt hlt
  refine isLayout_point (fun c hc => hd c (List.mem_of_mem_take hc))
    (fun c hc => hd c (List.mem_of_mem_drop hc)) htake (by omega) ?_ (fun h => .inr ?_) fun h => ?_
  · rw [htd, magnitude, List.length_drop]
    congr 2
    omega
  · have hhead := h.head_ne
    rwa [← htd, List.head?_append_of_ne_nil _ htake] at hhead
  · have hlast := h.last_ne
    rw [← htd, List.getLast?_append_of_ne_nil _ hdrop] at hlast
    exact ⟨hdrop, hlast⟩

theorem isLayout_positional (hd : ∀ c ∈ x.digits, c.isDigit = true) (hne : x.digits ≠ [])
    (hp : x.isPositional = true) : x.IsLayout x.layoutPositional none := by
  simp only [isPositional, Bool.and_eq_true, decide_eq_true_eq] at hp
  obtain ⟨hlo, hhi⟩ := hp
  unfold layoutPositional
  split
  · next k hk =>
    rw [hk] at hlo
    exact isLayout_behind_zeroes hd hne (by omega) hk
  · next k hk =>
    rw [Int.ofNat_eq_natCast] at hk
    rw [hk] at hhi
    split_ifs with hle
    · exact isLayout_before_zeroes hd hne (by omega) hle hk
    · exact isLayout_among_digits hd (not_le.mp hle) hk

/-! ## With an exponent -/

/-- The exponent as it is written. -/
def exponentText (e : ℤ) : ExponentText Decimal.isExponentMark := .ofInt 'e' (by decide) 2 e

theorem isLayout_exponent (hd : ∀ c ∈ x.digits, c.isDigit = true) (hne : x.digits ≠ []) :
    x.IsLayout x.layoutExponent (some (exponentText x.exponent)) := by
  have hlen := List.length_pos_iff.mpr hne
  have htd := List.take_append_drop 1 x.digits
  have htake : x.digits.take 1 ≠ [] := by
    intro h
    rw [List.take_eq_nil_iff] at h
    exact h.elim (by omega) hne
  have hdrop : (if x.digits.length ≤ 1 then none else some (x.digits.drop 1)).getD [] =
      x.digits.drop 1 := by
    split_ifs with h
    · exact (List.drop_eq_nil_of_le h).symm
    · rfl
  refine ⟨⟨x.negative, x.digits.take 1,
    if x.digits.length ≤ 1 then none else some (x.digits.drop 1), some (exponentText x.exponent),
    fun c hc => hd c (List.mem_of_mem_take hc), fun c hc => ?_, ?_⟩, ?_, rfl, rfl, ?_, ?_,
    fun h => ⟨htake, .inr ?_, ?_, ?_⟩⟩
  · rw [hdrop] at hc
    exact hd c (List.mem_of_mem_drop hc)
  · exact List.append_ne_nil_of_left_ne_nil htake _
  · simp only [DecimalText.text, DecimalText.unsigned, DecimalText.mantissa, Option.map_some,
      Option.getD_some, exponentText, ExponentText.text_ofInt, layoutExponent]
    split_ifs <;> simp
  · rw [Decimal.magnitude, Decimal.scale, Decimal.coefficient]
    simp only [DecimalText.decimal, DecimalText.fraction, DecimalText.exponent, Decimal.digits,
      hdrop, htd, Option.map_some, Option.getD_some, exponentText, ExponentText.value_ofInt,
      List.length_drop]
    rw [magnitude]
    congr 2
    omega
  · simp only [DecimalText.decimal, DecimalText.fraction, Decimal.digits, hdrop, htd]
    omega
  · have hhead := h.head_ne
    rwa [← htd, List.head?_append_of_ne_nil _ htake] at hhead
  · split_ifs with hle
    · exact (Option.some_ne_none _).symm
    · exact fun he => hle (List.drop_eq_nil_iff.mp (Option.some.inj he))
  · simp only [DecimalText.fraction, hdrop, List.getLast?_drop]
    split_ifs
    · exact (Option.some_ne_none _).symm
    · exact h.last_ne

/-! ## All layouts -/

/-- The layout of a number that is not zero. -/
theorem layout_of_ne_zero (h : ¬x.digits.all (· == '0') = true) :
    x.layout = Numeral.sign x.negative ++
      if x.isPositional then x.layoutPositional else x.layoutExponent := by
  rw [layout, if_neg h]

/-- **The layout of a number is a decimal literal**, with an exponent if the number is not zero and
its own exponent lies outside the range that stays short. -/
theorem exists_layout (hd : ∀ c ∈ x.digits, c.isDigit = true) :
    ∃ t : DecimalText, t.text = x.layout ∧ x.LaidOut t ∧
      t.exponent? = if x.digits.all (· == '0') || x.isPositional then none
        else some (exponentText x.exponent) := by
  by_cases h0 : x.digits.all (· == '0') = true
  · rw [layout_zero h0, h0, Bool.true_or, if_pos rfl]
    have hz : x.digits = List.replicate x.digits.length '0' :=
      List.eq_replicate_of_mem fun c hc => by simpa using List.all_eq_true.mp h0 c hc
    have hv : (value 10 ['0'] : ℚ) = x.magnitude := by
      rw [magnitude, hz, Numeral.value_replicate_zero, Nat.cast_zero, zero_mul]
      rfl
    obtain ⟨t, htext, he, ht⟩ := isLayout_integer (x := x) (by simp) (List.cons_ne_nil '0' [])
      (by simp) hv fun _ => .inl rfl
    exact ⟨t, htext, ht, he⟩
  · have hne : x.digits ≠ [] := fun h => h0 (by rw [h]; rfl)
    rw [layout_of_ne_zero h0, Bool.eq_false_iff.mpr h0, Bool.false_or]
    split_ifs with hp
    · obtain ⟨t, htext, he, ht⟩ := isLayout_positional hd hne hp
      exact ⟨t, htext, ht, he⟩
    · obtain ⟨t, htext, he, ht⟩ := isLayout_exponent hd hne
      exact ⟨t, htext, ht, he⟩

/-- The layout of a number has its sign and its magnitude. -/
theorem exists_text (hd : ∀ c ∈ x.digits, c.isDigit = true) :
    ∃ t : DecimalText, t.text = x.layout ∧ t.negative = x.negative ∧
      t.decimal.magnitude = x.magnitude ∧ t.decimal.digits.length ≤ x.digits.length + 6 := by
  obtain ⟨t, htext, ht, -⟩ := exists_layout hd
  exact ⟨t, htext, ht.negative_eq, ht.magnitude_eq, ht.length_le⟩

theorem isDigit_ofCoefficient (negative : Bool) (coefficient : ℕ) (scale : ℤ) :
    ∀ c ∈ (ofCoefficient negative coefficient scale).digits, c.isDigit = true :=
  fun _ hc => Numeral.isDigit_of_mem_ofNat (Numeral.mem_of_mem_trimRight hc)

theorem length_ofCoefficient (negative : Bool) (coefficient : ℕ) (scale : ℤ) :
    (ofCoefficient negative coefficient scale).digits.length ≤ Numeral.digitCount coefficient := by
  obtain ⟨k, hk⟩ := Numeral.trimRight_eq (Numeral.ofNat coefficient)
  have := congrArg List.length hk
  rw [List.length_append, List.length_replicate] at this
  unfold ofCoefficient Numeral.digitCount
  simp only
  omega

/-- **Zeroes at the end of a coefficient go into the exponent.** -/
theorem magnitude_ofCoefficient (negative : Bool) (coefficient : ℕ) (scale : ℤ) :
    (ofCoefficient negative coefficient scale).magnitude = coefficient * 10 ^ scale := by
  obtain ⟨k, hk⟩ := Numeral.trimRight_eq (Numeral.ofNat coefficient)
  have hl := congrArg List.length hk
  rw [List.length_append, List.length_replicate] at hl
  have hc : coefficient = 10 ^ k * value 10 (Numeral.trimRight (Numeral.ofNat coefficient)) := by
    conv_lhs => rw [← Numeral.value_ofNat coefficient, hk, Numeral.value_append_zeroes]
  have he : scale + Numeral.digitCount coefficient - 1 + 1 -
      ((Numeral.trimRight (Numeral.ofNat coefficient)).length : ℤ) = scale + k := by
    unfold Numeral.digitCount
    omega
  unfold magnitude ofCoefficient
  simp only
  rw [he, zpow_add₀ (by norm_num), zpow_natCast]
  conv_rhs => rw [hc]
  push_cast
  ring

end LiteralCodec.Scientific
