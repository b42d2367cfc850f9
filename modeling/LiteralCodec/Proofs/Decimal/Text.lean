import LiteralCodec.Proofs.Decimal.Significant
import LiteralCodec.Proofs.Parts

/-!
# The texts of decimals

A decimal literal, part by part: a minus sign or none, the digits before the point, the point and
the digits behind it or neither, an exponent or none. The digits on one side of the point may be
missing.

Results:
* `DecimalText.parse?_text`, `DecimalText.exists_of_parse?`: every such text is read as the decimal
  of its parts, and no other text is read.
* `DecimalText.value_eq`, `DecimalText.abs_value`: that decimal has the magnitude of the number that
  the text denotes.
* `DecimalText.Tidy`: a literal without needless zeroes.
-/

namespace LiteralCodec

/-- A decimal literal in its parts. -/
structure DecimalText where
  negative : Bool
  integer : List Char
  /-- The digits behind the point, if there is a point. -/
  fraction? : Option (List Char)
  exponent? : Option (ExponentText Decimal.isExponentMark)
  isDigit_integer : ∀ c ∈ integer, c.isDigit = true
  isDigit_fraction : ∀ c ∈ fraction?.getD [], c.isDigit = true
  digits_ne_nil : integer ++ fraction?.getD [] ≠ []

namespace DecimalText

variable (t : DecimalText)

/-! ## Text and value -/

/-- The digits behind the point, none if there is no point. -/
def fraction : List Char := t.fraction?.getD []

/-- The digits with their point. -/
def mantissa : List Char := t.integer ++ (t.fraction?.map ('.' :: ·)).getD []

/-- The mantissa and the exponent. -/
def unsigned : List Char := t.mantissa ++ (t.exponent?.map (·.text)).getD []

/-- The literal as it is written. -/
def text : List Char := Numeral.sign t.negative ++ t.unsigned

/-- The exponent, zero if none is written. -/
def exponent : ℤ := (t.exponent?.map (·.value)).getD 0

/-- The number that the literal denotes. -/
def value : ℚ :=
  (if t.negative then -1 else 1) *
    ((Numeral.value 10 t.integer + Numeral.fraction 10 t.fraction) * 10 ^ t.exponent)

/-- The decimal with these parts. -/
def decimal : Decimal := ⟨t.negative, t.integer, t.fraction, t.exponent⟩

/-- The number is the magnitude of the decimal with the sign. -/
theorem value_eq : t.value = (if t.negative then -1 else 1) * t.decimal.magnitude := by
  have h10 : (10 : ℚ) ≠ 0 := by norm_num
  rw [value, Decimal.magnitude, Decimal.coefficient, Decimal.digits, Numeral.value_append,
    Decimal.scale, zpow_sub₀ h10, zpow_natCast, Numeral.fraction]
  unfold decimal
  push_cast
  field_simp

/-- **The decimal has the magnitude of the number.** -/
theorem abs_value : |t.value| = t.decimal.magnitude := by
  have hs : |(if t.negative then -1 else 1 : ℚ)| = 1 := by
    split_ifs
    · rw [abs_neg, abs_one]
    · rw [abs_one]
  rw [value_eq, abs_mul, hs, one_mul, abs_of_nonneg]
  unfold Decimal.magnitude
  positivity

/-! ## Its characters -/

theorem mem_mantissa {c : Char} (h : c ∈ t.mantissa) : c = '.' ∨ c.isDigit = true := by
  rw [mantissa, List.mem_append] at h
  rcases h with h | h
  · exact Or.inr (t.isDigit_integer c h)
  · have hf := t.isDigit_fraction c
    cases hs : t.fraction? with
    | none => simp [hs] at h
    | some s =>
      simp only [hs, Option.map_some, Option.getD_some, List.mem_cons] at h hf
      exact h.imp_right hf

theorem mem_unsigned {c : Char} (h : c ∈ t.unsigned) :
    c = '.' ∨ c = 'e' ∨ c = 'E' ∨ c = '+' ∨ c = '-' ∨ c.isDigit = true := by
  rw [unsigned, List.mem_append] at h
  rcases h with h | h
  · have := t.mem_mantissa h
    tauto
  · cases he : t.exponent? with
    | none => simp [he] at h
    | some e =>
      simp only [he, Option.map_some, Option.getD_some] at h
      have hm := e.isMark_mark
      simp only [Decimal.isExponentMark, Bool.or_eq_true, beq_iff_eq] at hm
      rcases e.mem_text h with rfl | h
      · tauto
      · tauto

theorem mantissa_ne_nil : t.mantissa ≠ [] := by
  have h := t.digits_ne_nil
  unfold mantissa
  intro hn
  rw [List.append_eq_nil_iff] at hn
  cases hs : t.fraction? with
  | none => simp [hs, hn.1] at h
  | some s => simp [hs] at hn

/-- What a literal starts with behind its sign. -/
theorem head?_unsigned : ∃ c s, t.unsigned = c :: s ∧ (c = '.' ∨ c.isDigit = true) := by
  cases hm : t.mantissa with
  | nil => exact absurd hm t.mantissa_ne_nil
  | cons c s =>
    refine ⟨c, s ++ (t.exponent?.map (·.text)).getD [], ?_, t.mem_mantissa ?_⟩
    · rw [unsigned, hm, List.cons_append]
    · rw [hm]
      exact List.mem_cons_self

/-- No character of the digits and the point could be left out: there are digits before the point,
no zero stands in front of other digits, and behind the point, if there is one, are digits with no
zero at the end. -/
structure Tidy : Prop where
  integer_ne_nil : t.integer ≠ []
  integer_head : t.integer = ['0'] ∨ t.integer.head? ≠ some '0'
  fraction_ne_nil : t.fraction? ≠ some []
  fraction_last : t.fraction.getLast? ≠ some '0'

/-- A tidy literal ends in a digit. -/
theorem Tidy.getLast?_text {t : DecimalText} (h : t.Tidy) :
    ∃ c, t.text.getLast? = some c ∧ c.isDigit = true := by
  have hmantissa : ∃ c, t.mantissa.getLast? = some c ∧ c.isDigit = true := by
    unfold mantissa
    cases hs : t.fraction? with
    | none =>
      rw [Option.map_none, Option.getD_none, List.append_nil,
        List.getLast?_eq_some_getLast h.integer_ne_nil]
      exact ⟨_, rfl, t.isDigit_integer _ (List.getLast_mem _)⟩
    | some s =>
      have hne : s ≠ [] := fun he => h.fraction_ne_nil (he ▸ hs)
      have hdigit := t.isDigit_fraction
      rw [hs, Option.getD_some] at hdigit
      refine ⟨s.getLast hne, ?_, hdigit _ (List.getLast_mem hne)⟩
      rw [Option.map_some, Option.getD_some,
        List.getLast?_append_of_ne_nil _ (List.cons_ne_nil _ _), List.getLast?_cons,
        List.getLast?_eq_some_getLast hne]
      rfl
  unfold text unsigned
  cases he : t.exponent? with
  | none =>
    rw [Option.map_none, Option.getD_none, List.append_nil,
      List.getLast?_append_of_ne_nil _ t.mantissa_ne_nil]
    exact hmantissa
  | some e =>
    obtain ⟨hne, hdigit⟩ := Numeral.isDecimal_iff.mp e.isDecimal_digits
    have htext : e.text = (e.mark :: Numeral.signText e.sign) ++ e.digits := rfl
    refine ⟨e.digits.getLast hne, ?_, hdigit _ (List.getLast_mem hne)⟩
    rw [Option.map_some, Option.getD_some, htext, ← List.append_assoc, ← List.append_assoc,
      List.getLast?_append_of_ne_nil _ hne, List.getLast?_eq_some_getLast hne]

/-! ## Reading -/

theorem splitSign_text : Numeral.splitSign t.text = (t.negative, t.unsigned) := by
  refine Numeral.splitSign_append t.negative fun h => ?_
  obtain ⟨c, s, hs, hc⟩ := t.head?_unsigned
  rw [hs, List.head?_cons, Option.some.injEq] at h
  subst h
  rcases hc with hc | hc <;> cases hc

theorem cut_unsigned :
    Numeral.cut Decimal.isExponentMark t.unsigned = (t.mantissa, t.exponent?.map (·.body)) := by
  have hm : ∀ c ∈ t.mantissa, Decimal.isExponentMark c = false := fun c hc => by
    rcases t.mem_mantissa hc with rfl | h
    · rfl
    · by_contra hmark
      simp only [Decimal.isExponentMark, Bool.not_eq_false, Bool.or_eq_true, beq_iff_eq] at hmark
      rcases hmark with rfl | rfl <;> cases h
  unfold unsigned
  cases he : t.exponent? with
  | none =>
    rw [Option.map_none, Option.getD_none, List.append_nil]
    exact Numeral.cut_eq_self hm
  | some e => exact Numeral.cut_append hm e.isMark_mark

theorem cut_mantissa : Numeral.cut (· == '.') t.mantissa = (t.integer, t.fraction?) := by
  have hm : ∀ c ∈ t.integer, (c == '.') = false := fun c hc => by
    by_contra hmark
    rw [Bool.not_eq_false, beq_iff_eq] at hmark
    have := t.isDigit_integer c hc
    rw [hmark] at this
    cases this
  unfold mantissa
  cases hs : t.fraction? with
  | none =>
    rw [Option.map_none, Option.getD_none, List.append_nil]
    exact Numeral.cut_eq_self hm
  | some s => exact Numeral.cut_append hm rfl

theorem isDigit_digits : ∀ c ∈ t.decimal.digits, c.isDigit = true := by
  intro c hc
  rcases List.mem_append.mp hc with hc | hc
  · exact t.isDigit_integer c hc
  · exact t.isDigit_fraction c hc

/-- **A decimal literal is read as the decimal of its parts.** -/
theorem parse?_text : Decimal.parse? t.text = some t.decimal := by
  have hd : Numeral.isDecimal (t.integer ++ t.fraction?.getD []) = true :=
    Numeral.isDecimal_iff.mpr ⟨t.digits_ne_nil, t.isDigit_digits⟩
  simp only [Decimal.parse?, t.splitSign_text, t.cut_unsigned, t.cut_mantissa, hd, if_true]
  unfold decimal exponent fraction
  cases he : t.exponent? with
  | none => rfl
  | some e =>
    simp only [Option.map_some, Option.getD_some]
    rw [Decimal.exponent?, e.splitExponentSign_body, e.value_eq]
    simp only [e.isDecimal_digits, if_true, Option.map_some]

/-- What is read as an exponent is the text of one, behind any mark. -/
theorem exists_of_exponent? {mark : Char} (hmark : Decimal.isExponentMark mark = true)
    {s : List Char} {e : ℤ} (h : Decimal.exponent? s = some e) :
    ∃ t : ExponentText Decimal.isExponentMark, t.text = mark :: s ∧ t.value = e := by
  obtain ⟨sign, hnegative, hs⟩ := Numeral.splitExponentSign_eq s
  have hdecimal : Numeral.isDecimal (Numeral.splitExponentSign s).2 = true := by
    by_contra hne
    simp only [Decimal.exponent?, hne] at h
    cases h
  simp only [Decimal.exponent?, hdecimal, if_true] at h
  refine ⟨⟨mark, sign, _, hmark, hdecimal⟩, congrArg (mark :: ·) hs.symm, ?_⟩
  rw [ExponentText.value_eq, hnegative]
  exact Option.some.inj h

/-- **What is read as a decimal** is a decimal literal. -/
theorem exists_of_parse? {s : List Char} {d : Decimal} (h : Decimal.parse? s = some d) :
    ∃ t : DecimalText, t.text = s ∧ t.decimal = d := by
  obtain ⟨negative, rest, hsign⟩ : ∃ b r, Numeral.splitSign s = (b, r) := ⟨_, _, rfl⟩
  obtain ⟨mantissa, power, hcut⟩ : ∃ m p, Numeral.cut Decimal.isExponentMark rest = (m, p) :=
    ⟨_, _, rfl⟩
  obtain ⟨integer, fraction?, hpoint⟩ : ∃ i f, Numeral.cut (· == '.') mantissa = (i, f) :=
    ⟨_, _, rfl⟩
  have hs := Numeral.splitSign_eq s
  simp only [Decimal.parse?, hsign, hcut, hpoint] at h hs
  have hmantissa : mantissa = integer ++ (fraction?.map ('.' :: ·)).getD [] := by
    cases fraction? with
    | none => rw [Numeral.cut_eq_none hpoint, Option.map_none, Option.getD_none, List.append_nil]
    | some f =>
      obtain ⟨c, hc, -, hm⟩ := Numeral.cut_eq_some hpoint
      rw [hm, beq_iff_eq.mp hc, Option.map_some, Option.getD_some]
  split_ifs at h with hdigits
  obtain ⟨hne, hd⟩ := Numeral.isDecimal_iff.mp hdigits
  have hinteger : ∀ c ∈ integer, c.isDigit = true := fun c hc => hd c (List.mem_append_left _ hc)
  have hfraction : ∀ c ∈ fraction?.getD [], c.isDigit = true := fun c hc =>
    hd c (List.mem_append_right _ hc)
  cases power with
  | none =>
    refine ⟨⟨negative, integer, fraction?, none, hinteger, hfraction, hne⟩, ?_, Option.some.inj h⟩
    rw [hs, Numeral.cut_eq_none hcut, hmantissa]
    exact congrArg (Numeral.sign negative ++ ·) (List.append_nil _)
  | some power =>
    obtain ⟨value, hexponent, rfl⟩ := Option.map_eq_some_iff.mp h
    obtain ⟨mark, hmark, -, hrest⟩ := Numeral.cut_eq_some hcut
    obtain ⟨e, htext, rfl⟩ := exists_of_exponent? hmark hexponent
    refine ⟨⟨negative, integer, fraction?, some e, hinteger, hfraction, hne⟩, ?_, rfl⟩
    rw [hs, hrest, hmantissa, ← htext]
    rfl

/-! ## Other forms -/

theorem head?_text : ∃ c, t.text.head? = some c ∧ (c = '-' ∨ c = '.' ∨ c.isDigit = true) := by
  obtain ⟨c, s, hs, hc⟩ := t.head?_unsigned
  unfold text Numeral.sign
  cases t.negative with
  | true => exact ⟨'-', rfl, Or.inl rfl⟩
  | false => exact ⟨c, by simp [hs], Or.inr hc⟩

theorem afterHexMark?_unsigned : Numeral.afterHexMark? t.unsigned = none := by
  cases h : Numeral.afterHexMark? t.unsigned with
  | none => rfl
  | some s =>
    obtain ⟨c, hc, he⟩ := Numeral.afterHexMark?_eq_some.mp h
    have hmem : c ∈ t.unsigned := by
      rw [he]
      simp
    rcases hc with rfl | rfl <;>
      rcases t.mem_unsigned hmem with h | h | h | h | h | h <;> cases h

theorem length_digits_le : t.decimal.digits.length ≤ t.text.length := by
  have hl : t.decimal.digits.length = t.integer.length + t.fraction.length := List.length_append
  rw [hl]
  unfold text unsigned mantissa fraction
  simp only [List.length_append]
  cases t.fraction? with
  | none => simp only [Option.getD_none, List.length_nil]; omega
  | some s => simp only [Option.map_some, Option.getD_some, List.length_cons]; omega

end DecimalText

end LiteralCodec
