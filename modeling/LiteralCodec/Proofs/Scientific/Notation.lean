import LiteralCodec.Literal.Writer
import LiteralCodec.Proofs.Scientific.Layout
import LiteralCodec.Proofs.Scientific.Shortest
import LiteralCodec.Scientific.Notation

/-!
# The layout of a text in scientific notation

A text in scientific notation is read as the digits and the exponent that it shows. Its layout is a
decimal literal that denotes the same number. In the range that stays short it has no exponent;
outside of it the digits stay as they are, and the exponent is written with its sign and two digits
or more. If the digits start and end with one that is not zero then no zero of the layout is
needless, and it does not end in a point.

Results:
* `ScientificText.ofText_text`: a text in scientific notation is read as what it shows.
* `ScientificText.exists_printed`: numbers are printed as such texts.
* `ScientificText.magnitude_scientific`: what it shows is the number that it denotes.
* `Scientific.floatText_eq`: finite floating point numbers are written as layouts of such texts.
* `Scientific.layoutText_exact`: the layout denotes the same number, and how it is written.
-/

namespace LiteralCodec

/-- A text in scientific notation in its parts. -/
structure ScientificText where
  negative : Bool
  lead : Char
  /-- The digits behind the point; without any there is no point. -/
  rest : List Char
  exponent : ExponentText (· == 'e')
  isDigit_lead : lead.isDigit = true
  isDigit_rest : ∀ c ∈ rest, c.isDigit = true

namespace ScientificText

variable (s : ScientificText)

/-- The digits without the point. -/
def digits : List Char := s.lead :: s.rest

/-- The digits with the point. -/
def mantissa : List Char := s.lead :: (if s.rest = [] then [] else '.' :: s.rest)

/-- The number as it is written. -/
def text : List Char := Numeral.sign s.negative ++ (s.mantissa ++ s.exponent.text)

/-- The number that is denoted. -/
def value : ℚ :=
  (if s.negative then -1 else 1) *
    ((Numeral.digit s.lead + Numeral.fraction 10 s.rest) * 10 ^ s.exponent.value)

/-- The number that is shown. -/
def scientific : Scientific := ⟨s.negative, s.digits, s.exponent.value⟩

theorem isDigit_digits : ∀ c ∈ s.digits, c.isDigit = true :=
  List.forall_mem_cons.mpr ⟨s.isDigit_lead, s.isDigit_rest⟩

theorem mem_mantissa {c : Char} (h : c ∈ s.mantissa) : c = '.' ∨ c.isDigit = true := by
  rw [mantissa, List.mem_cons] at h
  rcases h with rfl | h
  · exact .inr s.isDigit_lead
  · split_ifs at h
    · cases h
    · rcases List.mem_cons.mp h with h | h
      · exact .inl h
      · exact .inr (s.isDigit_rest c h)

/-! ## Reading -/

theorem filter_mantissa : s.mantissa.filter (· != '.') = s.digits := by
  have hkeep : ∀ c ∈ s.digits, (c != '.') = true := by
    intro c hc
    rw [bne_iff_ne]
    rintro rfl
    cases s.isDigit_digits '.' hc
  have hdigits : s.digits.filter (· != '.') = s.digits := List.filter_eq_self.mpr hkeep
  rw [mantissa]
  split_ifs with h
  · rwa [digits, h] at hdigits ⊢
  · rw [digits, List.filter_cons] at hdigits ⊢
    rwa [List.filter_cons_of_neg (by decide)]

theorem cut_text :
    Numeral.cut (· == 'e') s.text =
      (Numeral.sign s.negative ++ s.mantissa, some s.exponent.body) := by
  have hbefore : ∀ c ∈ Numeral.sign s.negative ++ s.mantissa, (c == 'e') = false := by
    intro c hc
    rw [beq_eq_false_iff_ne]
    rintro rfl
    rcases List.mem_append.mp hc with hc | hc
    · cases hneg : s.negative <;> simp [Numeral.sign, hneg] at hc
    · rcases s.mem_mantissa hc with h | h <;> cases h
  rw [text, ← List.append_assoc, ExponentText.text]
  exact Numeral.cut_append hbefore s.exponent.isMark_mark

theorem splitSign_mantissa :
    Numeral.splitSign (Numeral.sign s.negative ++ s.mantissa) = (s.negative, s.mantissa) := by
  refine Numeral.splitSign_append s.negative fun h => ?_
  have hlead := s.isDigit_lead
  rw [Option.some.inj h] at hlead
  cases hlead

theorem exponent?_body : Decimal.exponent? s.exponent.body = some s.exponent.value := by
  rw [Decimal.exponent?, s.exponent.splitExponentSign_body, s.exponent.value_eq]
  simp only [s.exponent.isDecimal_digits, if_true]

/-- **A text in scientific notation is read as what it shows**, if the exponent fits. -/
theorem ofText_text (h : |s.exponent.value| < 2 ^ 31) :
    Scientific.ofText s.text = s.scientific := by
  have hfits : Scientific.fitsExponent s.exponent.value = true := by
    obtain ⟨hlo, hhi⟩ := abs_lt.mp h
    simp only [Scientific.fitsExponent, Bool.and_eq_true, decide_eq_true_eq, Int32.toInt_minValue,
      Int32.toInt_maxValue]
    exact ⟨hlo.le, Int.le_sub_one_of_lt hhi⟩
  simp only [Scientific.ofText, s.cut_text, s.splitSign_mantissa, s.filter_mantissa,
    Option.bind_some, s.exponent?_body, Option.filter_some, hfits, if_true, Option.getD_some]
  rfl

/-! ## Printing -/

/-- An exponent as it is printed. -/
theorem exists_exponentText (e : ℤ) :
    ∃ t : ExponentText (· == 'e'), t.text = 'e' :: Numeral.ofInt e ∧ t.value = e := by
  refine ⟨⟨'e', if e < 0 then some true else none, Numeral.ofNat e.natAbs, rfl,
    Numeral.isDecimal_ofNat _⟩, ?_, ?_⟩
  · unfold ExponentText.text ExponentText.body Numeral.ofInt
    by_cases h : e < 0 <;> simp [h, Numeral.signText, Numeral.sign]
  · simp only [ExponentText.value, Numeral.value_ofNat]
    by_cases h : e < 0
    · rw [if_pos h, if_pos rfl, Int.ofNat_natAbs_of_nonpos h.le, neg_neg]
    · rw [if_neg h, if_neg (Option.some_ne_none _).symm, Int.natAbs_of_nonneg (not_lt.mp h)]

/-- **A number that is printed** is a text in scientific notation, with the same layout. -/
theorem exists_printed {x : Scientific} (hd : ∀ c ∈ x.digits, c.isDigit = true)
    (he : |x.exponent| < 2 ^ 31) :
    ∃ s : ScientificText, s.text = x.text ∧ s.scientific.layout = x.layout ∧
      |s.exponent.value| < 2 ^ 31 := by
  obtain ⟨negative, digits, exponent⟩ := x
  cases digits with
  | nil =>
    obtain ⟨t, htext, hvalue⟩ := exists_exponentText 0
    refine ⟨⟨negative, '0', [], t, rfl, List.forall_mem_nil _⟩, ?_, rfl, ?_⟩
    · rw [text, htext]
      rfl
    · rw [hvalue]
      decide
  | cons lead rest =>
    obtain ⟨hlead, hrest⟩ := List.forall_mem_cons.mp hd
    obtain ⟨t, htext, hvalue⟩ := exists_exponentText exponent
    refine ⟨⟨negative, lead, rest, t, hlead, hrest⟩, ?_, ?_, ?_⟩
    · rw [text, htext]
      rfl
    · rw [scientific, hvalue]
      rfl
    · rwa [hvalue]

/-! ## The number -/

/-- **What is shown is the number that is denoted**, but for the sign. -/
theorem magnitude_scientific :
    s.scientific.magnitude =
      (Numeral.digit s.lead + Numeral.fraction 10 s.rest) * 10 ^ s.exponent.value := by
  have h10 : (10 : ℚ) ≠ 0 := by norm_num
  have he : s.exponent.value + 1 - ((s.rest.length + 1 : ℕ) : ℤ) =
      s.exponent.value - s.rest.length := by omega
  rw [Scientific.magnitude, scientific, digits, List.length_cons, he, zpow_sub₀ h10, zpow_natCast,
    Numeral.value_cons, Numeral.fraction]
  push_cast
  field_simp

theorem value_eq_of_laidOut {t : DecimalText} (h : s.scientific.LaidOut t) : t.value = s.value := by
  rw [t.value_eq, h.magnitude_eq, h.negative_eq, magnitude_scientific]
  rfl

/-- A number in scientific notation whose first digit is not zero is not zero. -/
theorem not_all_zero (h : s.digits.head? ≠ some '0') : ¬s.digits.all (· == '0') = true := by
  intro hall
  have hlead := List.all_eq_true.mp hall s.lead List.mem_cons_self
  exact h (congrArg some (beq_iff_eq.mp hlead))

end ScientificText

namespace Scientific

/-! ## Layouts -/

/-- The layout of a number is that of its text. -/
theorem layoutText_text {x : Scientific} (hd : ∀ c ∈ x.digits, c.isDigit = true)
    (he : |x.exponent| < 2 ^ 31) : layoutText x.text = x.layout := by
  obtain ⟨s, htext, hlayout, hvalue⟩ := ScientificText.exists_printed hd he
  rw [← htext, layoutText, s.ofText_text hvalue, hlayout]

/-- The exponent of a finite number fits. -/
theorem abs_exponent_ofPattern {f : FloatFormat} {bits : ℕ} (h : f.magnitude bits < f.infinity) :
    |(ofPattern f bits).exponent| < 2 ^ 31 := by
  obtain ⟨hdigits, hscale⟩ := FloatFormat.isModerate_shortest h
  have he : (ofPattern f bits).exponent = (f.shortest (f.magnitude bits)).2 +
      Numeral.digitCount (f.shortest (f.magnitude bits)).1 - 1 := rfl
  rw [abs_le] at hscale
  rw [he, abs_lt]
  omega

/-- **A finite number is written as the layout of its shortest decimal**, which is printed in
scientific notation. -/
theorem floatText_eq {f : FloatFormat} {bits : ℕ} (h : f.magnitude bits < f.infinity) :
    Literal.floatText f bits = layoutText (ofPattern f bits).text := by
  have hfinite : f.isFinite (f.magnitude bits) = true := decide_eq_true h
  rw [Literal.floatText, if_pos hfinite]
  exact (layoutText_text (isDigit_ofCoefficient _ _ _) (abs_exponent_ofPattern h)).symm

theorem isPositional_iff {x : Scientific} :
    x.isPositional = true ↔ -4 ≤ x.exponent ∧ x.exponent < max 6 x.digits.length := by
  rw [isPositional, Bool.and_eq_true, decide_eq_true_eq, decide_eq_true_eq]

/-- The layout with an exponent has the digits as they are. -/
theorem layoutExponent_eq (s : ScientificText) :
    s.scientific.layoutExponent = s.mantissa ++ (exponentText s.exponent.value).text := by
  rw [exponentText, ExponentText.text_ofInt]
  unfold layoutExponent ScientificText.scientific ScientificText.digits ScientificText.mantissa
  cases s.rest <;> simp

/-- A layout with an exponent has the digits in front of it as they were. -/
theorem mantissa_eq {s : ScientificText} {t : DecimalText} (hlaid : s.scientific.LaidOut t)
    (htext : t.text = s.scientific.layout) (hne : ¬s.scientific.digits.all (· == '0') = true)
    (hp : ¬s.scientific.isPositional = true)
    (he : t.exponent? = some (exponentText s.exponent.value)) : t.mantissa = s.mantissa := by
  rw [layout_of_ne_zero hne, if_neg hp, layoutExponent_eq, DecimalText.text, hlaid.negative_eq,
    DecimalText.unsigned, he] at htext
  exact List.append_cancel_right (List.append_cancel_left htext)

theorem length_exponentText (e : ℤ) : 2 ≤ (exponentText e).digits.length := by
  have hdigits : (exponentText e).digits = (Numeral.ofNat e.natAbs).leftpad 2 '0' := rfl
  rw [hdigits, List.length_leftpad]
  exact le_max_left _ _

/-- **The layout denotes the same number.** A number whose digits are all zero is laid out as one
zero with its sign. Otherwise, if the first and the last digit are not zero, the layout is a decimal
literal with the same sign and the same value. It has digits before the point, no zero in front of
other digits and none at the end behind the point, and does not end in a point. It has no exponent
just in the range that stays short, from four zeroes behind the point up to six digits before it, or
as many as there are; outside of it the digits stay as they are, and the exponent follows with its
sign and at least two digits. -/
theorem layoutText_exact (s : ScientificText) (hexponent : |s.exponent.value| < 2 ^ 31) :
    ((∀ c ∈ s.digits, c = '0') → layoutText s.text = Numeral.sign s.negative ++ ['0']) ∧
    (s.digits.head? ≠ some '0' → s.digits.getLast? ≠ some '0' →
      ∃ t : DecimalText, layoutText s.text = t.text ∧ Decimal.parse? t.text = some t.decimal ∧
        t.negative = s.negative ∧ t.value = s.value ∧ t.Tidy ∧ t.text.getLast? ≠ some '.' ∧
        (t.exponent? = none ↔
          -4 ≤ s.exponent.value ∧ s.exponent.value < max 6 s.digits.length) ∧
        ∀ e, t.exponent? = some e → t.mantissa = s.mantissa ∧ e.mark = 'e' ∧ e.sign ≠ none ∧
          2 ≤ e.digits.length ∧ e.value = s.exponent.value) := by
  rw [layoutText, s.ofText_text hexponent]
  constructor
  · intro hzero
    exact layout_zero (List.all_eq_true.mpr fun c hc => beq_iff_eq.mpr (hzero c hc))
  intro hhead hlast
  have hne := s.not_all_zero hhead
  obtain ⟨t, htext, hlaid, he⟩ := exists_layout (x := s.scientific) s.isDigit_digits
  have htidy := hlaid.tidy ⟨hhead, hlast⟩
  have hpoint : t.text.getLast? ≠ some '.' := by
    obtain ⟨c, hc, hdigit⟩ := htidy.getLast?_text
    rw [hc]
    rintro ⟨⟩
    cases hdigit
  have hzero : s.scientific.digits.all (· == '0') = false := Bool.eq_false_iff.mpr hne
  rw [hzero, Bool.false_or] at he
  refine ⟨t, htext.symm, t.parse?_text, hlaid.negative_eq, s.value_eq_of_laidOut hlaid, htidy,
    hpoint, ?_, fun e hsome => ?_⟩
  · rw [he]
    refine Iff.trans ?_ (isPositional_iff (x := s.scientific))
    split_ifs with hp <;> simp [hp]
  · have hp : ¬s.scientific.isPositional = true := by
      intro hp
      rw [if_pos hp, hsome] at he
      cases he
    rw [if_neg hp, hsome] at he
    obtain rfl := Option.some.inj he
    exact ⟨mantissa_eq hlaid htext hne hp hsome, rfl, Option.some_ne_none _, length_exponentText _,
      ExponentText.value_ofInt _⟩

/-- A number just outside the range that stays short, and a zero with an exponent. -/
theorem layoutText_exact_small :
    layoutText "-1.5e-5".toList = "-1.5e-05".toList ∧
      (∃ t : DecimalText, t.text = "-1.5e-05".toList ∧ t.value = -3 / 200000 ∧ t.exponent? ≠ none) ∧
      layoutText "-0e7".toList = "-0".toList := by
  let small : ScientificText :=
    { negative := true
      lead := '1'
      rest := ['5']
      exponent := ⟨'e', some true, ['5'], rfl, rfl⟩
      isDigit_lead := by decide
      isDigit_rest := List.all_eq_true.mp (by decide) }
  let zero : ScientificText :=
    { negative := true
      lead := '0'
      rest := []
      exponent := ⟨'e', none, ['7'], rfl, rfl⟩
      isDigit_lead := by decide
      isDigit_rest := List.forall_mem_nil _ }
  have hlayout : layoutText small.text = "-1.5e-05".toList := by decide +kernel
  have hsmall : small.exponent.value = -5 := by decide
  have hzero : zero.exponent.value = 7 := by decide
  have hvalue : small.value = -3 / 200000 := by
    rw [ScientificText.value, hsmall, show Numeral.digit small.lead = 1 from rfl, Numeral.fraction,
      show Numeral.value 10 small.rest = 5 from rfl, show small.rest.length = 1 from rfl,
      show small.negative = true from rfl]
    norm_num
  obtain ⟨-, hdecimal⟩ := layoutText_exact small (by rw [hsmall]; decide)
  obtain ⟨hnought, -⟩ := layoutText_exact zero (by rw [hzero]; decide)
  obtain ⟨t, htext, -, -, ht, -, -, hrange, -⟩ := hdecimal (by decide) (by decide)
  refine ⟨hlayout, ⟨t, htext.symm.trans hlayout, ht.trans hvalue, fun hnone => ?_⟩,
    hnought fun c hc => List.mem_singleton.mp hc⟩
  obtain ⟨hlo, -⟩ := hrange.mp hnone
  rw [hsmall] at hlo
  exact absurd hlo (by decide)

example : layoutText "1e6".toList = "1e+06".toList ∧
    layoutText "1.234567e6".toList = "1234567".toList := by decide +kernel

end Scientific

end LiteralCodec
