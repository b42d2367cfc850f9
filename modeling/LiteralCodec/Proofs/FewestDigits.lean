import LiteralCodec.Proofs.Decimal.Precision
import LiteralCodec.Proofs.Scientific.Minimal
import LiteralCodec.Proofs.Written

/-!
# Numbers are written with the fewest digits

A finite number other than zero is written as a decimal, and a decimal literal that is read as the
same number has at least as many significant digits, however it is laid out and whatever its length
and its exponent. There is one exception, with either sign: the half `2 ^ -6` is written as
`0.015625`, although `0.01563` is read as the same half. Below a power of two the halves are twice
as dense as above it, so the interval of what is read as this one reaches further up than down, and
`0.01563` is in it. But it is `0.01562` that is tried, which is as near and even.

Results:
* `rounds_of_read`: a short decimal literal that is read as a number is rounded to it.
* `exists_written`: the text of a number, and how many digits it has.
* `write_fewest`: when a text has the fewest digits.
-/

namespace LiteralCodec.Literal

open FloatFormat (half)

variable {f : FloatFormat} {bits : ℕ}

/-! ## Reading -/

/-- The words of a floating point type tell the pattern. -/
theorem split_injective {bits' : ℕ} (hb : bits < 2 ^ f.width) (hb' : bits' < 2 ^ f.width)
    (h : Word.split bits (Word.count f.width) = Word.split bits' (Word.count f.width)) :
    bits = bits' := by
  have hjoin := congrArg Word.join h
  rwa [Word.join_split_of_lt hb, Word.join_split_of_lt hb'] at hjoin

/-- A decimal literal that is read as the words of a pattern has that pattern. -/
theorem pattern?_of_read {t : DecimalText} {reporter : Reporter} {loc : Option Location}
    (hb : bits < 2 ^ f.width)
    (h : read (.float f) reporter ⟨loc, String.ofList t.text⟩ =
      .ok (Word.split bits (Word.count f.width))) : t.decimal.pattern? f = some bits := by
  have hfirst := firstReading_decimal f t
  cases hp : t.decimal.pattern? f with
  | none =>
    rw [hp, Option.elim_none, ← String.toList_ofList (l := t.text)] at hfirst
    rw [read_of_error ⟨loc, String.ofList t.text⟩ hfirst] at h
    cases h
  | some pattern =>
    rw [hp, Option.elim_some] at hfirst
    by_cases hlt : pattern < 2 ^ f.width
    · rw [read_of_pattern hfirst hlt] at h
      rw [split_injective hlt hb (Except.ok.inj h)]
    · have hbits : (Value.bits pattern).toBits (.float f) =
          .error (.outOfRange (.bits pattern) (.float f)) := if_neg hlt
      rw [← String.toList_ofList (l := t.text)] at hfirst
      rw [read_of_ok ⟨loc, String.ofList t.text⟩ hfirst, hbits] at h
      cases h

/-- **A short decimal literal** that is read as the words of a pattern is rounded to it. For singles
and doubles it need not be short. -/
theorem rounds_of_read {t : DecimalText} {reporter : Reporter} {loc : Option Location} {j : ℕ}
    (hb : bits < 2 ^ f.width) (hj : f = half → j ≤ 5) (hprecision : t.decimal.precision < j)
    (h : read (.float f) reporter ⟨loc, String.ofList t.text⟩ =
      .ok (Word.split bits (Word.count f.width))) :
    ∃ (c : ℕ) (s : ℤ), c < 10 ^ t.decimal.precision ∧
      f.Rounds (compare ((c : ℚ) * 10 ^ s)) (f.magnitude bits) := by
  obtain ⟨c, s, hc, hv⟩ := Decimal.exists_coefficient t.isDigit_digits
  have hsettled : f = half → t.decimal.Settled := fun e => by
    have hpow : 10 ^ t.decimal.precision ≤ 10 ^ 5 :=
      Nat.pow_le_pow_right (by omega) (hprecision.le.trans (hj e))
    exact Decimal.settled_of_short t.isDigit_digits (by omega) hv
  obtain ⟨m, hr, hp⟩ := Decimal.pattern?_of_settled f hsettled
  rw [pattern?_of_read hb h] at hp
  split_ifs at hp with hm
  have hmag : f.magnitude bits = m := by
    rw [Option.some.inj hp, FloatFormat.magnitude_sign_add _ (hm.trans f.infinity_lt_signBit)]
  rw [hv, ← hmag] at hr
  exact ⟨c, s, hc, hr⟩

/-! ## Writing -/

/-- A pattern is written as its text, which is read as the pattern. -/
theorem write_pattern {text : List Char} (hb : bits < 2 ^ f.width) (h : floatText f bits = text) :
    write (.float f) (Word.split bits (Word.count f.width)) = .ok (String.ofList text) ∧
      ∀ reporter loc, read (.float f) reporter ⟨loc, String.ofList text⟩ =
        .ok (Word.split bits (Word.count f.width)) := by
  subst h
  have hb' : bits < 2 ^ (NumericType.float f).width := hb
  exact ⟨write_eq_ok.mpr ⟨bits, hb, rfl, rfl⟩, read_patternText hb'⟩

/-- **The text of a number** is a decimal literal with as many digits as its coefficient. -/
theorem exists_written {j : ℕ} (hfinite : f.magnitude bits < f.infinity)
    (hzero : f.magnitude bits ≠ 0) (hj : 0 < j) (hle : (f.shortest (f.magnitude bits)).1 ≤ 10 ^ j) :
    ∃ t : DecimalText, floatText f bits = t.text ∧ t.decimal.precision ≤ j := by
  have hx : Scientific.ofPattern f bits = .ofCoefficient (f.fields bits).negative
      (f.shortest (f.magnitude bits)).1 (f.shortest (f.magnitude bits)).2 := rfl
  have hfin : f.isFinite (f.magnitude bits) = true := decide_eq_true hfinite
  have hr := FloatFormat.shortest_rounds hfinite
  obtain ⟨t, htext, -, hmag, -⟩ := Scientific.exists_text (Scientific.isDigit_ofCoefficient
    (f.fields bits).negative (f.shortest (f.magnitude bits)).1 (f.shortest (f.magnitude bits)).2)
  rw [Scientific.magnitude_ofCoefficient] at hmag
  refine ⟨t, by rw [floatText, if_pos hfin, hx, htext], ?_⟩
  refine Decimal.precision_le t.isDigit_digits hj hle hmag ?_
  rw [hmag]
  exact hr.pos (Nat.pos_of_ne_zero hzero)

/-! ## The exception -/

/-- A zero, and digits behind the point. -/
def belowOne (negative : Bool) (digits : List Char) (h : digits.all Char.isDigit = true) :
    DecimalText where
  negative := negative
  integer := ['0']
  fraction? := some digits
  exponent? := none
  isDigit_integer := List.all_eq_true.mp rfl
  isDigit_fraction := List.all_eq_true.mp h
  digits_ne_nil := List.cons_ne_nil _ _

/-- The text of the half that is written with five digits. -/
def fiveDigits (negative : Bool) : DecimalText :=
  belowOne negative ['0', '1', '5', '6', '2', '5'] rfl

/-- A literal of the same half with four digits. -/
def fourDigits (negative : Bool) : DecimalText := belowOne negative ['0', '1', '5', '6', '3'] rfl

theorem precision_fourDigits (negative : Bool) :
    (fourDigits negative).decimal.precision < (fiveDigits negative).decimal.precision := by
  cases negative <;> decide +kernel

theorem floatText_missed (negative : Bool) :
    floatText half (half.sign negative + FloatFormat.missed) = (fiveDigits negative).text := by
  cases negative <;> decide +kernel

theorem read_fourDigits (negative : Bool) :
    read (.float half) ⟨"", .soft⟩ ⟨none, String.ofList (fourDigits negative).text⟩ =
      .ok (Word.split (half.sign negative + FloatFormat.missed) (Word.count half.width)) := by
  cases negative <;> decide +kernel

/-! ## All numbers -/

/-- **Numbers are written with the fewest digits.** The text of a finite number other than zero is a
decimal literal of the number. There is one with fewer significant digits just if the number is the
half `2 ^ -6`, with either sign. -/
theorem write_fewest {f : FloatFormat} {bits : ℕ} (hb : bits < 2 ^ f.width)
    (hfinite : f.magnitude bits < f.infinity) (hzero : f.magnitude bits ≠ 0) :
    ∃ t : DecimalText,
      write (.float f) (Word.split bits (Word.count f.width)) = .ok (String.ofList t.text) ∧
      (∀ reporter loc, read (.float f) reporter ⟨loc, String.ofList t.text⟩ =
        .ok (Word.split bits (Word.count f.width))) ∧
      ((∃ (t' : DecimalText) (reporter : Reporter) (loc : Option Location),
          t'.decimal.precision < t.decimal.precision ∧
          read (.float f) reporter ⟨loc, String.ofList t'.text⟩ =
            .ok (Word.split bits (Word.count f.width))) ↔
        f = .half ∧ f.magnitude bits = 9 * 2 ^ 10) := by
  have hmissed : FloatFormat.missed = 9 * 2 ^ 10 := rfl
  rw [← hmissed]
  by_cases hexception : f = half ∧ f.magnitude bits = FloatFormat.missed
  · obtain ⟨rfl, hmag⟩ := hexception
    have hsign := FloatFormat.sign_add_magnitude hb
    rw [hmag] at hsign
    generalize (half.fields bits).negative = negative at hsign
    subst hsign
    obtain ⟨hwrite, hread⟩ := write_pattern hb (floatText_missed negative)
    exact ⟨fiveDigits negative, hwrite, hread, fun _ => ⟨rfl, hmag⟩, fun _ =>
      ⟨fourDigits negative, _, _, precision_fourDigits negative, read_fourDigits negative⟩⟩
  · have hne : f = half → f.magnitude bits ≠ FloatFormat.missed := fun hf h => hexception ⟨hf, h⟩
    obtain ⟨j, hj, hhalf, hle, hminimal⟩ :=
      FloatFormat.shortest_minimal (Nat.pos_of_ne_zero hzero) hfinite hne
    obtain ⟨t, htext, hprecision⟩ := exists_written hfinite hzero hj hle
    obtain ⟨hwrite, hread⟩ := write_pattern hb htext
    refine ⟨t, hwrite, hread, fun ⟨t', reporter, loc, hless, hread'⟩ => ?_,
      fun h => absurd h hexception⟩
    have hlt := hless.trans_le hprecision
    obtain ⟨c, s, hc, hr⟩ := rounds_of_read hb hhalf hlt hread'
    exact absurd hr (hminimal _ hlt c hc s)

/-- A third as a half has no literal with fewer than four digits. -/
theorem write_fewest_third :
    write (.float .half) [0x3555] = .ok "0.3333" ∧
      ¬∃ (t' : DecimalText) (reporter : Reporter) (loc : Option Location),
        t'.decimal.precision < 4 ∧
          read (.float .half) reporter ⟨loc, String.ofList t'.text⟩ = .ok [0x3555] := by
  have htext : write (.float .half) [0x3555] = .ok "0.3333" := by decide +kernel
  have hb : 0x3555 < 2 ^ half.width := by decide
  obtain ⟨t, hwrite, -, hiff⟩ := write_fewest hb (by decide) (by decide)
  have ht : t.text = "0.3333".toList := by
    rw [← String.toList_ofList (l := t.text)]
    exact congrArg String.toList (Except.ok.inj (hwrite.symm.trans htext))
  have hparse := t.parse?_text
  rw [ht] at hparse
  have hdecimal : t.decimal = ⟨false, ['0'], ['3', '3', '3', '3'], 0⟩ :=
    Option.some.inj (hparse.symm.trans (by decide +kernel))
  have hprecision : t.decimal.precision = 4 := by
    rw [hdecimal]
    decide +kernel
  rw [hprecision] at hiff
  exact ⟨htext, fun h => absurd (hiff.mp h).2 (by decide)⟩

/-- The half that is written with one digit too many. -/
theorem write_missed :
    ∃ t t' : DecimalText, write (.float .half) [0x2400] = .ok (String.ofList t.text) ∧
      String.ofList t.text = "0.015625" ∧ String.ofList t'.text = "0.01563" ∧
      t'.decimal.precision < t.decimal.precision ∧
      read (.float .half) ⟨"", .soft⟩ ⟨none, String.ofList t'.text⟩ = .ok [0x2400] :=
  ⟨fiveDigits false, fourDigits false, by decide +kernel, by decide +kernel, by decide +kernel,
    precision_fourDigits false, read_fourDigits false⟩

end LiteralCodec.Literal
