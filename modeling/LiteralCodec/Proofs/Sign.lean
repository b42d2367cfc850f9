import LiteralCodec.Proofs.Decimal.Pattern
import LiteralCodec.Proofs.Extension
import LiteralCodec.Proofs.Hexfloat.Parse
import LiteralCodec.Proofs.Verdict

/-!
# Floating point literals of opposite signs

A minus sign in front of a floating point literal sets the sign bit of its pattern and changes
nothing else: not whether the text is a literal, nor why it is not, nor any bit of the magnitude. A
hex float has its sign taken off before it is read. A decimal keeps it, and a half loses it twice on
the way, where a double is narrowed and where the decimal is compared with a midpoint.

Results:
* `FloatFormat.testBit_sign_add`: the sign is one bit of a pattern.
* `Hexfloat.parse_sign`, `Decimal.exists_pattern?`: a pattern is the sign and what is read without
  it.
* `Literal.verdict_sign`: the verdict on a text with a sign in front.
* `Literal.read_minus`: literals of opposite signs.
-/

namespace LiteralCodec

variable {f : FloatFormat}

/-! ## Patterns -/

namespace FloatFormat

theorem signBit_eq_two_pow (f : FloatFormat) : f.signBit = 2 ^ (f.width - 1) := rfl

/-- **The sign is one bit of a pattern**, and the others are those of the magnitude. -/
theorem testBit_sign_add (negative : Bool) {m : ℕ} (h : m < f.signBit) (i : ℕ) :
    (f.sign negative + m).testBit i = if i = f.width - 1 then negative else m.testBit i := by
  rw [signBit_eq_two_pow] at h
  cases negative with
  | false =>
    rw [sign, if_neg Bool.false_ne_true, Nat.zero_add]
    split_ifs with hi
    · rw [hi, Nat.testBit_lt_two_pow h]
    · rfl
  | true =>
    have hsign : f.sign true + m = 2 ^ (f.width - 1) * 1 + m := by
      rw [mul_one]
      rfl
    rw [hsign, Nat.testBit_two_pow_mul_add _ h]
    split_ifs with hlt hi hi
    · omega
    · rfl
    · rw [hi, Nat.sub_self, Nat.testBit_zero]
      rfl
    · have hm : m < 2 ^ i := h.trans_le (Nat.pow_le_pow_right (by decide) (by omega))
      have hone : 1 < 2 ^ (i - (f.width - 1)) := Nat.one_lt_two_pow (by omega)
      rw [Nat.testBit_lt_two_pow hm, Nat.testBit_lt_two_pow hone]

end FloatFormat

/-! ## Hex floats -/

namespace Hexfloat

/-- The fields other than the sign do not depend on it. -/
theorem exists_place (exponent : ℤ) (fraction : ℕ) :
    ∃ r : Except Error (ℕ × ℕ), ∀ negative,
      place f negative exponent fraction = r.map fun x => ⟨negative, x.1, x.2⟩ := by
  refine ⟨(place f false exponent fraction).map fun x => (x.exponent, x.fraction),
    fun negative => ?_⟩
  unfold place
  simp only
  split_ifs <;> rfl

theorem assemble_sign (negative : Bool) (exponent fraction : ℕ) :
    f.assemble ⟨negative, exponent, fraction⟩ =
      f.sign negative + f.assemble ⟨false, exponent, fraction⟩ := by
  simp only [FloatFormat.assemble, FloatFormat.sign, Bool.false_eq_true, if_false]
  omega

/-- **A body has one magnitude**, whatever sign stood in front of it. -/
theorem parse_sign (negative : Bool) (body : List Char) :
    parse f negative body = (parse f false body).map (f.sign negative + ·) := by
  cases hone : afterLeadingOne body with
  | error e => simp only [parse, hone, bind, Except.bind, Except.map]
  | ok rest =>
  cases hsplit : splitFraction rest with
  | error e => simp only [parse, hone, hsplit, bind, Except.bind, Except.map]
  | ok parts =>
  cases hF : fraction f parts.1 with
  | error e => simp only [parse, hone, hsplit, hF, bind, Except.bind, Except.map]
  | ok F =>
  cases he : exponent parts.2 with
  | error e => simp only [parse, hone, hsplit, hF, he, bind, Except.bind, Except.map]
  | ok e =>
  obtain ⟨r, hr⟩ := exists_place (f := f) e F
  simp only [parse, hone, hsplit, hF, he, hr, bind, Except.bind]
  cases r with
  | error e => rfl
  | ok x => exact congrArg Except.ok (assemble_sign negative x.1 x.2)

/-- Without a sign it is a magnitude. -/
theorem parse_lt {body : List Char} {m : ℕ} (h : parse f false body = .ok m) : m < f.signBit := by
  obtain ⟨t, -, F, -, hlt, hnegative, -⟩ := ((parse_iff f false body).1 m).mp h
  rw [← FloatFormat.sign_add_magnitude hlt, hnegative, FloatFormat.sign,
    if_neg Bool.false_ne_true, Nat.zero_add]
  exact Nat.mod_lt _ (Nat.two_pow_pos _)

end Hexfloat

/-! ## Decimals -/

namespace Decimal

open FloatFormat (half single double)

/-- The decimal with a sign in place of its own. -/
def withSign (negative : Bool) (d : Decimal) : Decimal := { d with negative }

variable (negative : Bool) (d : Decimal)

@[simp] theorem coefficient_withSign : (d.withSign negative).coefficient = d.coefficient := rfl

@[simp] theorem scale_withSign : (d.withSign negative).scale = d.scale := rfl

@[simp] theorem significant?_withSign : (d.withSign negative).significant? = d.significant? := rfl

/-- The order with a midpoint is that of the magnitudes. -/
theorem compareToTie_withSign :
    (d.withSign negative).compareToTie (d.withSign negative).toDouble =
      d.compareToTie d.toDouble := by
  simp only [compareToTie, magnitude_toDouble, coefficient_withSign, scale_withSign,
    significant?_withSign]

/-- **A decimal has one magnitude**, whatever its sign. -/
theorem exists_pattern? (f : FloatFormat) :
    ∃ m, ∀ negative, (d.withSign negative).pattern? f =
      if m < f.infinity then some (f.sign negative + m) else none := by
  cases f with
  | single =>
    exact ⟨single.ofDecimal d.coefficient d.scale,
      fun negative => if_congr decide_eq_true_iff rfl rfl⟩
  | double =>
    exact ⟨double.ofDecimal d.coefficient d.scale,
      fun negative => if_congr decide_eq_true_iff rfl rfl⟩
  | half =>
    by_cases hf : double.ofDecimal d.coefficient d.scale < double.infinity
    · obtain ⟨m, hm, hr⟩ := FloatFormat.narrow_sign_add (d.compareToTie d.toDouble) hf
      refine ⟨m, fun negative => ?_⟩
      have hhalf : (d.withSign negative).toHalf = half.sign negative + m := by
        rw [toHalf, compareToTie_withSign]
        exact hm negative
      have hmag := FloatFormat.magnitude_sign_add negative
        (hr.le_infinity.trans_lt half.infinity_lt_signBit)
      simp [pattern?, FloatFormat.isFinite, magnitude_toDouble, hf, hhalf, hmag]
    · exact ⟨half.infinity, fun negative => by
        simp [pattern?, FloatFormat.isFinite, magnitude_toDouble, hf]⟩

/-- A sign in front of a text without one is the sign of its decimal. -/
theorem parse?_sign {s : List Char} (h : s.head? ≠ some '-') :
    parse? (Numeral.sign negative ++ s) = (parse? s).map (withSign negative) := by
  have hs : Numeral.splitSign s = (false, s) := Numeral.splitSign_append false h
  simp only [parse?, Numeral.splitSign_append negative h, hs]
  split_ifs
  · cases (Numeral.cut isExponentMark s).2 with
    | none => rfl
    | some t =>
      simp only [Option.map_map]
      rfl
  · rfl

end Decimal

/-! ## Literals -/

namespace Literal

variable {text : List Char}

/-- Bits of the width of a format are a verdict. -/
theorem verdict_of_bits {pattern : ℕ}
    (h : firstReading Form.all (.float f) text = some (.ok (.bits pattern)))
    (hlt : pattern < 2 ^ f.width) : verdict Form.all (.float f) text = .ok (.bits pattern) := by
  have hbits : (Value.bits pattern).toBits (.float f) = .ok pattern := if_pos hlt
  simp only [verdict, h, hbits]
  rfl

/-- What a text gives with a sign in front of it. -/
theorem firstReading_sign (hminus : text.head? ≠ some '-') (hraw : text.head? ≠ some '!')
    (negative : Bool) :
    firstReading Form.all (.float f) (Numeral.sign negative ++ text) =
      (((Numeral.afterHexMark? text).map fun body =>
        match (Hexfloat.parse f false body).map (f.sign negative + ·) with
        | .ok pattern => .ok (.bits pattern)
        | .error e => .error (Form.hexFloatFailure e)) <|>
      (Decimal.parse? text).map fun d =>
        match (d.withSign negative).pattern? f with
        | some pattern => .ok (.bits pattern)
        | none => .error .outOfRange) := by
  have hhead : (Numeral.sign negative ++ text).head? ≠ some '!' := by
    cases negative with
    | true => exact Option.some_injective _ |>.ne (by decide)
    | false => exact hraw
  rw [firstReading_float, readRawBits_eq_none hhead]
  simp only [Form.readHexFloat, Numeral.splitSign_append negative hminus, Form.readDecimalFloat,
    Decimal.parse?_sign negative hminus, Hexfloat.parse_sign negative, Option.map_map]
  rfl

/-- **The verdict on a text with a sign in front** is a magnitude under that sign, or a cause that
is the same for either sign. -/
theorem verdict_sign (f : FloatFormat) (hminus : text.head? ≠ some '-')
    (hraw : text.head? ≠ some '!') :
    (∃ m < f.signBit, ∀ negative, verdict Form.all (.float f) (Numeral.sign negative ++ text) =
      .ok (.bits (f.sign negative + m))) ∨
    ∃ cause, ∀ negative, verdict Form.all (.float f) (Numeral.sign negative ++ text) =
      .error cause := by
  have hfirst := @firstReading_sign f text hminus hraw
  cases hmark : Numeral.afterHexMark? text with
  | some body =>
    cases hparse : Hexfloat.parse f false body with
    | ok m =>
      have hlt := Hexfloat.parse_lt hparse
      refine .inl ⟨m, hlt, fun negative => ?_⟩
      refine verdict_of_bits ?_ (FloatFormat.sign_add_lt negative hlt)
      rw [hfirst, hmark, Option.map_some, hparse]
      rfl
    | error e =>
      refine .inr ⟨some (Form.hexFloatFailure e), fun negative => ?_⟩
      rw [verdict, hfirst, hmark, Option.map_some, hparse]
      rfl
  | none =>
    cases hd : Decimal.parse? text with
    | none =>
      refine .inr ⟨none, fun negative => ?_⟩
      rw [verdict, hfirst, hmark, hd]
      rfl
    | some d =>
      obtain ⟨m, hm⟩ := d.exists_pattern? f
      by_cases hlt : m < f.infinity
      · have hsign := hlt.trans f.infinity_lt_signBit
        refine .inl ⟨m, hsign, fun negative => ?_⟩
        refine verdict_of_bits ?_ (FloatFormat.sign_add_lt negative hsign)
        rw [hfirst, hmark, hd, Option.map_some, hm, if_pos hlt]
        rfl
      · refine .inr ⟨some .outOfRange, fun negative => ?_⟩
        rw [verdict, hfirst, hmark, hd, Option.map_some, hm, if_neg hlt]
        rfl

variable {reporter : Reporter} {token token' : Token} {cause : Option DiagnosticKind}

/-- **Reading a text with a sign in front**: the words of a magnitude under that sign, or a cause
that is the same for either sign. -/
theorem read_sign (f : FloatFormat) (reporter : Reporter) (hminus : text.head? ≠ some '-')
    (hraw : text.head? ≠ some '!') :
    (∃ m < f.signBit, ∀ negative token, token.item.toList = Numeral.sign negative ++ text →
      read (.float f) reporter token =
        .ok (Word.split (f.sign negative + m) (Word.count f.width))) ∨
    ∃ cause, ∀ negative token, token.item.toList = Numeral.sign negative ++ text →
      read (.float f) reporter token = .error (reporter.refusal token cause) := by
  rcases verdict_sign f hminus hraw with ⟨m, hm, hv⟩ | ⟨cause, hv⟩
  · refine .inl ⟨m, hm, fun negative token htoken => ?_⟩
    have hbits : (Value.bits (f.sign negative + m)).toBits (.float f) =
        .ok (f.sign negative + m) := if_pos (FloatFormat.sign_add_lt negative hm)
    refine read_ok_iff.mpr ⟨.bits (f.sign negative + m), ?_, Value.pack_of_toBits hbits⟩
    rw [htoken]
    exact hv negative
  · refine .inr ⟨cause, fun negative token htoken => readIn_eq_error.mpr ⟨cause, ?_, rfl⟩⟩
    rw [htoken]
    exact hv negative

/-- The kind that is reported is the cause, or what a required literal without a form is called. -/
theorem exists_kind_iff {kind : DiagnosticKind} :
    (∃ d, reporter.refusal token cause = .invalid d ∧ d.kind = kind) ↔
      cause = some kind ∨ cause = none ∧ reporter.mode = .hard ∧ kind = .unrecognized := by
  simp only [refusal_eq_invalid]
  constructor
  · rintro ⟨d, ⟨kind', rfl, h⟩, rfl⟩
    exact h
  · intro h
    exact ⟨_, ⟨kind, rfl, h⟩, rfl⟩

end Literal

end LiteralCodec
