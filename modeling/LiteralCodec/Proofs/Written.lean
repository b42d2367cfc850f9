import LiteralCodec.Literal.Writer
import LiteralCodec.Proofs.Decimal.Literal
import LiteralCodec.Proofs.Hexfloat.Render
import LiteralCodec.Proofs.Integer.Literal
import LiteralCodec.Proofs.Scientific.Layout
import LiteralCodec.Proofs.Scientific.Shortest
import LiteralCodec.Proofs.Token

/-!
# A literal that is written is read back

For every type and every pattern of its width, the canonical text is a word and reads as the words
of the pattern: an integer as a decimal integer, a finite number as a decimal that is rounded to it,
an infinity or a NaN as a hex float.

Results:
* `read_patternText`: the text of a pattern is read as the pattern.
* `plain_patternText`: the text of a pattern is a word.
* `write_eq_ok`: which words have a text.
* `writeValue_pack`: a value is written as its words are.
-/

namespace LiteralCodec.Literal

open Token (Plain)

/-! ## Characters -/

theorem plainChar_of_isHexDigit {c : Char} (h : c.isHexDigit = true) : Token.PlainChar c := by
  have hne : c ≠ ';' := by
    rintro rfl
    cases h
  simp only [Char.isHexDigit, Char.isDigit, Bool.or_eq_true, Bool.and_eq_true, decide_eq_true_eq,
    ge_iff_le, UInt32.le_iff_toNat_le, Char.reduceVal, UInt32.reduceToNat] at h
  have hc : c.val.toNat = c.toNat := rfl
  have hlo : '+'.toNat = 43 := rfl
  have hhi : 'z'.toNat = 122 := rfl
  exact ⟨by omega, by omega, hne⟩

theorem plainChar_of_isDigit {c : Char} (h : c.isDigit = true) : Token.PlainChar c :=
  plainChar_of_isHexDigit (by rw [Char.isHexDigit, h]; rfl)

theorem plainChar_of_mem_sign {negative : Bool} {c : Char} (h : c ∈ Numeral.sign negative) :
    Token.PlainChar c := by
  unfold Numeral.sign at h
  split_ifs at h <;> simp at h
  rw [h]
  decide

theorem plain_of_decimalText (t : DecimalText) : Plain t.text := by
  obtain ⟨c, hc, -⟩ := t.head?_text
  have hne : t.text ≠ [] := by
    intro h
    rw [h] at hc
    cases hc
  refine ⟨hne, fun d hd => ?_⟩
  rcases List.mem_append.mp hd with hd | hd
  · exact plainChar_of_mem_sign hd
  · rcases t.mem_unsigned hd with rfl | rfl | rfl | rfl | rfl | hd
    · decide
    · decide
    · decide
    · decide
    · decide
    · exact plainChar_of_isDigit hd

theorem plain_of_decimalInteger (t : IntegerText) {negative : Bool}
    (h : t.lead = .decimal negative) :
    Plain t.text := by
  obtain ⟨lead, digits, hd⟩ := t
  obtain rfl : lead = .decimal negative := h
  obtain ⟨hne, hdigit⟩ := Numeral.isDecimal_iff.mp hd
  refine ⟨List.append_ne_nil_of_right_ne_nil _ hne, fun c hc => ?_⟩
  rcases List.mem_append.mp hc with hc | hc
  · exact plainChar_of_mem_sign hc
  · exact plainChar_of_isDigit (hdigit c hc)

theorem plain_of_hexfloatText (negative : Bool) (t : HexfloatText) :
    Plain (Numeral.sign negative ++ '0' :: 'x' :: t.text) := by
  refine ⟨by simp, fun c hc => ?_⟩
  rcases List.mem_append.mp hc with hc | hc
  · exact plainChar_of_mem_sign hc
  · simp only [HexfloatText.text, HexfloatText.afterOne, List.mem_cons, List.mem_append] at hc
    rcases hc with rfl | rfl | rfl | hc | hc
    · decide
    · decide
    · decide
    · have hd := t.isHexDigit_digits c
      unfold HexfloatText.digits at hd
      cases hs : t.fraction? with
      | none => simp [hs] at hc
      | some s =>
        simp only [hs, Option.map_some, Option.getD_some, List.mem_cons] at hc hd
        rcases hc with rfl | hc
        · decide
        · exact plainChar_of_isHexDigit (hd hc)
    · have hm := t.exponent.isMark_mark
      simp only [Hexfloat.isExponentMark, Bool.or_eq_true, beq_iff_eq] at hm
      rcases t.exponent.mem_text hc with rfl | rfl | rfl | hc
      · rcases hm with hm | hm <;> rw [hm] <;> decide
      · decide
      · decide
      · exact plainChar_of_isDigit hc

/-! ## Integers -/

/-- The decimal literal of an integer. -/
def integerText (i : ℤ) : IntegerText :=
  ⟨.decimal (i < 0), Numeral.ofNat i.natAbs, Numeral.isDecimal_ofNat _⟩

theorem number_integerText (i : ℤ) : (integerText i).number = i := by
  have hs : (integerText i).size = i.natAbs := Numeral.value_ofNat _
  unfold IntegerText.number
  rw [hs]
  simp only [integerText, IntegerLead.negative, decide_eq_true_eq]
  split_ifs <;> omega

theorem meant_integerText (i : ℤ) (isSigned : Bool) (width : ℕ) :
    (integerText i).meant isSigned width = i := by
  rw [IntegerText.meant_of_number rfl, number_integerText]

variable {isSigned : Bool} {width : ℕ} {pos : 0 < width} {le : width ≤ Bits.maxWidth} {pattern : ℕ}

theorem fits_integerText (pos : 0 < width) (h : pattern < 2 ^ width) :
    (integerText (if isSigned then Bits.toInt width pattern else pattern)).Fits isSigned width := by
  rw [IntegerText.fits_of_number rfl, number_integerText]
  exact Value.range_of_pattern pos h

theorem patternText_int :
    patternText (.int isSigned width pos le) pattern =
      (integerText (if isSigned then Bits.toInt width pattern else pattern)).text := by
  cases isSigned with
  | true => rfl
  | false =>
    have hs : decide ((pattern : ℤ) < 0) = false := by simp
    simp only [patternText, integerText, IntegerText.text, IntegerLead.text, Bool.false_eq_true,
      if_false, hs, Numeral.sign, Int.natAbs_natCast, List.nil_append]

/-! ## Floating point numbers -/

variable {f : FloatFormat}

/-- **The decimal of a finite number is rounded to it**, and it has the sign of the number. -/
theorem exists_decimalText (h : pattern < 2 ^ f.width) (hm : f.magnitude pattern < f.infinity) :
    ∃ t : DecimalText, t.text = (Scientific.ofPattern f pattern).layout ∧
      t.decimal.pattern? f = some pattern := by
  have hr := FloatFormat.shortest_rounds hm
  have hcount := (FloatFormat.isModerate_shortest hm).digitCount_le
  have hx : Scientific.ofPattern f pattern = .ofCoefficient (f.fields pattern).negative
      (f.shortest (f.magnitude pattern)).1 (f.shortest (f.magnitude pattern)).2 := rfl
  rw [hx]
  generalize (f.shortest (f.magnitude pattern)).1 = coefficient at hr hcount
  generalize (f.shortest (f.magnitude pattern)).2 = scale at hr
  have hd := Scientific.isDigit_ofCoefficient (f.fields pattern).negative coefficient scale
  have hlen := Scientific.length_ofCoefficient (f.fields pattern).negative coefficient scale
  obtain ⟨t, htext, hneg, hmag, hdigits⟩ := Scientific.exists_text hd
  refine ⟨t, htext, ?_⟩
  obtain ⟨m, hrounds, hp⟩ := Decimal.pattern?_rounds t.isDigit_digits (by omega) f
  rw [hmag, Scientific.magnitude_ofCoefficient] at hrounds
  obtain rfl := hrounds.unique hr
  have hsign : t.decimal.negative = (f.fields pattern).negative := hneg
  rw [hp, if_pos hm, hsign, FloatFormat.sign_add_magnitude h]

/-- What stands behind a hex mark is read as a hex float, and as nothing else. -/
theorem firstReading_hexMark (negative : Bool) (body : List Char) :
    firstReading Form.all (.float f) (Numeral.sign negative ++ '0' :: 'x' :: body) =
      some (match Hexfloat.parse f negative body with
        | .ok pattern => .ok (.bits pattern)
        | .error e => .error (Form.hexFloatFailure e)) := by
  have hraw : Form.readRawBits (Numeral.sign negative ++ '0' :: 'x' :: body) = none := by
    refine readRawBits_eq_none ?_
    cases negative <;> simp [Numeral.sign]
  have hsplit : Numeral.splitSign (Numeral.sign negative ++ '0' :: 'x' :: body) =
      (negative, '0' :: 'x' :: body) := Numeral.splitSign_append negative (by simp)
  have hmark : Numeral.afterHexMark? ('0' :: 'x' :: body) = some body := rfl
  rw [firstReading_float, hraw]
  simp only [Form.readHexFloat, hsplit, hmark, Option.map_some]
  rfl

/-- The hex float of an infinity or a NaN is read before any decimal. -/
theorem firstReading_hexfloat {negative : Bool} {body : List Char}
    (h : Hexfloat.parse f negative body = .ok pattern) :
    firstReading Form.all (.float f) (Numeral.sign negative ++ '0' :: 'x' :: body) =
      some (.ok (.bits pattern)) := by
  rw [firstReading_hexMark, h]

/-- The text of a floating point number gives its pattern. -/
theorem firstReading_floatText (h : pattern < 2 ^ f.width) :
    firstReading Form.all (.float f) (floatText f pattern) = some (.ok (.bits pattern)) ∧
      Plain (floatText f pattern) := by
  by_cases hm : f.magnitude pattern < f.infinity
  · obtain ⟨t, htext, hp⟩ := exists_decimalText h hm
    have hfin : f.isFinite (f.magnitude pattern) = true := decide_eq_true hm
    rw [floatText, if_pos hfin, ← htext]
    refine ⟨?_, plain_of_decimalText t⟩
    rw [firstReading_decimal, hp, Option.elim_some]
  · have hne : f.magnitude pattern ≠ 0 := (f.infinity_pos.trans_le (not_lt.mp hm)).ne'
    obtain ⟨t, htext, hp⟩ := Hexfloat.exists_render h hne
    have hfin : ¬f.isFinite (f.magnitude pattern) = true := fun hf => hm (of_decide_eq_true hf)
    rw [floatText, if_neg hfin, htext, Option.getD_some]
    exact ⟨firstReading_hexfloat hp, plain_of_hexfloatText _ t⟩

/-! ## All types -/

variable {ty : NumericType}

/-- **The text of a pattern is read as the pattern.** -/
theorem read_patternText (h : pattern < 2 ^ ty.width) (reporter : Reporter)
    (loc : Option Location) :
    read ty reporter ⟨loc, String.ofList (patternText ty pattern)⟩ =
      .ok (Word.split (Value.extend ty pattern) ty.wordCount) := by
  cases ty with
  | int isSigned width pos le =>
    rw [patternText_int, read_integer_text, if_pos (fits_integerText pos h), meant_integerText,
      Value.split_extend_int]
  | float f => exact read_of_pattern (firstReading_floatText h).1 h reporter loc

/-- The text of a pattern is a word. -/
theorem plain_patternText (h : pattern < 2 ^ ty.width) : Plain (patternText ty pattern) := by
  cases ty with
  | int isSigned width pos le =>
    rw [patternText_int]
    exact plain_of_decimalInteger _ rfl
  | float f => exact (firstReading_floatText h).2

/-- **Words that have a text** are the words of a pattern. -/
theorem write_eq_ok {words : List Word} {text : String} :
    write ty words = .ok text ↔ ∃ pattern < 2 ^ ty.width,
      words = Word.split (Value.extend ty pattern) ty.wordCount ∧
        text = String.ofList (patternText ty pattern) := by
  constructor
  · intro h
    cases hu : Value.unpack words ty with
    | error e => simp [write, hu, bind, Except.bind] at h
    | ok value =>
      obtain ⟨pattern, hlt, rfl, hw⟩ := Value.unpack_eq_ok.mp hu
      rw [write_eq hu, writeValue, Value.toBits_ofBits hlt] at h
      exact ⟨pattern, hlt, hw, (Except.ok.inj h).symm⟩
  · rintro ⟨pattern, hlt, hw, rfl⟩
    have hu : Value.unpack words ty = .ok (Value.ofBits ty pattern) :=
      Value.unpack_eq_ok.mpr ⟨pattern, hlt, rfl, hw⟩
    rw [write_eq hu, writeValue, Value.toBits_ofBits hlt]
    rfl

/-! ## Values -/

variable {value value' : Value}

/-- A value has a text if it is packed. -/
theorem writeValue_eq_error {e : PackError} :
    writeValue ty value = .error e ↔ value.pack ty = .error e := by
  rw [Value.pack_eq_error, writeValue, bind_eq_error]
  simp [pure, Except.pure]

/-- **What is packed is written as its words are**, and read as them. -/
theorem exists_text_of_pack {words : List Word} (h : value.pack ty = .ok words) :
    ∃ text, writeValue ty value = .ok text ∧ write ty words = .ok text ∧
      ∀ reporter loc, read ty reporter ⟨loc, text⟩ = .ok words := by
  obtain ⟨pattern, hbits, rfl⟩ := Value.pack_eq_ok.mp h
  have hlt := Value.toBits_lt hbits
  refine ⟨String.ofList (patternText ty pattern), ?_, write_eq_ok.mpr ⟨pattern, hlt, rfl, rfl⟩,
    fun reporter loc => read_patternText hlt reporter loc⟩
  rw [writeValue, hbits]
  rfl

/-- Two values come to one text if they come to the same words. -/
theorem writeValue_eq_iff :
    writeValue ty value = writeValue ty value' ↔ value.pack ty = value'.pack ty := by
  cases hpack : value.pack ty with
  | error e => rw [writeValue_eq_error.mpr hpack, eq_comm, writeValue_eq_error, eq_comm]
  | ok words =>
    obtain ⟨text, htext, hwrite, hread⟩ := exists_text_of_pack hpack
    cases hpack' : value'.pack ty with
    | error e => simp [htext, writeValue_eq_error.mpr hpack']
    | ok words' =>
      obtain ⟨text', htext', hwrite', hread'⟩ := exists_text_of_pack hpack'
      rw [htext, htext', Except.ok.injEq, Except.ok.injEq]
      constructor
      · rintro rfl
        -- one text is read as the words of either value
        exact Except.ok.inj ((hread ⟨"", .soft⟩ none).symm.trans (hread' _ _))
      · rintro rfl
        exact Except.ok.inj (hwrite.symm.trans hwrite')

/-- **A value is written as its words are.** It has no text just if it is not packed, and for the
same reason. What is packed has the text of its words, and that text is read as these words. So two
values, whichever way each holds its number, come to the same text just if they come to the same
words. -/
theorem writeValue_pack (ty : NumericType) :
    (∀ value e, writeValue ty value = .error e ↔ value.pack ty = .error e) ∧
    (∀ (value : Value) words, value.pack ty = .ok words →
      ∃ text, writeValue ty value = .ok text ∧ write ty words = .ok text ∧
        ∀ reporter loc, read ty reporter ⟨loc, text⟩ = .ok words) ∧
    ∀ value value', writeValue ty value = writeValue ty value' ↔ value.pack ty = value'.pack ty :=
  ⟨fun _ _ => writeValue_eq_error, fun _ _ => exists_text_of_pack, fun _ _ => writeValue_eq_iff⟩

/-- The least integer of sixteen bits, as a number and as its pattern. -/
theorem writeValue_pack_least :
    writeValue (.int true 16 (by decide) (by decide)) (.signed (-32768)) =
        writeValue (.int true 16 (by decide) (by decide)) (.bits 0x8000) ∧
      ∃ text, writeValue (.int true 16 (by decide) (by decide)) (.bits 0x8000) = .ok text ∧
        write (.int true 16 (by decide) (by decide)) [0xFFFF8000] = .ok text := by
  obtain ⟨-, hpacked, halike⟩ := writeValue_pack (.int true 16 (by decide) (by decide))
  obtain ⟨text, hvalue, hwords, -⟩ := hpacked (.bits 0x8000) [0xFFFF8000] (by decide +kernel)
  exact ⟨(halike _ _).mpr (by decide +kernel), text, hvalue, hwords⟩

end LiteralCodec.Literal
