import LiteralCodec.Proofs.Integer.Text
import LiteralCodec.Proofs.Reading

/-!
# Integer literals

Every integer literal is read in one of three forms, and gives bits or a number. A number past 128
bits is refused by the form already, and then it is out of range in every type, so the type alone
decides. A text that is no integer literal has none of the forms, except for an exclamation mark
with something else behind it.

Results:
* `firstReading_integer`: what an integer literal gives.
* `read_integer_text`: an integer literal is read if its type takes it.
* `read_other`: any other text.
* `read_eq_ok`, `read_eq_outOfRange`, `read_eq_malformed`, `read_eq_noMatch`: the four outcomes.
* `read_integer`: which texts are read for an integer type, and as what.
-/

namespace LiteralCodec

open Numeral (splitSign afterHexMark?)

/-! ## Taking an integer literal apart -/

namespace IntegerText

theorem afterHexMark?_hexMark (upper : Bool) (s : List Char) :
    afterHexMark? (IntegerLead.hexMark upper ++ s) = some s := by
  cases upper <;> rfl

theorem splitSign_hexMark (negative upper : Bool) (s : List Char) :
    splitSign (Numeral.sign negative ++ (IntegerLead.hexMark upper ++ s)) =
      (negative, IntegerLead.hexMark upper ++ s) := by
  cases negative <;> cases upper <;> rfl

theorem splitSign_decimal (negative : Bool) {s : List Char} (h : Numeral.isDecimal s = true) :
    splitSign (Numeral.sign negative ++ s) = (negative, s) :=
  Numeral.splitSign_append negative (Numeral.head?_ne_of_isDecimal h rfl)

theorem afterHexMark?_decimal {s : List Char} (h : Numeral.isDecimal s = true) :
    afterHexMark? s = none := by
  cases he : afterHexMark? s with
  | none => rfl
  | some r =>
    obtain ⟨c, hc, rfl⟩ := Numeral.afterHexMark?_eq_some.mp he
    have := (Numeral.isDecimal_iff.mp h).2 c (by simp)
    rcases hc with rfl | rfl <;> cases this

/-- What an integer literal gives: bits, or a number with its sign. -/
def reading (t : IntegerText) : Literal.Reading := do
  let number ← Literal.Form.magnitude t.lead.base t.digits
  if t.lead.isPattern then return .bits number
  else if t.lead.negative then Literal.Form.negated number
  else return .unsigned number

end IntegerText

namespace Literal

section Integer

variable {isSigned : Bool} {width : ℕ} {pos : 0 < width} {le : width ≤ Bits.maxWidth}

/-- **What an integer literal gives.** -/
theorem firstReading_integer (t : IntegerText) :
    firstReading Form.all (.int isSigned width pos le) t.text = some t.reading := by
  obtain ⟨lead, digits, hd⟩ := t
  rw [firstReading_int]
  unfold IntegerText.text IntegerText.reading
  cases lead with
  | raw upper =>
    have hraw : Form.readRawBits ('!' :: (IntegerLead.hexMark upper ++ digits)) =
        some ((Form.magnitude 16 digits).map .bits) := by
      have hd' : Numeral.isHex digits = true := hd
      simp only [Form.readRawBits, IntegerText.afterHexMark?_hexMark, hd', if_true]
    simp only [IntegerLead.text, IntegerLead.base, List.cons_append, hraw]
    cases Form.magnitude 16 digits <;> rfl
  | hex negative upper =>
    have hraw : Form.readRawBits
        (Numeral.sign negative ++ (IntegerLead.hexMark upper ++ digits)) = none := by
      refine readRawBits_eq_none ?_
      cases negative <;> cases upper <;> simp [Numeral.sign, IntegerLead.hexMark]
    have hhex :
        Form.readHexInteger (Numeral.sign negative ++ (IntegerLead.hexMark upper ++ digits)) =
        some (do
          let number ← Form.magnitude 16 digits
          if negative then Form.negated number else return .bits number) := by
      have hd' : Numeral.isHex digits = true := hd
      simp only [Form.readHexInteger, IntegerText.splitSign_hexMark,
        IntegerText.afterHexMark?_hexMark, hd', if_true]
    simp only [IntegerLead.text, IntegerLead.base, List.append_assoc, hraw, hhex]
    cases negative <;> cases Form.magnitude 16 digits <;> rfl
  | decimal negative =>
    have hd' : Numeral.isDecimal digits = true := hd
    have hraw : Form.readRawBits (Numeral.sign negative ++ digits) = none := by
      refine readRawBits_eq_none ?_
      cases negative with
      | true => simp [Numeral.sign]
      | false => exact Numeral.head?_ne_of_isDecimal hd' rfl
    have hhex : Form.readHexInteger (Numeral.sign negative ++ digits) = none := by
      simp only [Form.readHexInteger, IntegerText.splitSign_decimal negative hd',
        IntegerText.afterHexMark?_decimal hd']
    have hdec : Form.readDecimalInteger (Numeral.sign negative ++ digits) =
        some (do
          let number ← Form.magnitude 10 digits
          if negative then Form.negated number else return .unsigned number) := by
      simp only [Form.readDecimalInteger, IntegerText.splitSign_decimal negative hd', hd', if_true]
    simp only [IntegerLead.text, IntegerLead.base, hraw, hhex, hdec]
    cases negative <;> cases Form.magnitude 10 digits <;> rfl

/-! ## What a type takes -/

variable {reporter : Reporter} (token : Token)

/-- A number is read if it lies in the range of the type. -/
theorem read_of_number {value : Value} {x : ℤ}
    (h : firstReading Form.all (.int isSigned width pos le) token.item.toList = some (.ok value))
    (hv : (∃ n : ℕ, value = .unsigned n ∧ x = n) ∨ value = .signed x) :
    read (.int isSigned width pos le) reporter token =
      if NumericType.least isSigned width ≤ x ∧ x ≤ NumericType.greatest isSigned width then
        .ok (Word.ofInt (Word.count width) x)
      else .error (reporter.invalid .outOfRange token) := by
  have hb : value.toBits (.int isSigned width pos le) =
      (Value.integerBits? isSigned width x).elim
        (.error (.outOfRange value (.int isSigned width pos le))) .ok := by
    rcases hv with ⟨n, rfl, rfl⟩ | rfl <;> rfl
  rw [read_of_ok token h, hb, Value.integerBits?_eq]
  by_cases hr : NumericType.least isSigned width ≤ x ∧ x ≤ NumericType.greatest isSigned width
  · rw [if_pos hr, if_pos hr]
    simp only [Option.elim]
    rw [Value.split_extend_int]
    obtain ⟨hlo, hhi⟩ := hr
    cases isSigned with
    | true =>
      simp only [NumericType.least, NumericType.greatest, if_true] at hlo hhi ⊢
      rw [Bits.toInt_ofInt pos hlo (by omega)]
    | false =>
      simp only [NumericType.least, NumericType.greatest, Bool.false_eq_true, if_false] at hlo hhi ⊢
      obtain ⟨n, rfl⟩ := Int.eq_ofNat_of_zero_le hlo
      have hn : n < 2 ^ width := by
        have : (n : ℤ) < 2 ^ width := by omega
        exact_mod_cast this
      rw [Bits.ofInt_natCast hn]
  · rw [if_neg hr, if_neg hr]
    rfl

/-- Bits are read if the type has that many. -/
theorem read_of_bits {n : ℕ}
    (h : firstReading Form.all (.int isSigned width pos le) token.item.toList =
      some (.ok (.bits n))) :
    read (.int isSigned width pos le) reporter token =
      if n < 2 ^ width then
        .ok (Word.ofInt (Word.count width)
          (if isSigned ∧ 2 ^ (width - 1) ≤ n then n - 2 ^ width else n))
      else .error (reporter.invalid .outOfRange token) := by
  have hb : (Value.bits n).toBits (.int isSigned width pos le) =
      if n < 2 ^ width then .ok n
      else .error (.outOfRange (.bits n) (.int isSigned width pos le)) := rfl
  rw [read_of_ok token h, hb]
  by_cases hn : n < 2 ^ width
  · rw [if_pos hn, if_pos hn]
    simp only
    rw [Value.split_extend_int, Bits.toInt_eq pos hn]
    by_cases hlt : n < 2 ^ (width - 1)
    · simp [hlt, not_le.mpr hlt]
    · cases isSigned <;> simp [hlt, not_lt.mp hlt]
  · rw [if_neg hn, if_neg hn]
    rfl

/-- **An integer literal is read if its type takes it.** -/
theorem read_integer_text {loc : Option Location} (t : IntegerText) :
    read (.int isSigned width pos le) reporter ⟨loc, String.ofList t.text⟩ =
      if t.Fits isSigned width then
        .ok (Word.ofInt (Word.count width) (t.meant isSigned width))
      else .error (reporter.invalid .outOfRange ⟨loc, String.ofList t.text⟩) := by
  have hfirst : firstReading Form.all (.int isSigned width pos le) t.text = some t.reading :=
    firstReading_integer t
  rw [← String.toList_ofList (l := t.text)] at hfirst
  have hm : Form.magnitude t.lead.base t.digits =
      if t.size < 2 ^ Bits.maxWidth then .ok t.size else .error .outOfRange := rfl
  unfold IntegerText.reading at hfirst
  rw [hm] at hfirst
  by_cases hsize : t.size < 2 ^ Bits.maxWidth
  · rw [if_pos hsize] at hfirst
    cases hpat : t.lead.isPattern with
    | true =>
      rw [hpat] at hfirst
      rw [if_congr (IntegerText.fits_of_isPattern hpat isSigned width) rfl rfl,
        IntegerText.meant_of_isPattern hpat]
      exact read_of_bits ⟨loc, String.ofList t.text⟩ hfirst
    | false =>
      have hrange := IntegerText.fits_of_number hpat isSigned width
      rw [hpat] at hfirst
      rw [IntegerText.meant_of_number hpat, if_congr hrange rfl rfl]
      cases hneg : t.lead.negative with
      | true =>
        rw [hneg] at hfirst
        by_cases hmin : t.size ≤ 2 ^ (Bits.maxWidth - 1)
        · have hnegated : Form.negated t.size = .ok (.signed t.number) := by
            rw [IntegerText.number, hneg, if_pos rfl]
            exact if_pos hmin
          exact read_of_number ⟨loc, String.ofList t.text⟩
            (hfirst.trans (congrArg some hnegated)) (Or.inr rfl)
        · rw [← if_congr hrange rfl rfl, if_neg fun hf => hmin ((hf.size_lt pos le).2 hneg)]
          refine read_of_error ⟨loc, String.ofList t.text⟩ ?_
          rw [hfirst]
          exact congrArg some (if_neg hmin)
      | false =>
        rw [hneg] at hfirst
        exact read_of_number ⟨loc, String.ofList t.text⟩ hfirst
          (Or.inl ⟨t.size, rfl, by simp [IntegerText.number, hneg]⟩)
  · rw [if_neg hsize] at hfirst
    rw [if_neg fun hf => hsize (hf.size_lt pos le).1]
    exact read_of_error ⟨loc, String.ofList t.text⟩ hfirst

/-! ## What is no integer literal -/

theorem exists_hexMark {s digits : List Char} (h : afterHexMark? s = some digits) :
    ∃ upper, s = IntegerLead.hexMark upper ++ digits := by
  obtain ⟨c, rfl | rfl, rfl⟩ := Numeral.afterHexMark?_eq_some.mp h
  · exact ⟨false, rfl⟩
  · exact ⟨true, rfl⟩

variable {text : List Char}

theorem readHexInteger_eq_none (h : ¬∃ t : IntegerText, t.text = text) :
    Form.readHexInteger text = none := by
  unfold Form.readHexInteger
  simp only
  split
  · next digits hd =>
    split_ifs with hhex
    · obtain ⟨upper, hu⟩ := exists_hexMark hd
      refine absurd ⟨⟨.hex (splitSign text).1 upper, digits, hhex⟩, ?_⟩ h
      rw [IntegerText.text, IntegerLead.text, List.append_assoc, ← hu]
      exact (Numeral.splitSign_eq text).symm
    · rfl
  · rfl

theorem readDecimalInteger_eq_none (h : ¬∃ t : IntegerText, t.text = text) :
    Form.readDecimalInteger text = none := by
  unfold Form.readDecimalInteger
  simp only
  split_ifs with hdec
  · refine absurd ⟨⟨.decimal (splitSign text).1, (splitSign text).2, hdec⟩, ?_⟩ h
    exact (Numeral.splitSign_eq text).symm
  · rfl

theorem readRawBits_eq_malformed {body : List Char}
    (h : ¬∃ t : IntegerText, t.text = '!' :: body) :
    Form.readRawBits ('!' :: body) = some (.error .malformedLiteral) := by
  unfold Form.readRawBits
  simp only
  split
  · next digits hd =>
    split_ifs with hhex
    · obtain ⟨upper, hu⟩ := exists_hexMark hd
      refine absurd ⟨⟨.raw upper, digits, hhex⟩, ?_⟩ h
      rw [hu]
      rfl
    · rfl
  · rfl

/-- **Any other text** is malformed behind an exclamation mark, and no literal at all otherwise. -/
theorem read_other (h : ¬∃ t : IntegerText, t.text = token.item.toList) :
    read (.int isSigned width pos le) reporter token =
      .error (if token.item.toList.head? = some '!' then reporter.invalid .malformedLiteral token
        else reporter.mismatch token) := by
  by_cases hb : token.item.toList.head? = some '!'
  · obtain ⟨body, hbody⟩ : ∃ body, token.item.toList = '!' :: body := by
      cases ht : token.item.toList with
      | nil => rw [ht] at hb; cases hb
      | cons c body =>
        rw [ht, List.head?_cons, Option.some.injEq] at hb
        exact ⟨body, by rw [hb]⟩
    rw [if_pos hb]
    refine read_of_error token ?_
    rw [hbody] at h ⊢
    rw [firstReading_int, readRawBits_eq_malformed h]
    rfl
  · rw [if_neg hb]
    refine read_of_none token ?_
    rw [firstReading_int, readRawBits_eq_none hb, readHexInteger_eq_none h,
      readDecimalInteger_eq_none h]
    rfl

/-! ## Every text -/

/-- A token with the text of an integer literal. -/
theorem read_of_text {t : IntegerText} (ht : t.text = token.item.toList) :
    read (.int isSigned width pos le) reporter token =
      if t.Fits isSigned width then .ok (Word.ofInt (Word.count width) (t.meant isSigned width))
      else .error (reporter.invalid .outOfRange token) := by
  have h : read (.int isSigned width pos le) reporter ⟨token.loc, String.ofList t.text⟩ = _ :=
    read_integer_text t
  rwa [ht, String.ofList_toList] at h

/-- A text is an integer literal that its type takes, one that it does not take, or none. -/
theorem read_cases :
    (∃ t : IntegerText, t.text = token.item.toList ∧ t.Fits isSigned width ∧
      read (.int isSigned width pos le) reporter token =
        .ok (Word.ofInt (Word.count width) (t.meant isSigned width))) ∨
    (∃ t : IntegerText, t.text = token.item.toList ∧ ¬t.Fits isSigned width ∧
      read (.int isSigned width pos le) reporter token =
        .error (reporter.invalid .outOfRange token)) ∨
    ((¬∃ t : IntegerText, t.text = token.item.toList) ∧
      read (.int isSigned width pos le) reporter token =
        .error (if token.item.toList.head? = some '!' then reporter.invalid .malformedLiteral token
          else reporter.mismatch token)) := by
  by_cases hex : ∃ t : IntegerText, t.text = token.item.toList
  · obtain ⟨t, ht⟩ := hex
    by_cases hf : t.Fits isSigned width
    · exact Or.inl ⟨t, ht, hf, by rw [read_of_text token ht, if_pos hf]⟩
    · exact Or.inr (Or.inl ⟨t, ht, hf, by rw [read_of_text token ht, if_neg hf]⟩)
  · exact Or.inr (Or.inr ⟨hex, read_other token hex⟩)

theorem read_eq_ok {ws : List Word} :
    read (.int isSigned width pos le) reporter token = .ok ws ↔
      ∃ t : IntegerText, t.text = token.item.toList ∧ t.Fits isSigned width ∧
        ws = Word.ofInt (Word.count width) (t.meant isSigned width) := by
  constructor
  · intro h
    rcases read_cases token with ⟨t, ht, hf, he⟩ | ⟨_, _, _, he⟩ | ⟨_, he⟩ <;> rw [he] at h
    · exact ⟨t, ht, hf, (Except.ok.inj h).symm⟩
    · cases h
    · cases h
  · rintro ⟨t, ht, hf, rfl⟩
    rw [read_of_text token ht, if_pos hf]

variable {lead : String}

theorem read_eq_outOfRange :
    read (.int isSigned width pos le) ⟨lead, .soft⟩ token =
        .error (Reporter.invalid ⟨lead, .soft⟩ .outOfRange token) ↔
      ∃ t : IntegerText, t.text = token.item.toList ∧ ¬t.Fits isSigned width := by
  constructor
  · intro h
    rcases read_cases token with ⟨_, _, _, he⟩ | ⟨t, ht, hf, _⟩ | ⟨_, he⟩
    · rw [he] at h
      cases h
    · exact ⟨t, ht, hf⟩
    · rw [he, Except.error.injEq] at h
      split_ifs at h
      · cases Reporter.invalid_injective h
      · cases h
  · rintro ⟨t, ht, hf⟩
    rw [read_of_text token ht, if_neg hf]

theorem read_eq_malformed :
    read (.int isSigned width pos le) ⟨lead, .soft⟩ token =
        .error (Reporter.invalid ⟨lead, .soft⟩ .malformedLiteral token) ↔
      token.item.toList.head? = some '!' ∧ ¬∃ t : IntegerText, t.text = token.item.toList := by
  constructor
  · intro h
    rcases read_cases token with ⟨_, _, _, he⟩ | ⟨_, _, _, he⟩ | ⟨hex, he⟩ <;> rw [he] at h
    · cases h
    · cases Reporter.invalid_injective (Except.error.inj h)
    · rw [Except.error.injEq] at h
      split_ifs at h with hb
      · exact ⟨hb, hex⟩
      · cases h
  · rintro ⟨hb, hex⟩
    rw [read_other token hex, if_pos hb]

theorem read_eq_noMatch :
    read (.int isSigned width pos le) ⟨lead, .soft⟩ token = .error .noMatch ↔
      token.item.toList.head? ≠ some '!' ∧ ¬∃ t : IntegerText, t.text = token.item.toList := by
  constructor
  · intro h
    rcases read_cases token with ⟨_, _, _, he⟩ | ⟨_, _, _, he⟩ | ⟨hex, he⟩ <;> rw [he] at h
    · cases h
    · cases h
    · rw [Except.error.injEq] at h
      split_ifs at h with hb
      · cases h
      · exact ⟨hb, hex⟩
  · rintro ⟨hb, hex⟩
    rw [read_other token hex, if_neg hb]
    rfl

end Integer

/-- **Which texts are read for an integer type.** Words come of the integer literals that the type
takes, and they hold the integer that is meant. All other integer literals are out of range,
whatever their length, and a text that is none is malformed behind an exclamation mark and nothing
otherwise. Zeroes in front of the digits change nothing, and zero is zero under either sign. -/
theorem read_integer (isSigned : Bool) (width : ℕ) (pos : 0 < width) (le : width ≤ Bits.maxWidth)
    (lead : String) (token : Token) :
    let result := read (.int isSigned width pos le) ⟨lead, .soft⟩ token
    let failure := fun kind => Except.error (Reporter.invalid ⟨lead, .soft⟩ kind token)
    (∀ ws, result = .ok ws ↔ ∃ t : IntegerText, t.text = token.item.toList ∧
      t.Fits isSigned width ∧ ws = Word.ofInt (Word.count width) (t.meant isSigned width)) ∧
    (result = failure .outOfRange ↔
      ∃ t : IntegerText, t.text = token.item.toList ∧ ¬t.Fits isSigned width) ∧
    (result = failure .malformedLiteral ↔
      token.item.toList.head? = some '!' ∧ ¬∃ t : IntegerText, t.text = token.item.toList) ∧
    (result = .error .noMatch ↔
      token.item.toList.head? ≠ some '!' ∧ ¬∃ t : IntegerText, t.text = token.item.toList) ∧
    (∀ t : IntegerText, t.text = token.item.toList → ∀ k ws,
      read (.int isSigned width pos le) ⟨lead, .soft⟩ ⟨token.loc, String.ofList (t.padded k).text⟩ =
        .ok ws ↔ result = .ok ws) ∧
    (∀ t : IntegerText, t.text = token.item.toList → (∀ c ∈ t.digits, c = '0') →
      result = .ok (List.replicate (Word.count width) 0)) := by
  intro result failure
  refine ⟨fun ws => read_eq_ok token, read_eq_outOfRange token, read_eq_malformed token,
    read_eq_noMatch token, fun t ht k ws => ?_, fun t ht h0 => ?_⟩
  · have hpadded : read (.int isSigned width pos le) ⟨lead, .soft⟩
        ⟨token.loc, String.ofList (t.padded k).text⟩ = _ := read_integer_text (t.padded k)
    have hread : result = _ := read_of_text token ht
    rw [hpadded, hread, if_congr (t.fits_padded k isSigned width) rfl rfl, t.meant_padded]
    split_ifs
    · rfl
    · simp
  · have hs := t.size_eq_zero h0
    have hread : result = _ := read_of_text token ht
    rw [hread, if_pos (t.fits_of_size_eq_zero hs isSigned width), t.meant_of_size_eq_zero hs,
      Word.ofInt_zero]

/-- The least integer of eight bits, its sign carried to the end of the word. -/
theorem read_integer_least :
    read (.int true 8 (by decide) (by decide)) ⟨"", .soft⟩ ⟨none, "-0x80"⟩ = .ok [0xFFFFFF80] := by
  obtain ⟨h, -⟩ := read_integer true 8 (by decide) (by decide) "" ⟨none, "-0x80"⟩
  exact (h _).mpr ⟨⟨.hex true false, ['8', '0'], by decide⟩, by decide, by decide, by decide⟩

end Literal

end LiteralCodec
