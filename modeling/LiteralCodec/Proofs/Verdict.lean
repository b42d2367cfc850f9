import LiteralCodec.Proofs.Parts
import LiteralCodec.Proofs.Reading

/-!
# What a text comes to as a literal

Reading a token is a **verdict** on its text, and a report of it. The verdict depends on the text
and the type alone: a value that fits the type, or why there is none. The report adds what the
reporter says and where the token stands, and only a text that has no form at all is reported
according to the mode.

A form names few causes. Its number is out of range, or the text is a hex float or raw bits only by
its beginning. No form gives a value of the wrong sort, so a value that is not packed is out of
range.

Results:
* `readIn_eq_ok`, `readIn_eq_error`, `readValueIn_eq`: reading is a verdict that is reported.
* `Form.explains_of_read`, `Form.fits_of_read`: what a form can give.
* `explains_verdict`: the causes that a verdict can have.
* `read_modes`: the mode of the reporter decides on unrecognised tokens, and on nothing else.
-/

namespace LiteralCodec

open Numeral (splitSign afterHexMark?)

/-- How a reporter calls a verdict without a value; a text without a form has no cause. -/
def Reporter.refusal (reporter : Reporter) (token : Token) : Option DiagnosticKind → LiteralError
  | none => reporter.mismatch token
  | some kind => reporter.invalid kind token

namespace Literal

/-! ## The verdict -/

/-- What a text comes to in the given forms: a value that fits the type, or why there is none. -/
def verdict (forms : List Form) (ty : NumericType) (text : List Char) :
    Except (Option DiagnosticKind) Value :=
  match firstReading forms ty text with
  | none => .error none
  | some (.error kind) => .error (some kind)
  | some (.ok value) =>
    ((value.toBits ty).map fun _ => value).mapError fun e => some (packFailure e)

variable {forms : List Form} {ty : NumericType} {reporter : Reporter} {token : Token}
  {text : List Char} {value : Value}

/-- **Reading a value is a verdict that is reported.** -/
theorem readValueIn_eq :
    readValueIn forms ty reporter token =
      (verdict forms ty token.item.toList).mapError (reporter.refusal token) := by
  unfold readValueIn verdict
  cases firstReading forms ty token.item.toList with
  | none => rfl
  | some reading =>
    cases reading with
    | error kind => rfl
    | ok value =>
      simp only
      cases value.toBits ty <;> rfl

/-- The value of a verdict is packed. -/
theorem exists_pack_of_verdict (h : verdict forms ty text = .ok value) :
    ∃ words, value.pack ty = .ok words := by
  unfold verdict at h
  split at h
  · cases h
  · cases h
  · next value' _ =>
    obtain ⟨pattern, hbits, rfl⟩ := map_eq_ok.mp (mapError_eq_ok.mp h)
    exact ⟨_, Value.pack_eq_ok.mpr ⟨pattern, hbits, rfl⟩⟩

/-- **Words are those of the value of the verdict.** -/
theorem readIn_eq_ok {words : List Word} :
    readIn forms ty reporter token = .ok words ↔
      ∃ value, verdict forms ty token.item.toList = .ok value ∧ value.pack ty = .ok words := by
  rw [readIn, bind_eq_ok, readValueIn_eq]
  simp only [mapError_eq_ok]

/-- **A failure is the cause of the verdict**, as it is reported; packing adds none. -/
theorem readIn_eq_error {e : LiteralError} :
    readIn forms ty reporter token = .error e ↔
      ∃ cause, verdict forms ty token.item.toList = .error cause ∧
        reporter.refusal token cause = e := by
  rw [readIn, bind_eq_error, readValueIn_eq, mapError_eq_error]
  constructor
  · rintro (h | ⟨value, hv, he⟩)
    · exact h
    · obtain ⟨words, hpack⟩ := exists_pack_of_verdict (mapError_eq_ok.mp hv)
      rw [hpack] at he
      cases he
  · exact .inl

/-! ## Causes -/

/-- A text that starts with a hex mark, behind a minus sign or not. -/
def HexMarked (text : List Char) : Prop :=
  ∃ negative mark body, (mark = 'x' ∨ mark = 'X') ∧
    text = Numeral.sign negative ++ '0' :: mark :: body

/-- A text behind an exclamation mark that is not a hex mark with one or more hex digits. -/
def MalformedRaw (text : List Char) : Prop :=
  ∃ body, text = '!' :: body ∧ ¬∃ mark digits, (mark = 'x' ∨ mark = 'X') ∧
    body = '0' :: mark :: digits ∧ digits ≠ [] ∧ ∀ c ∈ digits, c.isHexDigit = true

/-- What a failure of some kind says of the type and the text, and of the mode. -/
def Explains (ty : NumericType) (mode : FailureMode) (text : List Char) : DiagnosticKind → Prop
  | .unrecognized => mode = .hard
  | .outOfRange => True
  | .malformedHexFloat => (∃ format, ty = .float format) ∧ HexMarked text
  | .malformedLiteral => MalformedRaw text
  | .malformedMask | .unknownEnumerant => False

namespace Form

theorem magnitude_eq_error {base : ℕ} {digits : List Char} {kind : DiagnosticKind}
    (h : magnitude base digits = .error kind) : kind = .outOfRange := by
  simp only [magnitude] at h
  split_ifs at h
  cases h
  rfl

theorem negated_eq_error {number : ℕ} {kind : DiagnosticKind}
    (h : negated number = .error kind) : kind = .outOfRange := by
  unfold negated at h
  split_ifs at h
  cases h
  rfl

/-- A number with its sign, or bits, can only be too large. -/
theorem signed_eq_error {base : ℕ} {digits : List Char} {negative : Bool} {f : ℕ → Value}
    {kind : DiagnosticKind}
    (h : (do
      let number ← magnitude base digits
      if negative then negated number else return f number : Reading) = .error kind) :
    kind = .outOfRange := by
  rcases bind_eq_error.mp h with h | ⟨number, -, h⟩
  · exact magnitude_eq_error h
  · split_ifs at h
    · exact negated_eq_error h
    · cases h

/-- **A text behind an exclamation mark** is malformed, or has hex digits and is read as bits. -/
theorem readRawBits_cases {reading : Reading} (h : readRawBits text = some reading) :
    (∃ digits, reading = (magnitude 16 digits).map .bits) ∨
      MalformedRaw text ∧ reading = .error .malformedLiteral := by
  unfold readRawBits at h
  split at h
  · next body =>
    split at h
    · next digits hmark =>
      obtain rfl := Option.some.inj h
      by_cases hhex : Numeral.isHex digits = true
      · exact .inl ⟨digits, if_pos hhex⟩
      · refine .inr ⟨⟨body, rfl, ?_⟩, if_neg hhex⟩
        rintro ⟨mark, digits', hx, rfl, hne, hdigits⟩
        rw [Numeral.afterHexMark?_eq_some.mpr ⟨mark, hx, rfl⟩, Option.some.injEq] at hmark
        obtain rfl := hmark
        exact hhex (Numeral.isHex_iff.mpr ⟨hne, hdigits⟩)
    · next hmark =>
      refine .inr ⟨⟨body, rfl, ?_⟩, (Option.some.inj h).symm⟩
      rintro ⟨mark, digits, hx, rfl, -⟩
      rw [Numeral.afterHexMark?_eq_some.mpr ⟨mark, hx, rfl⟩] at hmark
      cases hmark
  · cases h

/-- Raw bits without a value are too large, or malformed. -/
theorem readRawBits_eq_error {kind : DiagnosticKind} (h : readRawBits text = some (.error kind)) :
    kind = .outOfRange ∨ kind = .malformedLiteral ∧ MalformedRaw text := by
  rcases readRawBits_cases h with ⟨digits, he⟩ | ⟨hraw, he⟩
  · exact .inl (magnitude_eq_error (map_eq_error.mp he.symm))
  · exact .inr ⟨Except.error.inj he, hraw⟩

theorem readRawBits_of_malformedRaw (h : MalformedRaw text) :
    readRawBits text = some (.error .malformedLiteral) := by
  obtain ⟨body, rfl, hbody⟩ := h
  unfold readRawBits
  cases hmark : afterHexMark? body with
  | none => simp only [hmark]
  | some digits =>
    obtain ⟨mark, hx, rfl⟩ := Numeral.afterHexMark?_eq_some.mp hmark
    have hhex : ¬Numeral.isHex digits = true := fun hd => by
      obtain ⟨hne, hdigits⟩ := Numeral.isHex_iff.mp hd
      exact hbody ⟨mark, digits, hx, rfl, hne, hdigits⟩
    simp only [hmark, if_neg hhex]

theorem readHexFloat_eq_error {format : FloatFormat} {kind : DiagnosticKind}
    (h : readHexFloat format text = some (.error kind)) :
    kind = .outOfRange ∨ kind = .malformedHexFloat ∧ HexMarked text := by
  obtain ⟨body, hmark, hparse⟩ := Option.map_eq_some_iff.mp h
  obtain ⟨mark, hx, hrest⟩ := Numeral.afterHexMark?_eq_some.mp hmark
  have hmarked : HexMarked text :=
    ⟨(splitSign text).1, mark, body, hx, by rw [← hrest]; exact Numeral.splitSign_eq text⟩
  split at hparse
  · cases hparse
  · next e _ =>
    cases hparse
    cases e with
    | inexact => exact .inl rfl
    | _ => exact .inr ⟨rfl, hmarked⟩

/-- An integer without a value is too large. -/
theorem readHexInteger_eq_error {kind : DiagnosticKind}
    (h : readHexInteger text = some (.error kind)) : kind = .outOfRange := by
  simp only [readHexInteger] at h
  split at h
  · next digits _ =>
    by_cases hd : Numeral.isHex digits = true
    · rw [if_pos hd] at h
      exact signed_eq_error (Option.some.inj h)
    · rw [if_neg hd] at h
      cases h
  · cases h

theorem readDecimalInteger_eq_error {kind : DiagnosticKind}
    (h : readDecimalInteger text = some (.error kind)) : kind = .outOfRange := by
  simp only [readDecimalInteger] at h
  by_cases hd : Numeral.isDecimal (splitSign text).2 = true
  · rw [if_pos hd] at h
    exact signed_eq_error (Option.some.inj h)
  · rw [if_neg hd] at h
    cases h

/-- A decimal without a value is too large to be rounded to a finite number. -/
theorem readDecimalFloat_eq_error {format : FloatFormat} {kind : DiagnosticKind}
    (h : readDecimalFloat format text = some (.error kind)) : kind = .outOfRange := by
  obtain ⟨decimal, -, hpattern⟩ := Option.map_eq_some_iff.mp h
  split at hpattern <;> cases hpattern
  rfl

/-- **The causes that a form names** are those of its text. -/
theorem explains_of_read {form : Form} {kind : DiagnosticKind} (mode : FailureMode)
    (h : form.read ty text = some (.error kind)) : Explains ty mode text kind := by
  cases form with
  | rawBits =>
    rcases readRawBits_eq_error h with rfl | ⟨rfl, hraw⟩
    · trivial
    · exact hraw
  | hexFloat =>
    cases ty with
    | int isSigned width pos le => cases h
    | float format =>
      rcases readHexFloat_eq_error h with rfl | ⟨rfl, hmarked⟩
      · trivial
      · exact ⟨⟨format, rfl⟩, hmarked⟩
  | hexInteger =>
    cases ty with
    | float format => cases h
    | int isSigned width pos le =>
      obtain rfl := readHexInteger_eq_error h
      trivial
  | decimalInteger =>
    cases ty with
    | float format => cases h
    | int isSigned width pos le =>
      obtain rfl := readDecimalInteger_eq_error h
      trivial
  | decimalFloat =>
    cases ty with
    | int isSigned width pos le => cases h
    | float format =>
      obtain rfl := readDecimalFloat_eq_error h
      trivial

/-- **A form for a floating point type gives bits.** -/
theorem fits_of_read {form : Form} (h : form.read ty text = some (.ok value)) (format : FloatFormat)
    (hty : ty = .float format) : ∃ pattern, value = .bits pattern := by
  subst hty
  cases form with
  | rawBits =>
    rcases readRawBits_cases h with ⟨digits, he⟩ | ⟨-, he⟩
    · obtain ⟨n, -, rfl⟩ := map_eq_ok.mp he.symm
      exact ⟨n, rfl⟩
    · cases he
  | hexFloat =>
    obtain ⟨body, -, hparse⟩ := Option.map_eq_some_iff.mp h
    split at hparse <;> cases hparse
    exact ⟨_, rfl⟩
  | hexInteger => cases h
  | decimalInteger => cases h
  | decimalFloat =>
    obtain ⟨decimal, -, hpattern⟩ := Option.map_eq_some_iff.mp h
    split at hpattern <;> cases hpattern
    exact ⟨_, rfl⟩

end Form

theorem exists_form {reading : Reading} (h : firstReading forms ty text = some reading) :
    ∃ form ∈ forms, form.read ty text = some reading :=
  List.exists_of_findSome?_eq_some h

/-- A value that a form gives is not packed only if it is out of range. -/
theorem pack_eq_error_of_firstReading (h : firstReading forms ty text = some (.ok value))
    {e : PackError} (he : value.pack ty = .error e) : e = .outOfRange value ty := by
  obtain ⟨form, -, hread⟩ := exists_form h
  exact Value.toBits_eq_error (Form.fits_of_read hread) (Value.pack_eq_error.mp he)

/-- **The causes that a verdict can have.** -/
theorem explains_verdict {kind : DiagnosticKind} (mode : FailureMode)
    (h : verdict forms ty text = .error (some kind)) : Explains ty mode text kind := by
  unfold verdict at h
  split at h
  · cases h
  · next hread =>
    cases h
    obtain ⟨form, -, hread⟩ := exists_form hread
    exact Form.explains_of_read mode hread
  · next value hread =>
    obtain ⟨e, he, hkind⟩ := mapError_eq_error.mp h
    cases hkind
    obtain rfl := pack_eq_error_of_firstReading hread
      (Value.pack_eq_error.mpr (map_eq_error.mp he))
    trivial

/-- Raw bits that are malformed are tried first. -/
theorem verdict_of_malformedRaw (h : MalformedRaw text) :
    verdict Form.all ty text = .error (some .malformedLiteral) := by
  have hfirst : firstReading Form.all ty text = some (.error .malformedLiteral) := by
    rw [firstReading, Form.all, List.findSome?_cons]
    simp only [Form.read, Form.readRawBits_of_malformedRaw h]
  simp only [verdict, hfirst]

/-! ## The mode of the reporter -/

theorem refusal_eq_noMatch {cause : Option DiagnosticKind} :
    reporter.refusal token cause = .noMatch ↔ cause = none ∧ reporter.mode = .soft := by
  obtain ⟨lead, mode⟩ := reporter
  cases cause <;> cases mode <;> simp [Reporter.refusal, Reporter.mismatch, Reporter.invalid]

/-- What is reported is the cause; a text without a form is reported if a literal is required. -/
theorem refusal_eq_invalid {cause : Option DiagnosticKind} {d : Diagnostic} :
    reporter.refusal token cause = .invalid d ↔ ∃ kind, reporter.diagnostic kind token = d ∧
      (cause = some kind ∨ cause = none ∧ reporter.mode = .hard ∧ kind = .unrecognized) := by
  obtain ⟨lead, mode⟩ := reporter
  constructor
  · intro h
    cases cause with
    | some kind => exact ⟨kind, LiteralError.invalid.inj h, .inl rfl⟩
    | none =>
      cases mode with
      | soft => cases h
      | hard => exact ⟨_, LiteralError.invalid.inj h, .inr ⟨rfl, rfl, rfl⟩⟩
  · rintro ⟨kind, rfl, rfl | ⟨rfl, hmode, rfl⟩⟩
    · rfl
    · obtain rfl : mode = .hard := hmode
      rfl

/-- **What is reported** is the token with its location, and a cause that its text bears out. -/
theorem read_eq_invalid {d : Diagnostic} (h : read ty reporter token = .error (.invalid d)) :
    d.message = reporter.lead ++ token.item ∧ d.loc = token.loc ∧
      Explains ty reporter.mode token.item.toList d.kind := by
  obtain ⟨cause, hv, hrefusal⟩ := readIn_eq_error.mp h
  obtain ⟨kind, rfl, rfl | ⟨-, hmode, rfl⟩⟩ := refusal_eq_invalid.mp hrefusal
  · exact ⟨rfl, rfl, explains_verdict reporter.mode hv⟩
  · exact ⟨rfl, rfl, hmode⟩

/-- A soft reporter stays quiet about a text without a form. -/
theorem read_soft_eq_noMatch (lead : String) :
    read ty ⟨lead, .soft⟩ token = .error .noMatch ↔
      verdict Form.all ty token.item.toList = .error none := by
  refine readIn_eq_error.trans ⟨?_, fun hv => ⟨none, hv, rfl⟩⟩
  rintro ⟨cause, hv, hrefusal⟩
  obtain ⟨rfl, -⟩ := refusal_eq_noMatch.mp hrefusal
  exact hv

/-- A hard reporter calls a text without a form unrecognized, and no other. -/
theorem read_hard_eq_unrecognized (lead : String) :
    (∃ d, read ty ⟨lead, .hard⟩ token = .error (.invalid d) ∧ d.kind = .unrecognized) ↔
      verdict Form.all ty token.item.toList = .error none := by
  constructor
  · rintro ⟨d, hread, hkind⟩
    obtain ⟨cause, hv, hrefusal⟩ := readIn_eq_error.mp hread
    obtain ⟨kind, rfl, rfl | ⟨rfl, -, -⟩⟩ := refusal_eq_invalid.mp hrefusal
    · -- no form itself says that it does not recognise a text
      obtain rfl : kind = .unrecognized := hkind
      cases explains_verdict .soft hv
    · exact hv
  · intro hv
    exact ⟨_, readIn_eq_error.mpr ⟨none, hv, rfl⟩, rfl⟩

/-- A text with a form is read alike by all reporters that say the same. -/
theorem read_mode_eq (lead : String) (mode mode' : FailureMode)
    (h : verdict Form.all ty token.item.toList ≠ .error none) :
    read ty ⟨lead, mode⟩ token = read ty ⟨lead, mode'⟩ token := by
  cases hv : verdict Form.all ty token.item.toList with
  | ok value =>
    obtain ⟨words, hpack⟩ := exists_pack_of_verdict hv
    have hread : ∀ reporter, read ty reporter token = .ok words :=
      fun _ => readIn_eq_ok.mpr ⟨value, hv, hpack⟩
    rw [hread, hread]
  | error cause =>
    cases cause with
    | none => exact absurd hv h
    | some kind =>
      have hread : ∀ reporter, read ty reporter token = .error (reporter.invalid kind token) :=
        fun _ => readIn_eq_error.mpr ⟨some kind, hv, rfl⟩
      rw [hread, hread]
      rfl

/-- A text is a malformed literal just if it is malformed as raw bits. -/
theorem read_eq_malformedLiteral :
    (∃ d, read ty reporter token = .error (.invalid d) ∧ d.kind = .malformedLiteral) ↔
      MalformedRaw token.item.toList := by
  constructor
  · rintro ⟨d, hread, hkind⟩
    obtain ⟨-, -, hexplains⟩ := read_eq_invalid hread
    rwa [hkind] at hexplains
  · intro h
    exact ⟨_, readIn_eq_error.mpr ⟨_, verdict_of_malformedRaw h, rfl⟩, rfl⟩

/-- The words of a text are those of its value, whatever reports it. -/
theorem read_ok_iff {words : List Word} :
    read ty reporter token = .ok words ↔
      ∃ value, verdict Form.all ty token.item.toList = .ok value ∧ value.pack ty = .ok words :=
  readIn_eq_ok

theorem readValue_eq_ok :
    readValue ty reporter token = .ok value ↔
      verdict Form.all ty token.item.toList = .ok value := by
  rw [readValue, readValueIn_eq, mapError_eq_ok]

/-- Packing adds no failure to those of a value. -/
theorem readValue_eq_error {e : LiteralError} :
    readValue ty reporter token = .error e ↔ read ty reporter token = .error e := by
  rw [readValue, readValueIn_eq, mapError_eq_error, read, readIn_eq_error]

/-- **The mode decides on unrecognised tokens only.** Where a soft reporter finds no match, a hard
one reports an unrecognized literal, and on all other tokens they agree. The words depend on the
type and the text alone. A value is read from the same tokens, it packs to the same words, and it
fails in the same way. What is reported carries the token and its location, and the kind tells what
is wrong with the text; a value that is not packed is out of range, and packing fails for no other
reason. -/
theorem read_modes (ty : NumericType) (token : Token) :
    (∀ lead,
      (read ty ⟨lead, .soft⟩ token = .error .noMatch ↔
        ∃ d, read ty ⟨lead, .hard⟩ token = .error (.invalid d) ∧ d.kind = .unrecognized) ∧
      (read ty ⟨lead, .soft⟩ token ≠ .error .noMatch →
        read ty ⟨lead, .hard⟩ token = read ty ⟨lead, .soft⟩ token)) ∧
    (∀ reporter reporter' loc words,
      read ty reporter token = .ok words ↔ read ty reporter' ⟨loc, token.item⟩ = .ok words) ∧
    (∀ reporter,
      (∀ words, read ty reporter token = .ok words ↔
        ∃ value, readValue ty reporter token = .ok value ∧ value.pack ty = .ok words) ∧
      (∀ value, readValue ty reporter token = .ok value →
        ∃ words, read ty reporter token = .ok words) ∧
      ∀ e, readValue ty reporter token = .error e ↔ read ty reporter token = .error e) ∧
    (∀ reporter,
      (∀ d, read ty reporter token = .error (.invalid d) →
        d.message = reporter.lead ++ token.item ∧ d.loc = token.loc ∧
          Explains ty reporter.mode token.item.toList d.kind) ∧
      ((∃ d, read ty reporter token = .error (.invalid d) ∧ d.kind = .malformedLiteral) ↔
        MalformedRaw token.item.toList)) ∧
    ∀ value e, firstReading Form.all ty token.item.toList = some (.ok value) →
      value.pack ty = .error e → e = .outOfRange value ty := by
  refine ⟨fun lead => ⟨?_, fun h => ?_⟩, fun reporter reporter' loc words => ?_,
    fun reporter => ⟨fun words => ?_, fun value h => ?_, fun e => readValue_eq_error⟩,
    fun reporter => ⟨fun d => read_eq_invalid, read_eq_malformedLiteral⟩,
    fun value e h => pack_eq_error_of_firstReading h⟩
  · exact (read_soft_eq_noMatch lead).trans (read_hard_eq_unrecognized lead).symm
  · exact read_mode_eq lead .hard .soft fun hv => h ((read_soft_eq_noMatch lead).mpr hv)
  · rw [read_ok_iff, read_ok_iff]
  · simp only [readValue_eq_ok, read_ok_iff]
  · have hv := readValue_eq_ok.mp h
    obtain ⟨words, hpack⟩ := exists_pack_of_verdict hv
    exact ⟨words, read_ok_iff.mpr ⟨value, hv, hpack⟩⟩

/-- A number with its value and its words, a word that is no half, and raw bits without digits. -/
theorem read_modes_half :
    (readValue (.float .half) ⟨"", .soft⟩ ⟨some ⟨1, 1⟩, "-1.5"⟩ = .ok (.bits 0xBE00) ∧
      read (.float .half) ⟨"half: ", .hard⟩ ⟨none, "-1.5"⟩ = .ok [0xBE00]) ∧
    (∃ d, read (.float .half) ⟨"", .hard⟩ ⟨some ⟨1, 1⟩, "inf"⟩ = .error (.invalid d) ∧
      d.kind = .unrecognized) ∧
    ∃ d, read (.float .half) ⟨"", .soft⟩ ⟨some ⟨1, 1⟩, "!0x"⟩ = .error (.invalid d) ∧
      d.kind = .malformedLiteral := by
  refine ⟨?_, ?_, ?_⟩
  · obtain ⟨-, hwords, hvalue, -⟩ := read_modes (.float .half) ⟨some ⟨1, 1⟩, "-1.5"⟩
    have hbits : readValue (.float .half) ⟨"", .soft⟩ ⟨some ⟨1, 1⟩, "-1.5"⟩ =
        .ok (.bits 0xBE00) := by decide +kernel
    have hread := ((hvalue ⟨"", .soft⟩).1 [0xBE00]).mpr ⟨_, hbits, by decide⟩
    exact ⟨hbits, (hwords ⟨"", .soft⟩ ⟨"half: ", .hard⟩ none [0xBE00]).mp hread⟩
  · obtain ⟨hmode, -⟩ := read_modes (.float .half) ⟨some ⟨1, 1⟩, "inf"⟩
    exact (hmode "").1.mp (by decide +kernel)
  · obtain ⟨-, -, -, hreported, -⟩ := read_modes (.float .half) ⟨some ⟨1, 1⟩, "!0x"⟩
    refine (hreported ⟨"", .soft⟩).2.mpr ⟨['0', 'x'], by decide +kernel, ?_⟩
    rintro ⟨mark, digits, -, heq, hne, -⟩
    cases heq
    exact hne rfl

end Literal

end LiteralCodec
