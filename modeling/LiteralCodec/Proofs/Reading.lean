import LiteralCodec.Literal.Reader
import LiteralCodec.Proofs.Value

/-!
# Reading a literal

What reading gives, from what the first form gives that the text has.

Results:
* `Reporter.invalid_injective`: a failure tells its cause.
* `Literal.read_of_none`, `Literal.read_of_error`, `Literal.read_of_ok`: the three cases.
* `Literal.read_of_pattern`: the words of a floating point number.
* `Literal.firstReading_int`, `Literal.firstReading_float`: the forms that a type has, in their
  order.
-/

namespace LiteralCodec

/-- Failures of one token that are reported alike have one cause. -/
theorem Reporter.invalid_injective {reporter : Reporter} {token : Token}
    {kind kind' : DiagnosticKind}
    (h : reporter.invalid kind token = reporter.invalid kind' token) : kind = kind' := by
  rw [invalid, invalid, LiteralError.invalid.injEq, diagnostic, diagnostic,
    Diagnostic.mk.injEq] at h
  exact h.1

namespace Literal

variable {ty : NumericType} {reporter : Reporter} (token : Token)

/-! ## The first form decides -/

theorem read_of_none (h : firstReading Form.all ty token.item.toList = none) :
    read ty reporter token = .error (reporter.mismatch token) := by
  simp only [read, readIn, readValueIn, h]
  rfl

theorem read_of_error {kind : DiagnosticKind}
    (h : firstReading Form.all ty token.item.toList = some (.error kind)) :
    read ty reporter token = .error (reporter.invalid kind token) := by
  simp only [read, readIn, readValueIn, h]
  rfl

/-- A value that a form gives is packed, if it fits the type. -/
theorem read_of_ok {value : Value}
    (h : firstReading Form.all ty token.item.toList = some (.ok value)) :
    read ty reporter token =
      match value.toBits ty with
      | .ok pattern => .ok (Word.split (Value.extend ty pattern) ty.wordCount)
      | .error e => .error (reporter.invalid (packFailure e) token) := by
  simp only [read, readIn, readValueIn, h]
  cases hb : value.toBits ty with
  | error e => rfl
  | ok pattern =>
    simp only [bind, Except.bind, Value.pack_of_toBits hb]
    rfl

/-- **A pattern that a text gives** has its words, if it is one of the format. -/
theorem read_of_pattern {f : FloatFormat} {text : List Char} {pattern : ℕ}
    (h : firstReading Form.all (.float f) text = some (.ok (.bits pattern)))
    (hlt : pattern < 2 ^ f.width) (reporter : Reporter) (loc : Option Location) :
    read (.float f) reporter ⟨loc, String.ofList text⟩ =
      .ok (Word.split pattern (Word.count f.width)) := by
  have hfirst : firstReading Form.all (.float f) (String.ofList text).toList =
      some (.ok (.bits pattern)) := by
    rw [String.toList_ofList, h]
  have hbits : (Value.bits pattern).toBits (.float f) = .ok pattern := if_pos hlt
  rw [read_of_ok ⟨loc, String.ofList text⟩ hfirst, hbits]
  rfl

/-! ## The forms of a type -/

theorem firstReading_int {isSigned : Bool} {width : ℕ} {pos : 0 < width}
    {le : width ≤ Bits.maxWidth}
    (text : List Char) :
    firstReading Form.all (.int isSigned width pos le) text =
      (Form.readRawBits text <|> Form.readHexInteger text <|> Form.readDecimalInteger text) := by
  simp only [firstReading, Form.all, List.findSome?_cons, List.findSome?_nil, Form.read]
  cases Form.readRawBits text <;> cases Form.readHexInteger text <;>
    cases Form.readDecimalInteger text <;> rfl

theorem firstReading_float (format : FloatFormat) (text : List Char) :
    firstReading Form.all (.float format) text =
      (Form.readRawBits text <|> Form.readHexFloat format text <|>
        Form.readDecimalFloat format text) := by
  simp only [firstReading, Form.all, List.findSome?_cons, List.findSome?_nil, Form.read]
  cases Form.readRawBits text <;> cases Form.readHexFloat format text <;>
    cases Form.readDecimalFloat format text <;> rfl

/-- Only an exclamation mark makes a text raw bits. -/
theorem readRawBits_eq_none {text : List Char} (h : text.head? ≠ some '!') :
    Form.readRawBits text = none := by
  unfold Form.readRawBits
  split
  · exact absurd rfl h
  · rfl

end Literal

end LiteralCodec
