import LiteralCodec.Literal.Form

/-!
# Reading literals

Reads a token as a literal of a type: the forms are tried in order, the first that the text has is
read, and its value is checked against the type. Every failure goes through the reporter; only a
text that has no form at all is treated by the reporter's mode.

Operations: `parse_value` (`readValue`), `parse_literal` (`read`), `pack_error_kind`
(`packFailure`). Out of scope: traces.

## Results

* `Literal.read_length`: a literal fills as many words as its type has.
-/

namespace LiteralCodec

namespace Literal

/-- The first of some forms that a text has, as read. -/
def firstReading (forms : List Form) (ty : NumericType) (text : List Char) : Option Reading :=
  forms.findSome? fun form => form.read ty text

/-- What a reporter calls a value that has no words. -/
def packFailure : PackError → DiagnosticKind
  | .outOfRange .. => .outOfRange
  | _ => .malformedLiteral

/-- Reads a token in one of the given forms, as a value that is known to fit the type. -/
def readValueIn (forms : List Form) (ty : NumericType) (reporter : Reporter) (token : Token) :
    Except LiteralError Value :=
  match firstReading forms ty token.item.toList with
  | none => .error (reporter.mismatch token)
  | some (.error kind) => .error (reporter.invalid kind token)
  | some (.ok value) =>
    match value.toBits ty with
    | .ok _ => .ok value
    | .error e => .error (reporter.invalid (packFailure e) token)

/-- Reads a token in one of the given forms, as words. -/
def readIn (forms : List Form) (ty : NumericType) (reporter : Reporter) (token : Token) :
    Except LiteralError (List Word) := do
  let value ← readValueIn forms ty reporter token
  (value.pack ty).mapError fun e => reporter.invalid (packFailure e) token

/-- Reads a token as a value that is known to fit the type. -/
def readValue (ty : NumericType) (reporter : Reporter) (token : Token) :
    Except LiteralError Value :=
  readValueIn Form.all ty reporter token

/-- Reads a token as words, low-order word first. -/
def read (ty : NumericType) (reporter : Reporter) (token : Token) :
    Except LiteralError (List Word) :=
  readIn Form.all ty reporter token

theorem read_length {ty : NumericType} {reporter : Reporter} {token : Token} {words : List Word}
    (h : read ty reporter token = .ok words) : words.length = ty.wordCount := by
  simp only [read, readIn, bind, Except.bind] at h
  split at h
  · simp at h
  · next value _ =>
    cases hp : value.pack ty with
    | error e => rw [hp] at h; cases h
    | ok ws =>
      rw [hp] at h
      obtain rfl := Except.ok.inj h
      exact Value.pack_length hp

end Literal

end LiteralCodec
