import LiteralCodec.Literal.Reader
import LiteralCodec.Literal.Writer
import LiteralCodec.Token

/-!
# Encoding and decoding lists of literals

A source whose tokens are all literals of one type is encoded as the words of all of them. Words are
decoded, as many at a time as the type has, into literals with single spaces between them.

A source that cannot be cut into tokens is refused for that, whatever its tokens are; otherwise the
first token that is no literal of the type is reported.

Operations: `encode`, `decode`; `accumulate_vecs`, on the literals of a list (`readAll`). Out of
scope: traces.

## Results

* `readAll_append`: two lists of tokens give the words of the one and then of the other.
-/

namespace LiteralCodec

/-- Why a source has no words, or words no source. -/
inductive CodecError
  | tokenize (error : Located Token.Error)
  | type (error : NumericType.Error)
  | unmatched
  | diagnostic (diagnostic : Diagnostic)
  | disassemble (error : PackError)
  deriving DecidableEq, Repr

namespace CodecError

/-- The text of a failure. -/
def message : CodecError → String
  | tokenize error => "Tokenize error: " ++ Token.failureText error
  | type error => "Type error: " ++ error.message
  | unmatched => "Literal error: token did not match"
  | diagnostic d => "Literal error: " ++ d.text
  | disassemble error => "Disassemble error: " ++ Literal.writeFailureText error

/-- The failure to read a literal, as a failure of the whole. -/
def ofLiteral : LiteralError → CodecError
  | .noMatch => unmatched
  | .invalid d => diagnostic d

end CodecError

/-- The words of all tokens, up to the first that is no literal. -/
def readAll (ty : NumericType) (reporter : Reporter) : List Token → Except LiteralError (List Word)
  | [] => .ok []
  | token :: rest => do
    let words ← Literal.read ty reporter token
    let more ← readAll ty reporter rest
    return words ++ more

/-- What reports the tokens of a source: every token is required. -/
def encodeReporter (ty : NumericType) : Reporter := ⟨"Invalid " ++ ty.text ++ " literal: ", .hard⟩

/-- The words of a source whose tokens are literals of a type. -/
def encode (ty : NumericType) (source : String) : Except CodecError (List Word) := do
  let tokens ← (Token.tokenize source).mapError .tokenize
  (readAll ty (encodeReporter ty) tokens).mapError .ofLiteral

/-- The literals of a type that words hold, with single spaces between them. -/
def decode (ty : NumericType) (words : List Word) : Except CodecError String := do
  let texts ← ((Word.chunks ty.wordCount words).mapM (Literal.write ty)).mapError .disassemble
  return " ".intercalate texts

theorem readAll_append {ty : NumericType} {reporter : Reporter} (a b : List Token) :
    readAll ty reporter (a ++ b) = do
      let u ← readAll ty reporter a
      let v ← readAll ty reporter b
      return u ++ v := by
  induction a with
  | nil =>
    cases h : readAll ty reporter b <;>
      simp [readAll, h, bind, Except.bind, pure, Except.pure]
  | cons token rest ih =>
    rw [List.cons_append, readAll, readAll, ih]
    cases Literal.read ty reporter token with
    | error => rfl
    | ok words =>
      cases readAll ty reporter rest with
      | error => rfl
      | ok u =>
        cases readAll ty reporter b with
        | error => rfl
        | ok v => simp [bind, Except.bind, pure, Except.pure]

end LiteralCodec
