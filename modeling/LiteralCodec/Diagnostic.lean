import LiteralCodec.Location

/-!
# Diagnostics and reporters

What is said of a token that cannot be used. A reporter composes the message, and decides what
becomes of a token that has none of the shapes asked for: a soft reporter stays quiet, so that
something else can be tried, and a hard one reports it like any other failure.

Operations: `diagnostic`, `invalid` and `mismatch` of a reporter, and the texts of diagnostics. Out
of scope: traces and logs.
-/

namespace LiteralCodec

/-- The kinds of failure that are reported. -/
inductive DiagnosticKind
  | unrecognized
  | outOfRange
  | malformedHexFloat
  | malformedLiteral
  | malformedMask
  | unknownEnumerant
  deriving DecidableEq, Repr

/-- The name of a kind. -/
def DiagnosticKind.text : DiagnosticKind → String
  | unrecognized => "unrecognized literal"
  | outOfRange => "value out of range"
  | malformedHexFloat => "malformed hex float"
  | malformedLiteral => "malformed literal"
  | malformedMask => "malformed mask"
  | unknownEnumerant => "unknown enumerant"

/-- A message about a token, with the location of the token. -/
structure Diagnostic where
  kind : DiagnosticKind
  message : String
  loc : Option Location
  deriving DecidableEq, Repr

/-- The message behind its location. -/
def Diagnostic.text (d : Diagnostic) : String := Location.label d.loc d.message

/-- Why a token gave no literal. -/
inductive LiteralError
  /-- It has none of the shapes of a literal, and nothing is reported. -/
  | noMatch
  /-- It is reported as unusable. -/
  | invalid (diagnostic : Diagnostic)
  deriving DecidableEq, Repr

/-- The text of a failure. -/
def LiteralError.text : LiteralError → String
  | noMatch => "token does not match the expected literal"
  | invalid diagnostic => diagnostic.text

/-- What becomes of a token that has none of the shapes asked for. -/
inductive FailureMode
  | soft
  | hard
  deriving DecidableEq, Repr

/-- Composes messages from a fixed beginning and the text of the token. -/
structure Reporter where
  lead : String
  mode : FailureMode
  deriving DecidableEq, Repr

namespace Reporter

/-- Reports a token. -/
def diagnostic (reporter : Reporter) (kind : DiagnosticKind) (token : Token) : Diagnostic :=
  ⟨kind, reporter.lead ++ token.item, token.loc⟩

/-- The failure of a token that has an accepted shape, but is unusable. -/
def invalid (reporter : Reporter) (kind : DiagnosticKind) (token : Token) : LiteralError :=
  .invalid (reporter.diagnostic kind token)

/-- The failure of a token that has none of the accepted shapes. -/
def mismatch (reporter : Reporter) (token : Token) : LiteralError :=
  match reporter.mode with
  | .soft => .noMatch
  | .hard => reporter.invalid .unrecognized token

end Reporter

end LiteralCodec
