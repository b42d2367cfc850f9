import LiteralCodec.NumericType

/-!
# Values and their words

A value is what a literal denotes before it is laid out in words: an integer of either sign, or the
bit pattern itself. Packing checks a value against the range of a type and fills its words; above
the width of the type stand copies of the sign bit for signed integers, and zeroes for all others.
Unpacking takes back exactly the words that packing fills.

Operations: `to_bits` (`toBits`), `pack`, `unpack`.

## Results

* `Value.pack_length`: packing fills as many words as the type has.
* `Value.unpack_length`: unpacking takes no other number of words.
-/

namespace LiteralCodec

-- powers are those of core, whatever else is imported
attribute [local instance (high)] instPowNat

/-- A number, or the bits of one. -/
inductive Value
  | unsigned (number : Nat)
  | signed (number : Int)
  | bits (pattern : Nat)
  deriving DecidableEq, Repr

/-- A value as it stands in a message. -/
def Value.text : Value → String
  | unsigned number => "Unsigned(" ++ toString number ++ ")"
  | signed number => "Signed(" ++ toString number ++ ")"
  | bits pattern => "Bits(" ++ toString pattern ++ ")"

/-- Why a value has no words in a type, or words no value. -/
inductive PackError
  | outOfRange (value : Value) (type : NumericType)
  | notAnInteger (value : Value) (type : NumericType)
  | wordCountMismatch (expected found : Nat)
  | nonCanonicalPadding (words : List Word) (type : NumericType)
  deriving DecidableEq, Repr

/-- A list of words as it stands in a message, one to a line. -/
def Word.listText (words : List Word) : String :=
  if words.isEmpty then "[]"
  else "[\n" ++ String.join (words.map fun w => "    " ++ w.text ++ ",\n") ++ "]"

/-- The text of a failure. -/
def PackError.message : PackError → String
  | outOfRange value type => value.text ++ " does not fit in " ++ type.text
  | notAnInteger value type =>
    value.text ++ " is an integer, but " ++ type.text ++ " is a floating point type"
  | wordCountMismatch expected found =>
    "expected " ++ toString expected ++ " word(s) but found " ++ toString found
  | nonCanonicalPadding words type =>
    "words " ++ Word.listText words ++ " are not a " ++
      (if type.signExtends then "sign" else "zero") ++ "-extended " ++ type.text

namespace Value

/-- The pattern of an integer, if it lies in the range of an integer type. -/
def integerBits? (isSigned : Bool) (width : Nat) (number : Int) : Option Nat :=
  if NumericType.least isSigned width ≤ number ∧ number ≤ NumericType.greatest isSigned width then
    some (Bits.ofInt width number)
  else none

/-- The pattern of a value in a type. Bits fit any type that is wide enough; a number fits the
integer types whose range it lies in. -/
def toBits (value : Value) (ty : NumericType) : Except PackError Nat :=
  match value, ty with
  | bits pattern, ty =>
    if pattern < 2 ^ ty.width then .ok pattern else .error (.outOfRange value ty)
  | unsigned number, .int isSigned width _ _ =>
    (integerBits? isSigned width number).elim (.error (.outOfRange value ty)) .ok
  | signed number, .int isSigned width _ _ =>
    (integerBits? isSigned width number).elim (.error (.outOfRange value ty)) .ok
  | unsigned _, .float _ | signed _, .float _ => .error (.notAnInteger value ty)

/-- The pattern with the bits above the width filled in. -/
def extend (ty : NumericType) (pattern : Nat) : Nat :=
  if ty.signExtends then Bits.signExtend pattern ty.width else pattern

/-- The words of a value, low-order word first. -/
def pack (value : Value) (ty : NumericType) : Except PackError (List Word) := do
  let pattern ← value.toBits ty
  return Word.split (extend ty pattern) ty.wordCount

/-- The value of a pattern within the width of a type. -/
def ofBits (ty : NumericType) (pattern : Nat) : Value :=
  match ty with
  | .int true width _ _ => .signed (Bits.toInt width pattern)
  | .int false _ _ _ => .unsigned pattern
  | .float _ => .bits pattern

/-- The value of words, low-order word first. -/
def unpack (words : List Word) (ty : NumericType) : Except PackError Value :=
  if words.length = ty.wordCount then
    let stored := Word.join words
    let pattern := stored % 2 ^ ty.width
    if stored = extend ty pattern % 2 ^ (32 * ty.wordCount) then .ok (ofBits ty pattern)
    else .error (.nonCanonicalPadding words ty)
  else .error (.wordCountMismatch ty.wordCount words.length)

theorem pack_length {value : Value} {ty : NumericType} {words : List Word}
    (h : value.pack ty = .ok words) : words.length = ty.wordCount := by
  simp only [pack, bind, Except.bind] at h
  split at h
  · simp at h
  · simp only [pure, Except.pure, Except.ok.injEq] at h
    rw [← h, Word.length_split]

theorem unpack_length {value : Value} {ty : NumericType} {words : List Word}
    (h : unpack words ty = .ok value) : words.length = ty.wordCount := by
  unfold unpack at h
  split at h
  · assumption
  · simp at h

end Value

end LiteralCodec
