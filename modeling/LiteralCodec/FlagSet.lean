import LiteralCodec.Mask

/-!
# Flag sets

A mask whose bits are all declared flags of its category. Bits are made into a flag set by a
conversion that is not given here but only asked for its law: it refuses bits that are not declared,
and keeps all others as they are. Everything that needs a flag set made takes the conversion as a
parameter. `FlagSet.ofBits?` is one that keeps the law.

Operations: `from_mask_bits` (the conversion), `mask_bits` (`FlagSet.bits`), `parse_flags`
(`FlagSet.parse`), `format_flags` (`FlagSet.format`).

## Results

* `FlagSet.ofBits?_bits`: a flag set is read back from its bits.
* `FlagSet.isConversion_ofBits?`: the law can be kept.
-/

namespace LiteralCodec

/-- All declared flags of a category at once. -/
def MaskCategory.allFlags (category : MaskCategory) : Word := Mask.union category.flags

/-- A set of declared flags of a category. -/
structure FlagSet (category : MaskCategory) where
  bits : Word
  declared : bits &&& ~~~category.allFlags = 0
  deriving DecidableEq

namespace FlagSet

/-- Makes flag sets from bits. -/
abbrev Conversion := (category : MaskCategory) → Word → Option (FlagSet category)

/-- The law of a conversion: bits are refused just if some of them are not declared, and a flag set
has the bits that it was made from. -/
structure IsConversion (fromBits : Conversion) : Prop where
  eq_none_iff : ∀ category bits,
    fromBits category bits = none ↔ bits &&& ~~~category.allFlags ≠ 0
  bits_eq : ∀ {category bits flags}, fromBits category bits = some flags → flags.bits = bits

/-- Reads a flag set as a mask, by way of a conversion. -/
def parseWith (fromBits : Conversion) (category : MaskCategory) (expression : String) :
    Except MaskError (FlagSet category) := do
  let bits ← Mask.parse category expression
  (fromBits category bits).elim (.error (.unnamedBits category bits)) .ok

/-- Writes a flag set as a mask. -/
def format {category : MaskCategory} (flags : FlagSet category) : Except MaskError String :=
  Mask.format category flags.bits

/-! ## A conversion -/

/-- The set with some bits, if they are all declared. -/
def ofBits? (category : MaskCategory) (bits : Word) : Option (FlagSet category) :=
  if h : bits &&& ~~~category.allFlags = 0 then some ⟨bits, h⟩ else none

/-- Reads a flag set as a mask. -/
def parse (category : MaskCategory) (expression : String) :
    Except MaskError (FlagSet category) :=
  parseWith ofBits? category expression

theorem ofBits?_bits {category : MaskCategory} (flags : FlagSet category) :
    ofBits? category flags.bits = some flags := by
  simp [ofBits?, flags.declared]

theorem isConversion_ofBits? : IsConversion ofBits? where
  eq_none_iff category bits := by
    unfold ofBits?
    split <;> simp_all
  bits_eq := by
    intro category bits flags h
    unfold ofBits? at h
    split at h
    · cases h
      rfl
    · cases h

end FlagSet

end LiteralCodec
