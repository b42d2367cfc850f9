/-!
# Blank characters

The characters with the Unicode property `White_Space`, as ranges of code points. They separate
words.

Operations: `is_whitespace` (`isBlank`).
-/

namespace LiteralCodec

/-- The first and the last code point of each run of blanks. -/
def blankRanges : List (Nat × Nat) :=
  [(0x0009, 0x000D), (0x0020, 0x0020), (0x0085, 0x0085), (0x00A0, 0x00A0), (0x1680, 0x1680),
    (0x2000, 0x200A), (0x2028, 0x2029), (0x202F, 0x202F), (0x205F, 0x205F), (0x3000, 0x3000)]

/-- Whether a character is a blank. -/
def isBlank (c : Char) : Bool :=
  blankRanges.any fun (first, last) => first ≤ c.toNat && c.toNat ≤ last

/-- There are 25 of them. -/
example : (blankRanges.map fun (first, last) => last + 1 - first).sum = 25 := by decide

end LiteralCodec
