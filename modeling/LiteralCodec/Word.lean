/-!
# Words and bit patterns

A literal is stored as 32-bit words, low-order word first. Between the text and the words stands a
**bit pattern**, a natural number whose binary digits are the bits. This module cuts patterns into
words, joins words into patterns, and reads patterns as two's-complement integers.

Operations: `word_count` (`Word.count`), `bits_to_words` (`Word.split`), `words_to_bits`
(`Word.join`), `sign_extend` (`Bits.signExtend`), `low_mask` (`Bits.lowMask`).

## Results

* `Word.length_split`: a pattern is cut into exactly as many words as asked for.
* `Word.flatten_chunks`: cutting a list of words into chunks loses nothing.
-/

namespace LiteralCodec

-- powers are those of core, whatever else is imported
attribute [local instance (high)] instPowNat

/-- A storage unit of 32 bits. -/
abbrev Word := BitVec 32

/-! ## Words -/

namespace Word

/-- The number of words that store a pattern of `width` bits. -/
def count (width : Nat) : Nat := (width + 31) / 32

/-- The low `n` words of a pattern, low-order word first. -/
def split (bits : Nat) : Nat → List Word
  | 0 => []
  | n + 1 => BitVec.ofNat 32 bits :: split (bits / 2 ^ (32 : Nat)) n

/-- The pattern that words hold, low-order word first. -/
def join : List Word → Nat
  | [] => 0
  | w :: ws => w.toNat + 2 ^ (32 : Nat) * join ws

/-- Cuts words into chunks of `size`, the last one possibly shorter. A size of zero counts as one.
-/
def chunks (size : Nat) : List Word → List (List Word)
  | [] => []
  | w :: ws => (w :: ws.take (size - 1)) :: chunks size (ws.drop (size - 1))
termination_by ws => ws.length
decreasing_by simp only [List.length_drop, List.length_cons]; omega

/-- Eight hex digits in upper case behind `0x`. -/
def text (w : Word) : String := "0x" ++ w.toHex.toUpper

theorem length_split (bits n : Nat) : (split bits n).length = n := by
  induction n generalizing bits with
  | zero => rfl
  | succ n ih => simp [split, ih]

theorem flatten_chunks (size : Nat) (ws : List Word) : (chunks size ws).flatten = ws := by
  fun_induction chunks size ws with
  | case1 => rfl
  | case2 w ws ih => simp [ih]

end Word

/-! ## Patterns as integers -/

namespace Bits

/-- The widest pattern that a literal fills. -/
def maxWidth : Nat := 128

/-- All ones in the low `width` bits, of at most `maxWidth`. -/
def lowMask (width : Nat) : Nat := 2 ^ min width maxWidth - 1

/-- The two's-complement integer in the low `width` bits. -/
def toInt (width bits : Nat) : Int := (bits : Int).bmod (2 ^ width)

/-- The pattern of `width` bits that stands for an integer in two's complement. -/
def ofInt (width : Nat) (i : Int) : Nat := (i % (2 ^ width : Nat)).toNat

/-- Copies bit `width - 1` into every higher bit, up to `maxWidth`: shifted to the top, the sign bit
is what an arithmetic shift brings in on the way back. -/
def signExtend (bits width : Nat) : Nat :=
  ((BitVec.ofNat maxWidth bits <<< (maxWidth - width)).sshiftRight (maxWidth - width)).toNat

end Bits

end LiteralCodec
