import LiteralCodec.Fixed
import LiteralCodec.Word

/-!
# Words in fixed widths

Cutting a pattern into words, joining words and extending a sign as it is done in registers:
patterns in 128 bits, sizes and amounts of shifts in 32. Each word is shifted down from its place in
the pattern and cut off, or shifted up to its place and joined bit by bit. A sign is extended by a
shift to the upper end and an arithmetic shift back. A pattern has room for four words; cutting off
or joining more has no result, and neither has extending a pattern that is empty or wider than a
register.

Operations: `word_count` (`countFixed`), `bits_to_words` (`splitFixed`), `words_to_bits`
(`joinFixed`), `sign_extend` (`Bits.signExtendFixed`).
-/

namespace LiteralCodec

open Fixed (unsigned shiftLeft shiftOut shiftRight shiftRightSigned)

-- powers are those of core, whatever else is imported
attribute [local instance (high)] instPowNat

namespace Word

/-- The most words that a pattern has room for. -/
def maxCount : Nat := Bits.maxWidth / 32

/-- The number of words that store a pattern of `width` bits. -/
def countFixed (width : Nat) : Option Nat := do
  let above ← unsigned 32 (width + 32 : Nat)
  let rounded ← unsigned 32 (above - 1 : Int)
  return rounded / 32

/-- How far above the lowest bit the word with an index stands. -/
def offsetFixed (index : Nat) : Option Nat := do
  unsigned 32 ((← unsigned 32 index) * 32 : Nat)

/-- The word with an index: what is left of the pattern above it is dropped. -/
def cutFixed (bits index : Nat) : Option Word := do
  return BitVec.ofNat 32 (← shiftRight Bits.maxWidth bits (← offsetFixed index))

/-- The low `n` words of a pattern, low-order word first. -/
def splitFixed (bits n : Nat) : Option (List Word) := do
  guard (n ≤ maxCount)
  (List.range n).mapM (cutFixed bits)

/-- A pattern with the bits of one more word, which comes with its index. -/
def orFixed (bits : Nat) : Word × Nat → Option Nat
  | (w, index) => do
    return bits ||| (← shiftLeft Bits.maxWidth w.toNat (← offsetFixed index))

/-- The pattern that words hold, low-order word first. -/
def joinFixed (ws : List Word) : Option Nat := do
  guard (ws.length ≤ maxCount)
  ws.zipIdx.foldlM orFixed 0

end Word

/-- Copies bit `width - 1` into every higher bit of a register. -/
def Bits.signExtendFixed (bits width : Nat) : Option Nat := do
  guard (0 < width ∧ width ≤ maxWidth)
  let amount ← unsigned 32 (maxWidth - width : Int)
  let top ← shiftOut maxWidth bits amount
  let extended ← shiftRightSigned maxWidth (toInt maxWidth top) amount
  return ofInt maxWidth extended

end LiteralCodec
