import LiteralCodec.Fixed.Word
import LiteralCodec.Proofs.Fixed.Format
import LiteralCodec.Proofs.Packing

/-!
# Words in fixed widths are exact

Shifts, masks and joined bits stand for arithmetic modulo powers of two. A word cut off is a
remainder of a quotient. The words joined so far stay below the place of the next one, so that its
bits are joined without a carry: this is what each step of joining preserves. Shifting up to the end
of a register multiplies the two's-complement integer of the low bits, whatever stands above them,
and the arithmetic shift back divides it exactly.

The integer that stands for the low bits of a pattern survives being extended, since a pattern of
more bits has room for it, and being cut into words again, since the words that a width asks for
have at least its bits.

Results:
* `Word.splitFixed_eq`, `Word.joinFixed_eq`, `Bits.signExtendFixed_eq`: no step leaves its width.
* `Word.arithmetic_exact`: cutting, joining and extending lose nothing but the bits cut off.
-/

namespace LiteralCodec

open Fixed (unsigned_eq unsigned_natCast shiftLeft_eq shiftOut_eq shiftRight_eq shiftRightSigned_eq)

/-! ## Integers of patterns -/

namespace Bits

variable {width : ℕ}

/-- More bits hold the integer of fewer bits. -/
theorem toInt_ofInt_toInt {width' : ℕ} (pos : 0 < width) (hle : width ≤ width') (bits : ℕ) :
    toInt width' (ofInt width' (toInt width bits)) = toInt width bits := by
  obtain ⟨hlo, hhi⟩ := toInt_bounds pos bits
  have hpow : (2 : ℤ) ^ (width - 1) ≤ 2 ^ (width' - 1) := pow_le_pow_right₀ (by omega) (by omega)
  exact toInt_ofInt (by omega) (by omega) (by omega)

/-- An extended pattern has the integer of the bits it was extended from. -/
theorem toInt_signExtend (pos : 0 < width) (hle : width ≤ maxWidth) (bits : ℕ) :
    toInt maxWidth (signExtend bits width) = toInt width bits := by
  rw [signExtend_eq pos hle, toInt_ofInt_toInt pos hle]

/-- Shifted to the upper end and back, the low bits bring their sign with them. -/
theorem signExtendFixed_eq (pos : 0 < width) (hle : width ≤ maxWidth) (bits : ℕ) :
    signExtendFixed bits width = some (signExtend bits width) := by
  have hmax : maxWidth = 128 := rfl
  have hcast : ((2 ^ (maxWidth - width) : ℕ) : ℤ) = 2 ^ (maxWidth - width) := by norm_cast
  have htop : toInt maxWidth (bits * 2 ^ (maxWidth - width) % 2 ^ maxWidth) =
      2 ^ (maxWidth - width) * toInt width bits := by
    -- what falls off the upper end is a multiple of the modulus
    rw [← toInt_shifted pos hle, toInt, toInt, Int.natCast_mod, Int.emod_bmod]
  rw [signExtendFixed, guard, if_pos ⟨pos, hle⟩, signExtend_eq pos hle]
  simp only [Option.bind_eq_bind, Option.pure_def, Option.bind_some]
  rw [unsigned_eq (n := maxWidth - width) (by omega) (by omega), Option.bind_some,
    shiftOut_eq (by omega), Option.bind_some, shiftRightSigned_eq (by omega), Option.bind_some,
    htop, hcast, Int.mul_ediv_cancel_left _ (by positivity)]

end Bits

namespace Word

variable {bits n i : ℕ} {ws : List Word}

/-! ## Cutting -/

theorem countFixed_eq {width : ℕ} (hle : width ≤ Bits.maxWidth) :
    countFixed width = some (count width) := by
  have hmax : Bits.maxWidth = 128 := rfl
  rw [countFixed, unsigned_natCast (by omega), Option.bind_eq_bind, Option.bind_some,
    unsigned_eq (n := width + 31) (by omega) (by omega)]
  rfl

theorem count_le {width : ℕ} (hle : width ≤ Bits.maxWidth) : count width ≤ maxCount := by
  unfold count maxCount Bits.maxWidth at *
  omega

theorem offsetFixed_eq (h : i < maxCount) : offsetFixed i = some (32 * i) := by
  have hmax : maxCount = 4 := rfl
  rw [offsetFixed, unsigned_natCast (by omega), Option.bind_eq_bind, Option.bind_some,
    unsigned_natCast (by omega), mul_comm]

/-- One word of a pattern, as the words of an integer have it. -/
theorem cutFixed_eq (bits : ℕ) (h : i < maxCount) :
    cutFixed bits i = some (BitVec.ofInt 32 ((bits : ℤ) / 2 ^ (32 * i))) := by
  have hmax : maxCount = 4 := rfl
  have hwidth : Bits.maxWidth = 128 := rfl
  rw [cutFixed, offsetFixed_eq h, Option.bind_eq_bind, Option.bind_some, shiftRight_eq (by omega),
    Option.bind_some, Option.pure_def, ← BitVec.ofInt_natCast]
  norm_cast

/-- **A run of cutting.** -/
theorem mapM_cutFixed (bits : ℕ) (h : n ≤ maxCount) :
    (List.range n).mapM (cutFixed bits) = some (ofInt n bits) := by
  induction n with
  | zero => rfl
  | succ n ih =>
    -- the last word is cut off on its own, so that the bound on its place is at hand
    rw [List.range_succ, List.mapM_append, ih (by omega), List.mapM_cons, List.mapM_nil,
      cutFixed_eq bits (by omega), ofInt, ofInt, List.range_succ, List.map_append]
    rfl

/-- **Cutting** stays within its widths. -/
theorem splitFixed_eq (bits : ℕ) (h : n ≤ maxCount) : splitFixed bits n = some (split bits n) := by
  rw [splitFixed, guard, if_pos h, mapM_cutFixed bits h, split_eq]
  rfl

/-! ## Joining -/

/-- **One step of joining.** The bits of a word stand above those of the words before it. -/
theorem orFixed_eq (w : Word) (h : i < maxCount) (hbits : bits < 2 ^ (32 * i)) :
    orFixed bits (w, i) = some (bits + 2 ^ (32 * i) * w.toNat) := by
  have hmax : maxCount = 4 := rfl
  have hwidth : Bits.maxWidth = 128 := rfl
  have hroom : w.toNat * 2 ^ (32 * i) < 2 ^ Bits.maxWidth := by
    calc w.toNat * 2 ^ (32 * i) < 2 ^ 32 * 2 ^ (32 * i) :=
          Nat.mul_lt_mul_of_pos_right w.isLt (Nat.two_pow_pos _)
      _ = 2 ^ (32 + 32 * i) := (pow_add 2 32 (32 * i)).symm
      _ ≤ 2 ^ Bits.maxWidth := Nat.pow_le_pow_right two_pos (by omega)
  rw [orFixed, offsetFixed_eq h, Option.bind_eq_bind, Option.bind_some,
    shiftLeft_eq (by omega) hroom, Option.bind_some, Nat.or_comm,
    FloatFormat.two_pow_mul_or hbits, add_comm, mul_comm]
  rfl

/-- The bits joined by one step stay below the place of the word after it. -/
theorem add_two_pow_mul_lt (w : Word) (hbits : bits < 2 ^ (32 * i)) :
    bits + 2 ^ (32 * i) * w.toNat < 2 ^ (32 * (i + 1)) := by
  calc bits + 2 ^ (32 * i) * w.toNat < 2 ^ (32 * i) * (w.toNat + 1) := by
        rw [Nat.mul_add, Nat.mul_one]
        omega
    _ ≤ 2 ^ (32 * i) * 2 ^ 32 := Nat.mul_le_mul_left _ w.isLt
    _ = 2 ^ (32 * (i + 1)) := by ring

/-- **A run of joining**, from any place on: what is joined to the bits so far are the other words,
moved up to that place. -/
theorem foldlM_orFixed (h : i + ws.length ≤ maxCount) (hbits : bits < 2 ^ (32 * i)) :
    (ws.zipIdx i).foldlM orFixed bits =
      some (bits + 2 ^ (32 * i) * join ws) := by
  induction ws generalizing i bits with
  | nil => rfl
  | cons w ws ih =>
    rw [List.length_cons] at h
    rw [List.zipIdx_cons, List.foldlM_cons, orFixed_eq w (by omega) hbits, Option.bind_eq_bind,
      Option.bind_some, ih (by omega) (add_two_pow_mul_lt w hbits), join]
    congr 1
    ring

/-- **Joining** stays within its widths. -/
theorem joinFixed_eq (h : ws.length ≤ maxCount) : joinFixed ws = some (join ws) := by
  rw [joinFixed, guard, if_pos h, Option.bind_eq_bind, Option.pure_def, Option.bind_some,
    foldlM_orFixed (by omega) (by decide)]
  congr 1
  ring

/-! ## Both ways -/

/-- An extended pattern that is cut into the words of its width has its integer still. -/
theorem toInt_join_split_signExtend {width : ℕ} (pos : 0 < width) (hle : width ≤ Bits.maxWidth)
    (bits : ℕ) :
    Bits.toInt (32 * count width) (join (split (Bits.signExtend bits width) (count width))) =
      Bits.toInt width bits := by
  have hmax : Bits.maxWidth = 128 := rfl
  have hfew : 32 * count width ≤ Bits.maxWidth := by
    unfold count
    omega
  have henough : width ≤ 32 * count width := by
    unfold count
    omega
  rw [Bits.signExtend_eq pos hle, split_bits_ofInt hfew, join_ofInt,
    Bits.toInt_ofInt_toInt pos henough]

/-- **The arithmetic of words is exact**, for every pattern, as many words as a pattern has room
for, and every width of a type. Cutting off words, joining words, counting them and extending a sign
have results in registers, which are those of unlimited arithmetic. Words that were cut off and
joined again are the pattern modulo the bits they have, and words that were joined and cut off again
are what they were. One integer stands for the low bits of a pattern: it is what the extended
pattern is read as, and so are the words that the width asks for when they are cut off the extended
pattern. -/
theorem arithmetic_exact :
    (∀ bits n, n ≤ maxCount →
      splitFixed bits n = some (split bits n) ∧
        joinFixed (split bits n) = some (join (split bits n)) ∧
        join (split bits n) = bits % 2 ^ (32 * n)) ∧
      (∀ ws : List Word, ws.length ≤ maxCount →
        joinFixed ws = some (join ws) ∧
          splitFixed (join ws) ws.length = some (split (join ws) ws.length) ∧
          split (join ws) ws.length = ws) ∧
      ∀ bits width, 0 < width → width ≤ Bits.maxWidth →
        Bits.signExtendFixed bits width = some (Bits.signExtend bits width) ∧
          countFixed width = some (count width) ∧ count width ≤ maxCount ∧
          ∀ x : ℤ,
            (Bits.toInt Bits.maxWidth (Bits.signExtend bits width) = x ↔
              Bits.StandsFor width bits x) ∧
            (Bits.toInt (32 * count width)
                (join (split (Bits.signExtend bits width) (count width))) = x ↔
              Bits.StandsFor width bits x) := by
  refine ⟨fun bits n hn => ?_, fun ws hws => ?_, fun bits width pos hle => ?_⟩
  · have hlength : (split bits n).length ≤ maxCount := by rwa [length_split]
    exact ⟨splitFixed_eq bits hn, joinFixed_eq hlength, join_split bits n⟩
  · exact ⟨joinFixed_eq hws, splitFixed_eq _ hws, split_join ws⟩
  · refine ⟨Bits.signExtendFixed_eq pos hle bits, countFixed_eq hle, count_le hle, fun x => ?_⟩
    rw [Bits.toInt_signExtend pos hle, toInt_join_split_signExtend pos hle]
    exact ⟨Bits.toInt_eq_iff pos, Bits.toInt_eq_iff pos⟩

/-- A sign bit that is the lowest one of the second word, below bits that do not count. -/
theorem arithmetic_exact_partial :
    joinFixed (split 0x700000005 1) = some 5 ∧
      splitFixed (join [5, 0xFFFFFFFF]) 2 = some [5, 0xFFFFFFFF] ∧
      Bits.toInt 128 (Bits.signExtend 0x700000005 33) = 5 - 2 ^ 32 ∧
      Bits.toInt 64 (join (split (Bits.signExtend 0x700000005 33) 2)) = 5 - 2 ^ 32 := by
  obtain ⟨hcut, hjoin, hextend⟩ := arithmetic_exact
  obtain ⟨-, hjoined, hmod⟩ := hcut 0x700000005 1 (by decide)
  obtain ⟨-, hback, hsame⟩ := hjoin [5, 0xFFFFFFFF] (by decide)
  obtain ⟨-, -, -, hinteger⟩ := hextend 0x700000005 33 (by decide) (by decide)
  have hstands : Bits.StandsFor 33 0x700000005 (5 - 2 ^ 32) := ⟨by decide, by decide, by decide⟩
  exact ⟨hjoined.trans (congrArg some hmod), hback.trans (congrArg some hsame),
    (hinteger _).1.mpr hstands, (hinteger _).2.mpr hstands⟩

end Word

end LiteralCodec
