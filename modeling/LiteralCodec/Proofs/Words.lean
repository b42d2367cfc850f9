import LiteralCodec.Value
import Mathlib.Algebra.Order.Ring.Int
import Mathlib.Data.Int.Basic
import Mathlib.Data.Int.ModEq
import Mathlib.Tactic.Linarith
import Mathlib.Tactic.Ring

/-!
# Words as two's complement

`Word.ofInt n x` is the specification of the words of a literal: word `i` holds the bits of `x` from
bit `32 * i` on. What packing produces are the words of an integer: of the pattern itself where the
type is extended with zeroes, and of the integer with that pattern where it is extended with the
sign.

Results:
* `split_eq`, `join_split`, `split_join`: patterns and words.
* `toInt_eq_iff`: two's complement picks the integer in range that agrees with a pattern.
* `signExtend_eq`: a sign-extended pattern is the widest pattern of its integer.
-/

namespace LiteralCodec

namespace Word

/-- The low `n` words of an integer in two's complement, low-order word first. -/
def ofInt (n : ℕ) (x : ℤ) : List Word :=
  (List.range n).map fun i => BitVec.ofInt 32 (x / 2 ^ (32 * i))

theorem ofInt_succ (n : ℕ) (x : ℤ) :
    ofInt (n + 1) x = BitVec.ofInt 32 x :: ofInt n (x / 2 ^ 32) := by
  unfold ofInt
  rw [List.range_succ_eq_map, List.map_cons, List.map_map]
  congr 1
  · simp
  · refine List.map_congr_left fun i _ => ?_
    have hp : (2 : ℤ) ^ (32 * (i + 1)) = 2 ^ 32 * 2 ^ (32 * i) := by ring
    rw [Function.comp, Nat.succ_eq_add_one, hp, Int.ediv_ediv_of_nonneg (by positivity)]

theorem ofInt_zero (n : ℕ) : ofInt n 0 = List.replicate n 0 := by
  induction n with
  | zero => rfl
  | succ n ih => rw [ofInt_succ, Int.zero_ediv, ih, List.replicate_succ]; rfl

/-! ## Patterns -/

theorem split_eq (bits n : ℕ) : split bits n = ofInt n bits := by
  induction n generalizing bits with
  | zero => rfl
  | succ n ih =>
    rw [split, ofInt_succ, ih, BitVec.ofInt_natCast]
    norm_cast

theorem join_split (bits n : ℕ) : join (split bits n) = bits % 2 ^ (32 * n) := by
  induction n generalizing bits with
  | zero => simp [split, join, Nat.mod_one]
  | succ n ih =>
    have hp : 2 ^ (32 * (n + 1)) = 2 ^ 32 * 2 ^ (32 * n) := by ring
    rw [split, join, ih, hp, Nat.mod_mul, BitVec.toNat_ofNat]

/-- Words that are enough for a pattern hold all of it. -/
theorem join_split_of_lt {width bits : ℕ} (h : bits < 2 ^ width) :
    join (split bits (count width)) = bits := by
  have hle : 2 ^ width ≤ 2 ^ (32 * count width) :=
    Nat.pow_le_pow_right (by omega) (by unfold count; omega)
  rw [join_split, Nat.mod_eq_of_lt (h.trans_le hle)]

theorem split_join (ws : List Word) : split (join ws) ws.length = ws := by
  induction ws with
  | nil => rfl
  | cons w ws ih =>
    have hw := w.isLt
    have hmod : BitVec.ofNat 32 (join (w :: ws)) = w := by
      apply BitVec.eq_of_toNat_eq
      rw [BitVec.toNat_ofNat, join, Nat.add_mul_mod_self_left, Nat.mod_eq_of_lt hw]
    have hdiv : join (w :: ws) / 2 ^ 32 = join ws := by
      rw [join, Nat.add_mul_div_left _ _ (by positivity), Nat.div_eq_of_lt hw, zero_add]
    rw [List.length_cons, split, hmod, hdiv, ih]

theorem split_mod (bits n : ℕ) : split (bits % 2 ^ (32 * n)) n = split bits n := by
  have h := split_join (split bits n)
  rwa [length_split, join_split] at h

/-! ## Integers -/

/-- Words see nothing above their own bits. -/
theorem ofInt_add_mul (n : ℕ) (x q : ℤ) : ofInt n (x + 2 ^ (32 * n) * q) = ofInt n x := by
  induction n generalizing x q with
  | zero => rfl
  | succ n ih =>
    have hp : x + 2 ^ (32 * (n + 1)) * q = x + 2 ^ 32 * (2 ^ (32 * n) * q) := by ring
    rw [ofInt_succ, ofInt_succ, hp, Int.add_mul_ediv_left _ _ (by positivity), ih]
    congr 1
    apply BitVec.eq_of_toNat_eq
    rw [BitVec.toNat_ofInt, BitVec.toNat_ofInt]
    push_cast
    rw [Int.add_mul_emod_self_left]

theorem split_bits_ofInt {n width : ℕ} (h : 32 * n ≤ width) (x : ℤ) :
    split (Bits.ofInt width x) n = ofInt n x := by
  obtain ⟨k, rfl⟩ := Nat.exists_eq_add_of_le h
  have hnn : 0 ≤ x % (2 ^ (32 * n + k) : ℕ) := Int.emod_nonneg _ (by positivity)
  have hx : x % (2 ^ (32 * n + k) : ℕ) =
      x + 2 ^ (32 * n) * -(2 ^ k * (x / (2 ^ (32 * n + k) : ℕ))) := by
    rw [Int.emod_def]
    push_cast
    ring
  rw [split_eq, Bits.ofInt, Int.toNat_of_nonneg hnn, hx, ofInt_add_mul]

end Word

/-! ## Two's complement -/

namespace Bits

/-- The integer that the low `width` bits of a pattern stand for in two's complement: of the
integers that agree with the pattern in these bits, the one in range. -/
structure StandsFor (width bits : ℕ) (x : ℤ) : Prop where
  least : -2 ^ (width - 1) ≤ x
  lt : x < 2 ^ (width - 1)
  modEq : x ≡ bits [ZMOD 2 ^ width]

/-- **Two's complement** picks the integer that stands for the bits. -/
theorem toInt_eq_iff {width bits : ℕ} {x : ℤ} (pos : 0 < width) :
    toInt width bits = x ↔ StandsFor width bits x := by
  obtain ⟨k, rfl⟩ : ∃ k, width = k + 1 := ⟨width - 1, by omega⟩
  -- the modulus is even, so that the bounds of the balanced remainder are half of it
  have hp : ((2 ^ (k + 1) : ℕ) : ℤ) = 2 * 2 ^ k := by
    push_cast
    ring
  have hmod : ((2 ^ (k + 1) : ℕ) : ℤ) ∣ x - bits ↔ x ≡ bits [ZMOD 2 ^ (k + 1)] := by
    rw [Int.modEq_comm, Int.modEq_iff_dvd]
    norm_cast
  rw [toInt, Int.bmod_eq_iff (Nat.two_pow_pos _), hmod]
  constructor
  · rintro ⟨hlo, hhi, h⟩
    refine ⟨?_, ?_, h⟩ <;> rw [Nat.add_sub_cancel] <;> omega
  · rintro ⟨hlo, hhi, h⟩
    rw [Nat.add_sub_cancel] at hlo hhi
    exact ⟨by omega, by omega, h⟩

theorem toInt_eq {width bits : ℕ} (hw : 0 < width) (hb : bits < 2 ^ width) :
    toInt width bits = if bits < 2 ^ (width - 1) then (bits : ℤ) else bits - 2 ^ width := by
  obtain ⟨k, rfl⟩ : ∃ k, width = k + 1 := ⟨width - 1, by omega⟩
  rw [toInt, Int.bmod_def, Nat.add_sub_cancel]
  rw [Nat.pow_succ] at hb ⊢
  have hmod : (bits : ℤ) % ((2 ^ k * 2 : ℕ) : ℤ) = bits := by
    rw [← Int.natCast_mod, Nat.mod_eq_of_lt hb]
  have hhalf : (((2 ^ k * 2 : ℕ) : ℤ) + 1) / 2 = (2 ^ k : ℕ) := by omega
  rw [hmod, hhalf]
  norm_cast

/-! ## Sign extension -/

/-- The low bits of a pattern, shifted to the upper end, stand for their integer times the shift. -/
theorem toInt_shifted {width : ℕ} (hw : 0 < width) (hle : width ≤ maxWidth) (bits : ℕ) :
    toInt maxWidth (bits * 2 ^ (maxWidth - width)) =
      2 ^ (maxWidth - width) * toInt width bits := by
  have h2 : 2 ∣ 2 ^ width := dvd_pow_self 2 hw.ne'
  have hp : 2 ^ maxWidth = 2 ^ (maxWidth - width) * 2 ^ width := by
    rw [← pow_add, Nat.sub_add_cancel hle]
  have hpos : 0 < 2 ^ (maxWidth - width) := Nat.two_pow_pos _
  rw [toInt, toInt, mul_comm, Nat.cast_mul, hp, Int.mod_bmod_mul_of_pos _ _ hpos h2]
  norm_cast

/-- **Sign extension** keeps the integer. -/
theorem signExtend_eq {width : ℕ} (hw : 0 < width) (hle : width ≤ maxWidth) (bits : ℕ) :
    signExtend bits width = ofInt maxWidth (toInt width bits) := by
  have hs : (BitVec.ofNat maxWidth bits <<< (maxWidth - width)).toInt =
      2 ^ (maxWidth - width) * toInt width bits := by
    rw [← toInt_shifted hw hle, toInt, BitVec.toInt_shiftLeft, BitVec.toNat_ofNat,
      Nat.shiftLeft_eq, Nat.cast_mul, Nat.cast_mul, Int.natCast_mod, Int.emod_mul_bmod]
  have hi : ((BitVec.ofNat maxWidth bits <<< (maxWidth - width)).sshiftRight
      (maxWidth - width)).toInt = toInt width bits := by
    rw [BitVec.toInt_sshiftRight, hs, Int.shiftRight_eq_div_pow]
    push_cast
    exact Int.mul_ediv_cancel_left _ (by positivity)
  unfold signExtend ofInt
  rw [← hi, ← BitVec.toNat_ofInt, BitVec.ofInt_toInt]

end Bits

end LiteralCodec
