import LiteralCodec.Proofs.Float.Value
import LiteralCodec.Proofs.Numeral
import LiteralCodec.Scientific.Shortest
import Mathlib.Algebra.Order.Field.Power

/-!
# The grids of a search

The grid `k` of a number holds the decimals with `k + 1` significant digits of its size: multiples
of the power of ten `k` below its first digit. On each grid a search looks at the multiples next to
the number, and it stops at the first grid where one of them reads back.

Results:
* `le_value`, `value_lt`: the power of ten of the first digit.
* `le_of_mem_onGrid`: how many digits a grid has.
* `search?_eq_some`, `search?_eq_none`: on which grids nothing was found.
* `isModerate_search?`: the size of what was found.
-/

namespace LiteralCodec.FloatFormat

open Numeral (digitCount)

variable {f : FloatFormat} {m c : ℕ} {s : ℤ}

/-! ## The first digit -/

/-- The first significant digit is not below the leading exponent. -/
theorem lt_leadingExponent (n : ℕ) {d : ℕ} (hd : 0 < d) :
    (n : ℚ) / d < 10 ^ (leadingExponent n d + 1) := by
  have hd' : (0 : ℚ) < d := by exact_mod_cast hd
  unfold leadingExponent
  split_ifs with h
  · have hq := Numeral.lt_pow_digitCount (n / d)
    have hn : n < 10 ^ digitCount (n / d) * d := (Nat.div_lt_iff_lt_mul hd).mp hq
    rw [sub_add_cancel, zpow_natCast, div_lt_iff₀ hd']
    exact_mod_cast hn
  · rcases Nat.eq_zero_or_pos n with rfl | hn
    · rw [Nat.cast_zero, zero_div]
      positivity
    · have hq : 0 < (d - 1) / n := Nat.div_pos (by omega) hn
      obtain ⟨j, hj⟩ : ∃ j, digitCount ((d - 1) / n) = j + 1 :=
        ⟨_, (Nat.succ_pred_eq_of_pos (Numeral.digitCount_pos _)).symm⟩
      have hle := Numeral.pow_digitCount_le hq
      rw [hj, Nat.add_sub_cancel] at hle
      have hlt : n * 10 ^ j < d := by
        have := (Nat.mul_le_mul_left n hle).trans (Nat.mul_div_le (d - 1) n)
        omega
      have he : -((j + 1 : ℕ) : ℤ) + 1 = -(j : ℤ) := by omega
      rw [hj, he, zpow_neg, zpow_natCast, ← one_div, div_lt_div_iff₀ hd' (by positivity), one_mul]
      exact_mod_cast hlt

/-- It is not above it either. -/
theorem le_leadingExponent {n d : ℕ} (hn : 0 < n) (hd : 0 < d) :
    (10 : ℚ) ^ leadingExponent n d ≤ n / d := by
  have hd' : (0 : ℚ) < d := by exact_mod_cast hd
  unfold leadingExponent
  split_ifs with h
  · obtain ⟨j, hj⟩ : ∃ j, digitCount (n / d) = j + 1 :=
      ⟨_, (Nat.succ_pred_eq_of_pos (Numeral.digitCount_pos _)).symm⟩
    have hle := Numeral.pow_digitCount_le (Nat.div_pos h hd)
    rw [hj, Nat.add_sub_cancel, Nat.le_div_iff_mul_le hd] at hle
    rw [hj, Nat.cast_succ, add_sub_cancel_right, zpow_natCast, le_div_iff₀ hd']
    exact_mod_cast hle
  · have hlt := (Nat.div_lt_iff_lt_mul hn).mp (Numeral.lt_pow_digitCount ((d - 1) / n))
    have hle : d ≤ n * 10 ^ digitCount ((d - 1) / n) := by
      rw [mul_comm] at hlt
      omega
    rw [zpow_neg, zpow_natCast, ← one_div, div_le_div_iff₀ (by positivity) hd', one_mul]
    exact_mod_cast hle

/-- The leading exponent has its size from the digits of the quotient or of the denominator. -/
theorem abs_leadingExponent_le {n d size : ℕ} (hquotient : digitCount (n / d) ≤ size)
    (hdenominator : digitCount d ≤ size) : |leadingExponent n d| ≤ size := by
  unfold leadingExponent
  split_ifs
  · have hpos := Numeral.digitCount_pos (n / d)
    rw [abs_le]
    omega
  · have hlt : (d - 1) / n < 10 ^ digitCount d :=
      ((Nat.div_le_self _ _).trans (d.sub_le 1)).trans_lt (Numeral.lt_pow_digitCount d)
    have hle : digitCount ((d - 1) / n) ≤ digitCount d :=
      (Nat.length_toDigits_le_iff (by omega) (Numeral.digitCount_pos d)).mpr hlt
    rw [abs_neg, Nat.abs_cast]
    exact_mod_cast hle.trans hdenominator

/-- The power of ten that the first significant digit of a number counts. -/
def lead (f : FloatFormat) (m : ℕ) : ℤ := leadingExponent (f.units m) (2 ^ f.unitExponent)

theorem value_lt (f : FloatFormat) (m : ℕ) : f.value m < 10 ^ (f.lead m + 1) := by
  have h := lt_leadingExponent (f.units m) (Nat.two_pow_pos f.unitExponent)
  rwa [Nat.cast_pow, Nat.cast_two] at h

theorem le_value (f : FloatFormat) (hm : 0 < m) : (10 : ℚ) ^ f.lead m ≤ f.value m := by
  have hunits : 0 < f.units m := f.units_zero ▸ f.units_strictMono hm
  have h := le_leadingExponent hunits (Nat.two_pow_pos f.unitExponent)
  rwa [Nat.cast_pow, Nat.cast_two] at h

/-! ## Multiples -/

/-- The quotient is counted in powers of ten. -/
theorem scaledBy_eq (n : ℕ) {d : ℕ} (hd : 0 < d) (scale : ℤ) :
    0 < (scaledBy n d scale).2 ∧
      ((scaledBy n d scale).1 : ℚ) / (scaledBy n d scale).2 = n / d / 10 ^ scale := by
  have hd' : (d : ℚ) ≠ 0 := by exact_mod_cast hd.ne'
  cases scale with
  | ofNat k =>
    refine ⟨by simp only [scaledBy]; positivity, ?_⟩
    rw [Int.ofNat_eq_natCast, zpow_natCast]
    simp only [scaledBy]
    push_cast
    rw [div_div]
  | negSucc k =>
    refine ⟨hd, ?_⟩
    rw [zpow_negSucc]
    simp only [scaledBy]
    push_cast
    field_simp

/-- A number as a quotient, counted in powers of ten. -/
def onGrid (f : FloatFormat) (m : ℕ) (s : ℤ) : ℕ × ℕ :=
  scaledBy (f.units m) (2 ^ f.unitExponent) s

theorem onGrid_pos (f : FloatFormat) (m : ℕ) (s : ℤ) : 0 < (f.onGrid m s).2 :=
  (scaledBy_eq (f.units m) (Nat.two_pow_pos _) s).1

theorem onGrid_eq (f : FloatFormat) (m : ℕ) (s : ℤ) :
    ((f.onGrid m s).1 : ℚ) / (f.onGrid m s).2 = f.value m / 10 ^ s := by
  have h := (scaledBy_eq (f.units m) (Nat.two_pow_pos f.unitExponent) s).2
  rwa [Nat.cast_pow, Nat.cast_two] at h

theorem le_of_mem_neighbours {n d : ℕ} (h : c ∈ f.neighbours n d) : c ≤ n / d + 1 := by
  have hd := roundQuotient_eq_div_or .eq n d
  cases f with
  | half =>
    simp only [neighbours, List.mem_singleton] at h
    omega
  | single | double =>
    simp only [neighbours] at h
    split_ifs at h <;> simp only [List.mem_cons, List.not_mem_nil, or_false] at h <;> omega

theorem mem_neighbours_of_candidate? (h : f.candidate? m s = some c) :
    c ∈ f.neighbours (f.onGrid m s).1 (f.onGrid m s).2 :=
  List.mem_of_find?_eq_some h

/-- Nothing is chosen on a grid if no neighbour reads back. -/
theorem candidate?_eq_none :
    f.candidate? m s = none ↔
      ∀ c ∈ f.neighbours (f.onGrid m s).1 (f.onGrid m s).2, f.readsBack m c s ≠ true :=
  List.find?_eq_none

/-- The multiples under a number have no more digits than the grid. -/
theorem floor_lt (f : FloatFormat) (m k : ℕ) :
    (f.onGrid m (f.lead m - k)).1 / (f.onGrid m (f.lead m - k)).2 < 10 ^ (k + 1) := by
  have hpos := f.onGrid_pos m (f.lead m - k)
  have hpos' : (0 : ℚ) < (f.onGrid m (f.lead m - k)).2 := by exact_mod_cast hpos
  have hval :
      ((f.onGrid m (f.lead m - k)).1 : ℚ) / (f.onGrid m (f.lead m - k)).2 < 10 ^ (k + 1) := by
    have he : (10 : ℚ) ^ (k + 1) = 10 ^ (f.lead m + 1) / 10 ^ (f.lead m - k) := by
      rw [← zpow_sub₀ (by norm_num), ← zpow_natCast]
      congr 1
      push_cast
      ring
    rw [onGrid_eq, he]
    exact div_lt_div_of_pos_right (f.value_lt m) (by positivity)
  rw [div_lt_iff₀ hpos'] at hval
  exact (Nat.div_lt_iff_lt_mul hpos).mpr (by exact_mod_cast hval)

/-- **A neighbour on a grid has no more digits than the grid.** -/
theorem le_of_mem_onGrid {k : ℕ}
    (h : c ∈ f.neighbours (f.onGrid m (f.lead m - k)).1 (f.onGrid m (f.lead m - k)).2) :
    c ≤ 10 ^ (k + 1) :=
  (le_of_mem_neighbours h).trans (f.floor_lt m k)

theorem candidate?_le {k : ℕ} (h : f.candidate? m (f.lead m - k) = some c) : c ≤ 10 ^ (k + 1) :=
  le_of_mem_onGrid (mem_neighbours_of_candidate? h)

/-! ## Searching -/

/-- The first of the numbers below a limit that has a value. -/
theorem findSome?_range {α : Type} (g : ℕ → Option α) {limit : ℕ} {a : α}
    (h : (List.range limit).findSome? g = some a) :
    ∃ k < limit, g k = some a ∧ ∀ j < k, g j = none := by
  induction limit with
  | zero => cases h
  | succ limit ih =>
    rw [List.range_succ, List.findSome?_append, Option.or_eq_some_iff] at h
    rcases h with h | ⟨hnone, h⟩
    · obtain ⟨k, hk, hsome, hbefore⟩ := ih h
      exact ⟨k, by omega, hsome, hbefore⟩
    · rw [List.findSome?_eq_none_iff] at hnone
      rw [List.findSome?_singleton] at h
      exact ⟨limit, by omega, h, fun j hj => hnone j (List.mem_range.mpr hj)⟩

/-- **What a search finds** was chosen on one of its grids, and nothing on the grids before. -/
theorem search?_eq_some {limit : ℕ} (h : f.search? m limit = some (c, s)) :
    ∃ k < limit, s = f.lead m - k ∧ f.candidate? m s = some c ∧
      ∀ j < k, f.candidate? m (f.lead m - (j : ℕ)) = none := by
  obtain ⟨k, hk, hc, hbefore⟩ := findSome?_range _ h
  obtain ⟨c', hc', he⟩ := Option.map_eq_some_iff.mp hc
  simp only [Prod.mk.injEq] at he
  obtain ⟨rfl, rfl⟩ := he
  exact ⟨k, hk, rfl, hc', fun j hj => Option.map_eq_none_iff.mp (hbefore j hj)⟩

/-- A search that finds nothing has looked at all its grids. -/
theorem search?_eq_none {limit : ℕ} (h : f.search? m limit = none) :
    ∀ j < limit, f.candidate? m (f.lead m - (j : ℕ)) = none := fun j hj =>
  Option.map_eq_none_iff.mp (List.findSome?_eq_none_iff.mp h j (List.mem_range.mpr hj))

/-- A decimal whose digits and power of ten keep within a bound. -/
structure IsModerate (size : ℕ) (decimal : ℕ × ℤ) : Prop where
  digitCount_le : digitCount decimal.1 ≤ size
  abs_scale_le : |decimal.2| ≤ 2 * size

theorem IsModerate.mono {size size' : ℕ} {decimal : ℕ × ℤ} (h : IsModerate size decimal)
    (hle : size ≤ size') : IsModerate size' decimal where
  digitCount_le := h.digitCount_le.trans hle
  abs_scale_le := h.abs_scale_le.trans (by exact_mod_cast Nat.mul_le_mul_left 2 hle)

/-- What a search finds is moderate if the search and the number are. -/
theorem isModerate_search? {limit size : ℕ} {decimal : ℕ × ℤ}
    (h : f.search? m limit = some decimal) (hlimit : limit < size) (hlead : |f.lead m| ≤ size) :
    IsModerate size decimal := by
  obtain ⟨c, s⟩ := decimal
  obtain ⟨k, hk, rfl, hc, -⟩ := search?_eq_some h
  constructor
  · refine (Nat.length_toDigits_le_iff (by omega) (by omega)).mpr ((candidate?_le hc).trans_lt ?_)
    exact Nat.pow_lt_pow_right (by omega) (by omega)
  · rw [abs_le] at hlead ⊢
    dsimp only
    omega

end LiteralCodec.FloatFormat
