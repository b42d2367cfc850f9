import LiteralCodec.Proofs.Float.Interval
import LiteralCodec.Proofs.Scientific.Shortest

/-!
# The shortest decimal has the fewest digits

A search that passes over a grid has missed nothing on it. The numbers that are rounded to one
magnitude have no gaps, so if any multiple on the grid is rounded to it, one of the two neighbours
is: singles and doubles try both. Halves try the nearer one, which is enough where the interval is
symmetric. A place begins with a power of two, and there the upper neighbour may be rounded to it
when the lower one, though nearer, is not. For the powers of two among the halves this can be looked
up: it happens on one grid of one of them, `2 ^ -6`, which has four digits in `0.01563` and is
written with five as `0.015625`.

A decimal with few digits lies on the grid of that many digits, or it is so small that the power of
ten at the first digit, which is on all grids, lies between it and the number.

Results:
* `exists_beside`: a grid with a decimal of a number has one next to the number.
* `not_rounds_of_candidate?`: a grid that was passed over has no decimal of the number.
* `exists_multiple`: a decimal with few digits, on the grid of that many.
* `shortest_minimal`: no decimal with fewer digits is rounded to the number.
-/

namespace LiteralCodec.FloatFormat

variable {f : FloatFormat} {m c : ℕ} {s : ℤ}

/-! ## Neighbours -/

/-- Distances on a grid are counted in its steps. -/
theorem abs_sub_onGrid (f : FloatFormat) (m c : ℕ) (s : ℤ) :
    |(c : ℚ) * 10 ^ s - f.value m| =
      |(c : ℚ) - (f.onGrid m s).1 / (f.onGrid m s).2| * 10 ^ s := by
  have hp : (0 : ℚ) < 10 ^ s := by positivity
  rw [onGrid_eq, ← abs_of_pos hp, ← abs_mul, sub_mul, abs_of_pos hp, div_mul_cancel₀ _ hp.ne']

/-- The floor on a grid is not above the number, and one step further is. -/
theorem floor_bounds (f : FloatFormat) (m : ℕ) (s : ℤ) :
    (((f.onGrid m s).1 / (f.onGrid m s).2 : ℕ) : ℚ) * 10 ^ s ≤ f.value m ∧
      f.value m ≤ (((f.onGrid m s).1 / (f.onGrid m s).2 + 1 : ℕ) : ℚ) * 10 ^ s := by
  have hp : (0 : ℚ) < 10 ^ s := by positivity
  have hlo :
      (((f.onGrid m s).1 / (f.onGrid m s).2 : ℕ) : ℚ) ≤ (f.onGrid m s).1 / (f.onGrid m s).2 :=
    Nat.cast_div_le
  have hhi := div_lt_succ (f.onGrid m s).1 (f.onGrid_pos m s)
  rw [onGrid_eq] at hlo hhi
  rw [← le_div_iff₀ hp, ← div_le_iff₀ hp]
  push_cast
  exact ⟨hlo, hhi.le⟩

/-- **A grid with a decimal of a number** has one next to the number. -/
theorem exists_beside (hm : m ≤ f.infinity) (h : f.Rounds (compare ((c : ℚ) * 10 ^ s)) m) :
    f.Rounds (compare ((((f.onGrid m s).1 / (f.onGrid m s).2 : ℕ) : ℚ) * 10 ^ s)) m ∨
      f.Rounds (compare ((((f.onGrid m s).1 / (f.onGrid m s).2 + 1 : ℕ) : ℚ) * 10 ^ s)) m := by
  have hp : (0 : ℚ) < 10 ^ s := by positivity
  obtain ⟨hlo, hhi⟩ := f.floor_bounds m s
  rcases Nat.lt_or_ge ((f.onGrid m s).1 / (f.onGrid m s).2) c with hlt | hge
  · refine .inr ((rounds_self hm).between h hhi ?_)
    exact mul_le_mul_of_nonneg_right (by exact_mod_cast hlt) hp.le
  · refine .inl (h.between (rounds_self hm) ?_ hlo)
    exact mul_le_mul_of_nonneg_right (by exact_mod_cast hge) hp.le

/-- The integer that a quotient is rounded to is within half a unit. -/
theorem abs_roundQuotient_sub_le (n : ℕ) {d : ℕ} (hd : 0 < d) :
    |(roundQuotient .eq n d : ℚ) - n / d| ≤ 1 / 2 := by
  have hd' : (0 : ℚ) < d := by exact_mod_cast hd
  obtain ⟨hlo, hhi⟩ := roundQuotient_nearest .eq n hd
  have hlo' : 2 * (n : ℚ) ≤ (2 * roundQuotient .eq n d + 1) * d := by exact_mod_cast hlo
  have hhi' : 2 * (roundQuotient .eq n d : ℚ) * d ≤ 2 * n + d := by exact_mod_cast hhi
  have hq : (n : ℚ) / d * d = n := div_mul_cancel₀ _ hd'.ne'
  rw [abs_le]
  constructor <;> nlinarith

/-- An integer within half a unit of a number has no other one nearer to the number. -/
theorem abs_sub_le_abs_sub {x : ℚ} (h : |(c : ℚ) - x| ≤ 1 / 2) (c' : ℕ) :
    |(c : ℚ) - x| ≤ |(c' : ℚ) - x| := by
  obtain ⟨hlo, hhi⟩ := abs_le.mp h
  rcases lt_trichotomy c c' with hlt | rfl | hgt
  · have hstep : (c : ℚ) + 1 ≤ c' := by exact_mod_cast hlt
    have hfar : 1 / 2 ≤ (c' : ℚ) - x := by linarith
    exact h.trans (hfar.trans (le_abs_self _))
  · exact le_rfl
  · have hstep : (c' : ℚ) + 1 ≤ c := by exact_mod_cast hgt
    have hfar : 1 / 2 ≤ -((c' : ℚ) - x) := by linarith
    exact h.trans (hfar.trans (neg_le_abs _))

/-! ## Grids that were passed over -/

/-- Singles and doubles try both neighbours. -/
theorem mem_neighbours_of_ne_half (hf : f ≠ half) (n d : ℕ) :
    n / d ∈ f.neighbours n d ∧ n / d + 1 ∈ f.neighbours n d := by
  cases f with
  | half => exact absurd rfl hf
  | single | double =>
    simp only [neighbours]
    split_ifs <;> simp

/-- So they miss nothing. -/
theorem not_rounds_full (hf : f ≠ half) (hm : m ≤ f.infinity) (h : f.candidate? m s = none)
    (c : ℕ) :
    ¬f.Rounds (compare ((c : ℚ) * 10 ^ s)) m := by
  intro hr
  have hnone := candidate?_eq_none.mp h
  obtain ⟨hfloor, hnext⟩ := mem_neighbours_of_ne_half hf (f.onGrid m s).1 (f.onGrid m s).2
  rcases exists_beside hm hr with hb | hb
  · exact hnone _ hfloor ((readsBack_iff fun e => absurd e hf).mpr hb)
  · exact hnone _ hnext ((readsBack_iff fun e => absurd e hf).mpr hb)

/-- The multiple on a grid that is nearest to the number. -/
def nearestOnGrid (f : FloatFormat) (m : ℕ) (s : ℤ) : ℕ :=
  roundQuotient .eq (f.onGrid m s).1 (f.onGrid m s).2

/-- It is within half a step. -/
theorem abs_nearestOnGrid_sub_le (f : FloatFormat) (m : ℕ) (s : ℤ) :
    |(f.nearestOnGrid m s : ℚ) * 10 ^ s - f.value m| ≤ 1 / 2 * 10 ^ s := by
  rw [abs_sub_onGrid]
  exact mul_le_mul_of_nonneg_right (abs_roundQuotient_sub_le _ (f.onGrid_pos m s)) (by positivity)

/-- No multiple is nearer. -/
theorem abs_nearestOnGrid_sub_le_abs (f : FloatFormat) (m c : ℕ) (s : ℤ) :
    |(f.nearestOnGrid m s : ℚ) * 10 ^ s - f.value m| ≤ |(c : ℚ) * 10 ^ s - f.value m| := by
  rw [abs_sub_onGrid, abs_sub_onGrid]
  refine mul_le_mul_of_nonneg_right ?_ (by positivity)
  exact abs_sub_le_abs_sub (abs_roundQuotient_sub_le _ (f.onGrid_pos m s)) c

/-- Halves try the nearest multiple. -/
theorem not_rounds_nearestOnGrid {k : ℕ} (hk : k < 5)
    (h : half.candidate? m (half.lead m - k) = none) :
    ¬half.Rounds (compare ((half.nearestOnGrid m (half.lead m - k) : ℚ) *
      10 ^ (half.lead m - k))) m := by
  intro hr
  have hmem : half.nearestOnGrid m (half.lead m - k) ∈ half.neighbours
      (half.onGrid m (half.lead m - k)).1 (half.onGrid m (half.lead m - k)).2 :=
    List.mem_singleton_self _
  have hpow : 10 ^ (k + 1) ≤ 10 ^ 5 := Nat.pow_le_pow_right (by omega) (by omega)
  have hle := le_of_mem_onGrid hmem
  exact candidate?_eq_none.mp h _ hmem ((readsBack_iff fun _ => by omega).mpr hr)

/-- That is enough in a symmetric interval. -/
theorem not_rounds_symm {k : ℕ} (hk : k < 5) (hm : m + 1 < half.infinity)
    (hsymm : ¬(2 ^ half.fractionBits ∣ m + 1 ∧ 2 * 2 ^ half.fractionBits ≤ m + 1))
    (h : half.candidate? (m + 1) (half.lead (m + 1) - k) = none) (c : ℕ) :
    ¬half.Rounds (compare ((c : ℚ) * 10 ^ (half.lead (m + 1) - k))) (m + 1) := fun hr =>
  not_rounds_nearestOnGrid hk h
    (hr.of_abs_sub_le hm (midpoint_symm hsymm) (half.abs_nearestOnGrid_sub_le_abs (m + 1) c _))

/-- A grid on which a neighbour is chosen if any is rounded to the magnitude. -/
def Complete (f : FloatFormat) (m : ℕ) (s : ℤ) : Prop :=
  f.candidate? m s = none →
    f.ofDecimal ((f.onGrid m s).1 / (f.onGrid m s).2) s ≠ m ∧
      f.ofDecimal ((f.onGrid m s).1 / (f.onGrid m s).2 + 1) s ≠ m

instance (f : FloatFormat) (m : ℕ) (s : ℤ) : Decidable (f.Complete m s) :=
  inferInstanceAs (Decidable (_ → _ ∧ _))

/-- The places of halves begin with the powers of two. All of their grids are complete, with the
exception of one. -/
theorem complete_half : ∀ e < 31, e < 2 ∨ e = 9 ∨
    ∀ k < 5, half.Complete (e * 2 ^ half.fractionBits)
      (half.lead (e * 2 ^ half.fractionBits) - (k : ℕ)) := by
  decide +kernel

theorem not_rounds_of_complete (hm : m ≤ f.infinity) (h : f.Complete m s)
    (hnone : f.candidate? m s = none) (c : ℕ) : ¬f.Rounds (compare ((c : ℚ) * 10 ^ s)) m := by
  intro hr
  obtain ⟨hfloor, hnext⟩ := h hnone
  rcases exists_beside hm hr with hb | hb
  · exact hfloor ((ofDecimal_rounds _ s).unique hb)
  · exact hnext ((ofDecimal_rounds _ s).unique hb)

/-- The half whose four digits are missed. -/
def missed : ℕ := 9 * 2 ^ half.fractionBits

/-- **A grid that was passed over** has no decimal of the number. -/
theorem not_rounds_of_candidate? {k : ℕ} (hm0 : 0 < m) (hm : m < f.infinity)
    (hk : f = half → k < 5) (hmissed : f = half → m ≠ missed)
    (h : f.candidate? m (f.lead m - k) = none) (c : ℕ) :
    ¬f.Rounds (compare ((c : ℚ) * 10 ^ (f.lead m - k))) m := by
  by_cases hf : f = half
  swap
  · exact not_rounds_full hf hm.le h c
  subst hf
  by_cases hsymm : 2 ^ half.fractionBits ∣ m ∧ 2 * 2 ^ half.fractionBits ≤ m
  · obtain ⟨⟨e, rfl⟩, hle⟩ := hsymm
    rw [mul_comm _ e] at *
    have hinf : half.infinity = 31 * 2 ^ half.fractionBits := rfl
    have hpos := Nat.two_pow_pos half.fractionBits
    have h2 : 2 ≤ e := Nat.le_of_mul_le_mul_right hle hpos
    have h31 : e < 31 := Nat.lt_of_mul_lt_mul_right (hinf ▸ hm)
    rcases complete_half e h31 with hlt | rfl | hcomplete
    · omega
    · exact absurd rfl (hmissed rfl)
    · exact not_rounds_of_complete hm.le (hcomplete k (hk rfl)) h c
  · obtain ⟨m, rfl⟩ : ∃ j, m = j + 1 := ⟨m - 1, by omega⟩
    exact not_rounds_symm (hk rfl) hm hsymm h c

/-! ## Decimals with few digits -/

/-- **A decimal with few digits** that is rounded to a number shows that there is one on the grid of
that many digits. -/
theorem exists_multiple {k : ℕ} {e : ℤ} (hm0 : 0 < m) (hm : m ≤ f.infinity) (hc : c < 10 ^ (k + 1))
    (h : f.Rounds (compare ((c : ℚ) * 10 ^ e)) m) :
    ∃ c' : ℕ, f.Rounds (compare ((c' : ℚ) * 10 ^ (f.lead m - k))) m := by
  have h10 : (10 : ℚ) ≠ 0 := by norm_num
  rcases le_or_gt (10 ^ f.lead m) ((c : ℚ) * 10 ^ e) with hge | hlt
  · -- its last digit is on the grid or above it
    have hc' : (c : ℚ) < 10 ^ (k + 1) := by exact_mod_cast hc
    have hexp : (10 : ℚ) ^ f.lead m < 10 ^ ((k + 1 : ℕ) + e) := by
      rw [zpow_add₀ h10, zpow_natCast]
      exact hge.trans_lt (mul_lt_mul_of_pos_right hc' (by positivity))
    have hle := (zpow_lt_zpow_iff_right₀ (by norm_num)).mp hexp
    obtain ⟨j, hj⟩ := Int.eq_ofNat_of_zero_le (show 0 ≤ e - (f.lead m - k) by omega)
    refine ⟨c * 10 ^ j, ?_⟩
    have hmul : ((c * 10 ^ j : ℕ) : ℚ) * 10 ^ (f.lead m - k) = c * 10 ^ e := by
      push_cast
      rw [mul_assoc, ← zpow_natCast, ← zpow_add₀ h10, ← hj]
      congr 2
      omega
    rwa [hmul]
  · -- it is so small that the power of ten lies between it and the number
    refine ⟨10 ^ k, ?_⟩
    have hpow : ((10 ^ k : ℕ) : ℚ) * 10 ^ (f.lead m - k) = 10 ^ f.lead m := by
      push_cast
      rw [← zpow_natCast, ← zpow_add₀ h10]
      congr 1
      omega
    rw [hpow]
    exact h.between (rounds_self hm) hlt.le (f.le_value hm0)

/-- **Five digits are enough for a half.** -/
theorem candidate?_half (hm0 : 0 < m) (hm : m < half.infinity) :
    half.candidate? m (half.lead m - (4 : ℕ)) ≠ none := by
  intro h
  obtain ⟨m, rfl⟩ : ∃ j, m = j + 1 := ⟨m - 1, by omega⟩
  refine not_rounds_nearestOnGrid (by omega) h (rounds_of_abs_sub_lt hm.le ?_)
  have hle := half.le_value hm0
  have hv : 0 < half.value (m + 1) := (zpow_pos (by norm_num) _).trans_le hle
  have hfb : half.fractionBits + 2 = 12 := rfl
  rw [hfb]
  calc _ ≤ 1 / 2 * (10 : ℚ) ^ (half.lead (m + 1) - (4 : ℕ)) := half.abs_nearestOnGrid_sub_le _ _
    _ = 1 / 2 * (10 ^ half.lead (m + 1) / 10 ^ 4) := by rw [zpow_sub₀ (by norm_num), zpow_natCast]
    _ ≤ 1 / 2 * (half.value (m + 1) / 10 ^ 4) := by gcongr
    _ < half.value (m + 1) / 2 ^ 12 := by
        rw [lt_div_iff₀ (by norm_num)]
        linarith

/-! ## The fewest digits -/

/-- All grids under a number of digits were passed over, and what was found has no more digits. -/
theorem exists_passed (hm0 : 0 < m) (hm : m < f.infinity) :
    ∃ j, (f = half → j ≤ 4) ∧ (f.shortest m).1 ≤ 10 ^ (j + 1) ∧
      ∀ k < j, f.candidate? m (f.lead m - (k : ℕ)) = none := by
  have hfound : ∀ {limit}, f.search? m limit = some (f.shortest m) →
      ∃ j < limit, (f.shortest m).1 ≤ 10 ^ (j + 1) ∧
        ∀ k < j, f.candidate? m (f.lead m - (k : ℕ)) = none := by
    intro limit h
    obtain ⟨j, hj, hs, hc, hbefore⟩ := search?_eq_some h
    rw [hs] at hc
    exact ⟨j, hj, candidate?_le hc, hbefore⟩
  by_cases hf : f = half
  · subst hf
    obtain ⟨found, hsome⟩ : ∃ found, half.search? m 5 = some found := by
      rw [← Option.ne_none_iff_exists']
      exact fun hnone => candidate?_half hm0 hm (search?_eq_none hnone 4 (by omega))
    have hshortest : half.search? m 5 = some (half.shortest m) := by
      rw [hsome]
      simp only [shortest, hsome, Option.getD_some]
    obtain ⟨j, hj, hle, hbefore⟩ := hfound hshortest
    exact ⟨j, fun _ => by omega, hle, hbefore⟩
  · have hfull := shortest_of_ne_half (m := m) hf
    rcases hs : f.search? m (Numeral.digitCount (f.units m * 5 ^ f.unitExponent)) with _ | found
    · refine ⟨Numeral.digitCount (f.units m * 5 ^ f.unitExponent), fun h => absurd h hf, ?_,
        search?_eq_none hs⟩
      rw [hfull, shortestFull, hs, Option.getD_none]
      exact (Numeral.lt_pow_digitCount (f.units m * 5 ^ f.unitExponent)).le.trans
        (Nat.pow_le_pow_right (by omega) (by omega))
    · have hshortest : f.shortest m = found := by
        rw [hfull, shortestFull, hs, Option.getD_some]
      rw [← hshortest] at hs
      obtain ⟨j, -, hle, hbefore⟩ := hfound hs
      exact ⟨j, fun h => absurd h hf, hle, hbefore⟩

/-- **No decimal with fewer digits is rounded to the number.** -/
theorem shortest_minimal (hm0 : 0 < m) (hm : m < f.infinity) (hmissed : f = half → m ≠ missed) :
    ∃ j, 0 < j ∧ (f = half → j ≤ 5) ∧ (f.shortest m).1 ≤ 10 ^ j ∧
      ∀ i < j, ∀ c : ℕ, c < 10 ^ i → ∀ e : ℤ, ¬f.Rounds (compare ((c : ℚ) * 10 ^ e)) m := by
  obtain ⟨j, hj, hle, hpassed⟩ := exists_passed hm0 hm
  refine ⟨j + 1, Nat.succ_pos j, fun h => Nat.succ_le_succ (hj h), hle, fun i hi c hc e hr => ?_⟩
  cases i with
  | zero =>
    obtain rfl : c = 0 := Nat.lt_one_iff.mp hc
    exact hr.pos hm0 (by simp)
  | succ k =>
    have hkj : k < j := Nat.lt_of_succ_lt_succ hi
    obtain ⟨c', hr'⟩ := exists_multiple hm0 hm.le hc hr
    exact not_rounds_of_candidate? hm0 hm (fun h => Nat.lt_succ_of_le (hkj.le.trans (hj h))) hmissed
      (hpassed k hkj) c' hr'

end LiteralCodec.FloatFormat
