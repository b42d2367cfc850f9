import LiteralCodec.Proofs.Float.Value
import LiteralCodec.Rounding
import Mathlib.Algebra.Order.Group.Unbundled.Abs
import Mathlib.Data.Nat.Cast.Order.Field
import Mathlib.Order.Compare

/-!
# Rounding to nearest, ties to even

`IsNearest f x m` is the rule of rounding: no magnitude is nearer to `x` than `m`, and if another
one is as near, then `m` is even. Infinity takes part with the value that `FloatFormat.value` gives
it, so a number is rounded to infinity from halfway between the largest finite number and the power
of two that follows it.

The proofs use the local form `Rounds f order m`: the number lies between the two midpoints next to
`m`, and on one of them only if `m` is even. Nothing is asked of the number but its `order` with
midpoints, so the rule also makes sense for a number that is known up to a nudge: `beside x tie` is
the order of a number that equals `x` in all comparisons but the one with `x` itself, where `tie`
decides.

Results:
* `Rounds.isNearest`: the local form gives the rule.
* `Rounds.unique`, `IsNearest.unique`: a number is rounded to one magnitude only.
* `rounds_place`: rounding a significand rounds the number, the carry and the overflow included.
* `rounds_value`: a number of the format is rounded to itself.
* `Rounds.le_of_value_le`, `Rounds.le_of_le_value`: rounding does not pass a number of the format.
* `Rounds.abs_sub_le`: the relative error of rounding to a normal number.
-/

namespace LiteralCodec.FloatFormat

variable {f : FloatFormat}

/-! ## The rule and its local form -/

/-- `m` is the magnitude nearest to `x`, the even one of two that are equally near. -/
structure IsNearest (f : FloatFormat) (x : ℚ) (m : ℕ) : Prop where
  le_infinity : m ≤ f.infinity
  nearest : ∀ k ≤ f.infinity, |x - f.value m| ≤ |x - f.value k|
  even : ∀ k ≤ f.infinity, k ≠ m → |x - f.value k| = |x - f.value m| → m % 2 = 0

/-- The order of a number and `c`, where the number is told from `x` by `tie` only. -/
def beside (x : ℚ) (tie : Ordering) (c : ℚ) : Ordering := (compare x c).then tie

/-- A number with this `order` lies between the midpoints next to `m`, and on one only if `m` is
even. -/
structure Rounds (f : FloatFormat) (order : ℚ → Ordering) (m : ℕ) : Prop where
  le_infinity : m ≤ f.infinity
  above : ∀ k, m = k + 1 → order (f.midpoint k) = .gt ∨ order (f.midpoint k) = .eq ∧ m % 2 = 0
  below : m < f.infinity → order (f.midpoint m) = .lt ∨ order (f.midpoint m) = .eq ∧ m % 2 = 0

theorem beside_of_lt {x c : ℚ} (tie : Ordering) (h : x < c) : beside x tie c = .lt := by
  rw [beside, compare_lt_iff_lt.mpr h, Ordering.lt_then]

theorem beside_of_gt {x c : ℚ} (tie : Ordering) (h : c < x) : beside x tie c = .gt := by
  rw [beside, compare_gt_iff_gt.mpr h, Ordering.gt_then]

theorem beside_self (x : ℚ) (tie : Ordering) : beside x tie x = tie := by
  rw [beside, compare_eq_iff_eq.mpr rfl, Ordering.eq_then]

theorem beside_eq (x c : ℚ) : beside x .eq c = compare x c := by
  rw [beside, Ordering.then_eq]

theorem beside_eq_compare (x : ℚ) : beside x .eq = compare x :=
  funext (beside_eq x)

/-- Only the order with midpoints counts. -/
theorem Rounds.congr {order order' : ℚ → Ordering} {m : ℕ} (h : f.Rounds order m)
    (ho : ∀ k < f.infinity, order (f.midpoint k) = order' (f.midpoint k)) : f.Rounds order' m := by
  refine ⟨h.le_infinity, fun k hk => ?_, fun hm => ?_⟩
  · have := h.le_infinity
    rw [← ho k (by omega)]
    exact h.above k hk
  · rw [← ho m hm]
    exact h.below hm

/-- A number rounded to `m` is not below the midpoint under `m`, however it is nudged. -/
theorem Rounds.midpoint_le_of_beside {x : ℚ} {tie : Ordering} {k : ℕ}
    (h : f.Rounds (beside x tie) (k + 1)) : f.midpoint k ≤ x := by
  by_contra hlt
  have habove := h.above k rfl
  rw [beside_of_lt tie (not_le.mp hlt)] at habove
  rcases habove with h | ⟨h, -⟩ <;> cases h

/-- A number rounded to `m` is not above the midpoint over `m`. -/
theorem Rounds.le_midpoint_of_beside {x : ℚ} {tie : Ordering} {m : ℕ}
    (h : f.Rounds (beside x tie) m) (hm : m < f.infinity) : x ≤ f.midpoint m := by
  by_contra hgt
  have hbelow := h.below hm
  rw [beside_of_gt tie (not_le.mp hgt)] at hbelow
  rcases hbelow with h | ⟨h, -⟩ <;> cases h

theorem Rounds.midpoint_le {x : ℚ} {k : ℕ} (h : f.Rounds (compare x) (k + 1)) :
    f.midpoint k ≤ x := by
  rw [← beside_eq_compare] at h
  exact h.midpoint_le_of_beside

theorem Rounds.le_midpoint {x : ℚ} {m : ℕ} (h : f.Rounds (compare x) m) (hm : m < f.infinity) :
    x ≤ f.midpoint m := by
  rw [← beside_eq_compare] at h
  exact h.le_midpoint_of_beside hm

/-- **A number is rounded to one magnitude only.** -/
theorem Rounds.unique {x : ℚ} {m n : ℕ} (hm : f.Rounds (compare x) m)
    (hn : f.Rounds (compare x) n) : m = n := by
  wlog hlt : m < n generalizing m n
  · rcases Nat.lt_or_ge n m with h | h
    · exact (this hn hm h).symm
    · omega
  exfalso
  obtain ⟨k, rfl⟩ : ∃ k, n = k + 1 := ⟨n - 1, by omega⟩
  have hmi : m < f.infinity := hlt.trans_le hn.le_infinity
  have h₁ := hm.le_midpoint hmi
  have h₂ := hn.midpoint_le
  have hmono := f.midpoint_strictMono.monotone (show m ≤ k by omega)
  have hx : x = f.midpoint m := le_antisymm h₁ (hmono.trans h₂)
  have hk : m = k := f.midpoint_strictMono.injective (le_antisymm hmono (h₂.trans h₁))
  -- on the midpoint between neighbours both would have to be even
  have he : compare x (f.midpoint m) = .eq := compare_eq_iff_eq.mpr hx
  have hm2 : m % 2 = 0 := by
    rcases hm.below hmi with h | ⟨-, h⟩
    · rw [he] at h; cases h
    · exact h
  have hn2 : (k + 1) % 2 = 0 := by
    rcases hn.above k rfl with h | ⟨-, h⟩
    · rw [← hk, he] at h; cases h
    · exact h
  omega

/-- **Between the midpoints next to a magnitude** no other magnitude is nearer. -/
theorem Rounds.abs_sub_value_le {x : ℚ} {tie : Ordering} {m k : ℕ}
    (h : f.Rounds (beside x tie) m) (hk : k ≤ f.infinity) :
    |x - f.value m| ≤ |x - f.value k| := by
  rcases Nat.lt_trichotomy m k with hlt | rfl | hlt
  · have hmid := h.le_midpoint_of_beside (hlt.trans_le hk)
    have hv : f.value (m + 1) ≤ f.value k := f.value_strictMono.monotone hlt
    have hm := f.value_strictMono (Nat.lt_succ_self m)
    unfold midpoint at hmid
    rw [abs_sub_comm x (f.value k), abs_of_nonneg (show 0 ≤ f.value k - x by linarith)]
    exact abs_le.mpr ⟨by linarith, by linarith⟩
  · exact le_refl _
  · obtain ⟨j, rfl⟩ : ∃ j, m = j + 1 := ⟨m - 1, by omega⟩
    have hmid := h.midpoint_le_of_beside
    have hv : f.value k ≤ f.value j := f.value_strictMono.monotone (by omega)
    have hm := f.value_strictMono (Nat.lt_succ_self j)
    unfold midpoint at hmid
    rw [abs_of_nonneg (show 0 ≤ x - f.value k by linarith)]
    exact abs_le.mpr ⟨by linarith, by linarith⟩

/-- Only an even magnitude has another one above that is as near. -/
theorem Rounds.even_of_gt {x : ℚ} {m k : ℕ} (h : f.Rounds (compare x) m) (hk : k ≤ f.infinity)
    (hlt : m < k) (heq : x - f.value m = f.value k - x) : m % 2 = 0 := by
  have hv : f.value (m + 1) ≤ f.value k := f.value_strictMono.monotone hlt
  rcases h.below (hlt.trans_le hk) with h | ⟨-, he⟩
  · have hmid := compare_lt_iff_lt.mp h
    unfold midpoint at hmid
    linarith
  · exact he

theorem Rounds.even_of_lt {x : ℚ} {m k : ℕ} (h : f.Rounds (compare x) m) (hlt : k < m)
    (heq : f.value m - x = x - f.value k) : m % 2 = 0 := by
  obtain ⟨j, rfl⟩ : ∃ j, m = j + 1 := ⟨m - 1, by omega⟩
  have hv : f.value k ≤ f.value j := f.value_strictMono.monotone (by omega)
  rcases h.above j rfl with h | ⟨-, he⟩
  · have hmid := compare_gt_iff_gt.mp h
    unfold midpoint at hmid
    linarith
  · exact he

/-- **The local form gives the rule.** -/
theorem Rounds.isNearest {x : ℚ} {m : ℕ} (h : f.Rounds (compare x) m) : f.IsNearest x m := by
  have hbeside : f.Rounds (beside x .eq) m := by rwa [beside_eq_compare]
  refine ⟨h.le_infinity, fun k hk => hbeside.abs_sub_value_le hk, fun k hk hne heq => ?_⟩
  rcases Nat.lt_or_gt_of_ne hne with hlt | hlt
  · have hv := f.value_strictMono hlt
    refine h.even_of_lt hlt ?_
    rcases abs_eq_abs.mp heq with e | e <;> linarith
  · have hv := f.value_strictMono hlt
    refine h.even_of_gt hk hlt ?_
    rcases abs_eq_abs.mp heq with e | e <;> linarith

/-- The rule leaves one magnitude: the values between two that are equally near would be nearer. -/
theorem IsNearest.unique {x : ℚ} {m n : ℕ} (hm : f.IsNearest x m) (hn : f.IsNearest x n) :
    m = n := by
  wlog hlt : m < n generalizing m n
  · rcases Nat.lt_or_ge n m with h | h
    · exact (this hn hm h).symm
    · omega
  exfalso
  have heq : |x - f.value n| = |x - f.value m| :=
    le_antisymm (hn.nearest m hm.le_infinity) (hm.nearest n hn.le_infinity)
  have hv := f.value_strictMono hlt
  have hx : x - f.value m = f.value n - x := by
    rcases abs_eq_abs.mp heq with e | e <;> linarith
  have hm2 := hm.even n hn.le_infinity (by omega) heq
  have hn2 := hn.even m hm.le_infinity (by omega) heq.symm
  have hlt₁ := f.value_strictMono (Nat.lt_succ_self m)
  have hlt₂ : f.value (m + 1) < f.value n := f.value_strictMono (by omega)
  have hle := hm.nearest (m + 1) (hlt.trans_le hn.le_infinity)
  rw [abs_of_nonneg (show 0 ≤ x - f.value m by linarith)] at hle
  rcases le_abs.mp hle with h | h <;> linarith

/-! ## Rounding a quotient -/

theorem div_lt_succ (n : ℕ) {d : ℕ} (hd : 0 < d) : (n : ℚ) / d < (n / d : ℕ) + 1 := by
  rw [div_lt_iff₀ (by exact_mod_cast hd)]
  exact_mod_cast (Nat.div_lt_iff_lt_mul hd).mp (Nat.lt_succ_self (n / d))

/-- The remainder tells on which side of the halfway point a quotient lies. -/
theorem compare_halfway (n : ℕ) {d : ℕ} (hd : 0 < d) :
    compare ((n : ℚ) / d) ((n / d : ℕ) + 1 / 2) = compare (2 * (n % d)) d := by
  have hdq : (0 : ℚ) < d := by exact_mod_cast hd
  have hdm : (d : ℚ) * (n / d : ℕ) + (n % d : ℕ) = n := by exact_mod_cast Nat.div_add_mod n d
  rcases Nat.lt_trichotomy (2 * (n % d)) d with hr | hr | hr
  · have hr' : 2 * ((n % d : ℕ) : ℚ) < d := by exact_mod_cast hr
    rw [Nat.compare_eq_lt.mpr hr, compare_lt_iff_lt, div_lt_iff₀ hdq]
    linarith
  · have hr' : 2 * ((n % d : ℕ) : ℚ) = d := by exact_mod_cast hr
    rw [Nat.compare_eq_eq.mpr hr, compare_eq_iff_eq, div_eq_iff hdq.ne']
    linarith
  · have hr' : (d : ℚ) < 2 * ((n % d : ℕ) : ℚ) := by exact_mod_cast hr
    rw [Nat.compare_eq_gt.mpr hr, compare_gt_iff_gt, lt_div_iff₀ hdq]
    linarith

/-- A quotient is rounded down below the halfway point, up above it, and on it to the even side. -/
theorem roundQuotient_cases (tie : Ordering) (n : ℕ) {d : ℕ} (hd : 0 < d) :
    (beside ((n : ℚ) / d) tie ((n / d : ℕ) + 1 / 2) = .lt ∧ roundQuotient tie n d = n / d) ∨
    (beside ((n : ℚ) / d) tie ((n / d : ℕ) + 1 / 2) = .gt ∧ roundQuotient tie n d = n / d + 1) ∨
    (beside ((n : ℚ) / d) tie ((n / d : ℕ) + 1 / 2) = .eq ∧
      roundQuotient tie n d = n / d + n / d % 2) := by
  rw [beside, compare_halfway n hd, roundQuotient]
  cases compare (2 * (n % d)) d with
  | lt => exact Or.inl ⟨rfl, rfl⟩
  | gt => exact Or.inr (Or.inl ⟨rfl, rfl⟩)
  | eq =>
    cases tie with
    | lt => exact Or.inl ⟨rfl, rfl⟩
    | gt => exact Or.inr (Or.inl ⟨rfl, rfl⟩)
    | eq =>
      refine Or.inr (Or.inr ⟨rfl, ?_⟩)
      rcases Nat.mod_two_eq_zero_or_one (n / d) with h | h <;> simp [roundsUp, h]

/-- A quotient that is rounded to `q` is not above `q + 1 / 2`, and on it only if `q` is even. -/
theorem roundQuotient_below {tie : Ordering} {n d q : ℕ} (hd : 0 < d)
    (h : roundQuotient tie n d = q) :
    beside ((n : ℚ) / d) tie (q + 1 / 2) = .lt ∨
      beside ((n : ℚ) / d) tie (q + 1 / 2) = .eq ∧ q % 2 = 0 := by
  have hlt := div_lt_succ n hd
  have hup : q = n / d + 1 → beside ((n : ℚ) / d) tie (q + 1 / 2) = .lt := fun e => by
    refine beside_of_lt tie ?_
    rw [e]
    push_cast
    linarith
  rcases roundQuotient_cases tie n hd with ⟨hb, hq⟩ | ⟨hb, hq⟩ | ⟨hb, hq⟩ <;> rw [hq] at h
  · rw [← h]
    exact Or.inl hb
  · exact Or.inl (hup h.symm)
  · rcases Nat.mod_two_eq_zero_or_one (n / d) with he | he <;> rw [he] at h
    · rw [← h]
      exact Or.inr ⟨hb, he⟩
    · exact Or.inl (hup h.symm)

/-- A quotient that is rounded to `q + 1` is not below `q + 1 / 2`, and on it only if `q + 1` is
even. -/
theorem roundQuotient_above {tie : Ordering} {n d q : ℕ} (hd : 0 < d)
    (h : roundQuotient tie n d = q + 1) :
    beside ((n : ℚ) / d) tie (q + 1 / 2) = .gt ∨
      beside ((n : ℚ) / d) tie (q + 1 / 2) = .eq ∧ (q + 1) % 2 = 0 := by
  have hle : ((n / d : ℕ) : ℚ) ≤ n / d := Nat.cast_div_le
  have hdown : n / d = q + 1 → beside ((n : ℚ) / d) tie (q + 1 / 2) = .gt := fun e => by
    refine beside_of_gt tie ?_
    rw [e] at hle
    push_cast at hle
    linarith
  rcases roundQuotient_cases tie n hd with ⟨hb, hq⟩ | ⟨hb, hq⟩ | ⟨hb, hq⟩ <;> rw [hq] at h
  · exact Or.inl (hdown h)
  · rw [← Nat.succ.inj h]
    exact Or.inl hb
  · rcases Nat.mod_two_eq_zero_or_one (n / d) with he | he
    · rw [he] at h
      exact Or.inl (hdown h)
    · rw [he] at h
      rw [← Nat.succ.inj h]
      exact Or.inr ⟨hb, by omega⟩

/-! ## Rounding a number -/

theorem beside_mul_right {x c p : ℚ} (tie : Ordering) (hp : 0 < p) :
    beside (x * p) tie (c * p) = beside x tie c := by
  rcases lt_trichotomy x c with h | rfl | h
  · rw [beside_of_lt tie h, beside_of_lt tie (mul_lt_mul_of_pos_right h hp)]
  · rw [beside_self, beside_self]
  · rw [beside_of_gt tie h, beside_of_gt tie (mul_lt_mul_of_pos_right h hp)]

/-- A number of the format is rounded to itself, whichever way it is nudged. -/
theorem rounds_value {m : ℕ} (hm : m ≤ f.infinity) (tie : Ordering) :
    f.Rounds (beside (f.value m) tie) m := by
  refine ⟨hm, fun k hk => ?_, fun _ => ?_⟩
  · rw [hk]
    exact Or.inl (beside_of_gt tie (f.midpoint_lt_value k))
  · exact Or.inl (beside_of_lt tie (f.value_lt_midpoint m))

/-- Rounding keeps the order with the numbers of the format. -/
theorem Rounds.le_of_value_le {x : ℚ} {m k : ℕ} (h : f.Rounds (compare x) m) (hk : k ≤ f.infinity)
    (hx : f.value k ≤ x) : k ≤ m := by
  by_contra hlt
  have hm : m < f.infinity := by omega
  have hv : f.value (m + 1) ≤ f.value k := f.value_strictMono.monotone (by omega)
  have := f.midpoint_lt_value m
  have := h.le_midpoint hm
  linarith

theorem Rounds.le_of_le_value {x : ℚ} {m k : ℕ} (h : f.Rounds (compare x) m)
    (hx : x ≤ f.value k) : m ≤ k := by
  by_contra hlt
  obtain ⟨j, rfl⟩ : ∃ j, m = j + 1 := ⟨m - 1, by omega⟩
  have hv : f.value k ≤ f.value j := f.value_strictMono.monotone (by omega)
  have := f.value_lt_midpoint j
  have := h.midpoint_le
  linarith

/-- A normal number is near to what is rounded to it. -/
theorem Rounds.abs_sub_le {x : ℚ} {m : ℕ} (h : f.Rounds (compare x) m) (hm : m < f.infinity)
    (hn : 2 ^ f.fractionBits ≤ m) :
    |x - f.value m| ≤ f.value m / 2 ^ (f.fractionBits + 1) := by
  obtain ⟨k, s, rfl, hs, hlt⟩ := f.exists_place m
  have hs0 : 2 ^ f.fractionBits ≤ s := by
    rcases hs with rfl | hs
    · omega
    · exact hs
  obtain ⟨r, rfl⟩ : ∃ r, s = r + 1 := ⟨s - 1, by have := Nat.two_pow_pos f.fractionBits; omega⟩
  obtain ⟨step, hstep⟩ : ∃ step : ℚ, step = 2 ^ k / 2 ^ f.unitExponent := ⟨_, rfl⟩
  have hpos : 0 < step := by
    rw [hstep]
    positivity
  have hv := value_place hs hlt.le
  have hmid := midpoint_place hs hlt
  have hpred := le_value_pred hs hlt
  rw [mul_div_assoc, ← hstep] at hv hmid hpred
  have hhi := h.le_midpoint hm
  have hlo : f.midpoint (k * 2 ^ f.fractionBits + r) ≤ x := h.midpoint_le
  unfold midpoint at hlo
  rw [add_assoc] at hlo
  have hbound :
      step / 2 ≤ f.value (k * 2 ^ f.fractionBits + (r + 1)) / 2 ^ (f.fractionBits + 1) := by
    have hs1 : (2 : ℚ) ^ f.fractionBits ≤ (r + 1 : ℕ) := by exact_mod_cast hs0
    rw [hv, le_div_iff₀ (by positivity), pow_succ]
    nlinarith
  push_cast at hv hmid
  rw [abs_le]
  constructor <;> linarith

/-- What lies between the midpoints next to a magnitude past infinity is rounded to infinity. -/
theorem rounds_min {x : ℚ} {tie : Ordering} {m : ℕ}
    (above : ∀ k, m = k + 1 → beside x tie (f.midpoint k) = .gt ∨
      beside x tie (f.midpoint k) = .eq ∧ m % 2 = 0)
    (below : beside x tie (f.midpoint m) = .lt ∨ beside x tie (f.midpoint m) = .eq ∧ m % 2 = 0) :
    f.Rounds (beside x tie) (min m f.infinity) := by
  rcases Nat.le_total m f.infinity with hm | hm
  · rw [min_eq_left hm]
    exact ⟨hm, above, fun _ => below⟩
  · rw [min_eq_right hm]
    refine ⟨le_refl _, fun k hk => ?_, fun h => absurd h (lt_irrefl _)⟩
    rcases hm.eq_or_lt with he | hlt
    · rw [he]
      exact above k (by omega)
    · obtain ⟨j, rfl⟩ : ∃ j, m = j + 1 := ⟨m - 1, by omega⟩
      have hmid : f.midpoint k < f.midpoint j := f.midpoint_strictMono (by omega)
      refine Or.inl (beside_of_gt tie (hmid.trans_le ?_))
      by_contra hx
      have hj := above j rfl
      rw [beside_of_lt tie (not_le.mp hx)] at hj
      rcases hj with h | ⟨h, -⟩ <;> cases h

/-- **Rounding a significand rounds the number.** The significand is the quotient `n / d`, and the
number is that many steps of the place `k`. -/
theorem rounds_place (tie : Ordering) {n d k : ℕ} (hd : 0 < d)
    (hs : f.IsSignificand k (n / d)) (hlt : n / d < 2 ^ (f.fractionBits + 1)) :
    f.Rounds (beside ((n : ℚ) / d * (2 ^ k / 2 ^ f.unitExponent)) tie)
      (min (k * 2 ^ f.fractionBits + roundQuotient tie n d) f.infinity) := by
  have hp : (0 : ℚ) < 2 ^ k / 2 ^ f.unitExponent := by positivity
  have hpar : 2 ^ f.fractionBits % 2 = 0 := by
    obtain ⟨b, hb⟩ := Nat.exists_eq_succ_of_ne_zero f.fractionBits_pos.ne'
    rw [hb, pow_succ, Nat.mul_mod_left]
  have hparity : ∀ q, (k * 2 ^ f.fractionBits + q) % 2 = q % 2 := fun q => by
    rw [Nat.add_mod, Nat.mul_mod, hpar, mul_zero, Nat.zero_mod, zero_add, Nat.mod_mod]
  have hfloor : ((n / d : ℕ) : ℚ) ≤ n / d := Nat.cast_div_le
  obtain ⟨q, hq⟩ : ∃ q, roundQuotient tie n d = q := ⟨_, rfl⟩
  have hdiv := roundQuotient_eq_div_or tie n d
  have hsq : f.IsSignificand k q := hs.imp_right fun h => by omega
  rw [hq] at hdiv ⊢
  apply rounds_min
  · intro j hj
    rcases Nat.eq_zero_or_pos q with rfl | hq0
    · -- a significand of zero is that of zero
      rcases hsq with rfl | hsq
      · omega
      · have := Nat.two_pow_pos f.fractionBits
        omega
    obtain ⟨p, rfl⟩ : ∃ p, q = p + 1 := ⟨q - 1, by omega⟩
    by_cases hsp : f.IsSignificand k p
    · obtain rfl : j = k * 2 ^ f.fractionBits + p := by omega
      rw [midpoint_place hsp (by omega), mul_div_assoc, beside_mul_right tie hp, hparity]
      exact roundQuotient_above hd hq
    · -- the least significand with a leading bit: the number is not below it
      simp only [IsSignificand, not_or, not_le] at hsp
      have hp1 : p + 1 = 2 ^ f.fractionBits := by
        rcases hsq with h | h <;> omega
      have hnd : 2 ^ f.fractionBits ≤ n / d := by
        rcases hs with h | h
        · exact absurd h hsp.1
        · exact h
      refine Or.inl (beside_of_gt tie ((f.midpoint_lt_value j).trans_le ?_))
      rw [← hj, value_place hsq (by rw [hp1, pow_succ]; omega), mul_div_assoc]
      refine mul_le_mul_of_nonneg_right (le_trans ?_ hfloor) hp.le
      exact_mod_cast hp1.trans_le hnd
  · by_cases hq1 : q < 2 ^ (f.fractionBits + 1)
    · rw [midpoint_place hsq hq1, mul_div_assoc, beside_mul_right tie hp, hparity]
      exact roundQuotient_below hd hq
    · -- the carry: the number is below the next step
      have hqe : q = n / d + 1 := by omega
      have hlt' : (n : ℚ) / d < q := by
        rw [hqe]
        exact_mod_cast div_lt_succ n hd
      refine Or.inl (beside_of_lt tie (lt_trans ?_ (f.value_lt_midpoint _)))
      rw [value_place hsq (by omega), mul_div_assoc]
      exact mul_lt_mul_of_pos_right hlt' hp

end LiteralCodec.FloatFormat
