import LiteralCodec.Proofs.Float.Rounds

/-!
# Rounding with an answer for ties

A number on a midpoint is as near to the magnitude below as to the one above. What decides between
them is an answer: down, up, or to the even one. `IsNearestBy f x h` says that `h`, for every
answer, is a magnitude nearest to `x`, that on a midpoint it follows the answer, and that off the
midpoints the answer does not count. It is what the local form `Rounds` says of a number nudged in
the three ways.

Results:
* `isNearestBy_of_rounds`: the local form, nudged in all ways, gives the rule.
* `Rounds.unique_of_beside`, `Rounds.mono`: one magnitude for each answer, and larger ones for
  larger numbers.
* `IsNearestBy.ne_iff_exists_midpoint`: the answer counts on midpoints only.
-/

namespace LiteralCodec.FloatFormat

variable {f : FloatFormat} {x y : ℚ} {m n k : ℕ} {tie tie' : Ordering}

/-! ## The rule -/

/-- For every answer, `h` is a magnitude nearest to `x`, on a midpoint the one that the answer
chooses. -/
structure IsNearestBy (f : FloatFormat) (x : ℚ) (h : Ordering → ℕ) : Prop where
  le_infinity : ∀ tie, h tie ≤ f.infinity
  nearest : ∀ tie, ∀ k ≤ f.infinity, |x - f.value (h tie)| ≤ |x - f.value k|
  down : ∀ k < f.infinity, x = f.midpoint k → h .lt = k
  up : ∀ k < f.infinity, x = f.midpoint k → h .gt = k + 1
  even : ∀ k < f.infinity, x = f.midpoint k → (h .eq = k ∨ h .eq = k + 1) ∧ h .eq % 2 = 0
  settled : (∀ k < f.infinity, x ≠ f.midpoint k) → ∀ tie tie', h tie = h tie'

/-! ## Different numbers -/

/-- **Rounding keeps the order of numbers**, however they are nudged. -/
theorem Rounds.le_of_lt (hx : f.Rounds (beside x tie) m) (hy : f.Rounds (beside y tie') n)
    (hlt : x < y) : m ≤ n := by
  by_contra hgt
  obtain ⟨j, rfl⟩ : ∃ j, m = j + 1 := ⟨m - 1, by omega⟩
  have hn : n < f.infinity := by
    have := hx.le_infinity
    omega
  have hmono := f.midpoint_strictMono.monotone (show n ≤ j by omega)
  have hlo := hx.midpoint_le_of_beside
  have hhi := hy.le_midpoint_of_beside hn
  linarith

/-! ## On a midpoint -/

/-- A number on a midpoint is rounded to one of its neighbours. -/
theorem Rounds.eq_or_of_midpoint (hk : k < f.infinity)
    (h : f.Rounds (beside (f.midpoint k) tie) m) :
    m = k ∨ m = k + 1 := by
  have hle : m ≤ k + 1 := by
    by_contra hgt
    obtain ⟨j, rfl⟩ : ∃ j, m = j + 1 := ⟨m - 1, by omega⟩
    have := f.midpoint_strictMono (show k < j by omega)
    exact absurd h.midpoint_le_of_beside (not_le.mpr this)
  have hge : k ≤ m := by
    by_contra hlt
    have := f.midpoint_strictMono (show m < k by omega)
    exact absurd (h.le_midpoint_of_beside (by omega)) (not_le.mpr this)
  omega

theorem Rounds.midpoint_down (hk : k < f.infinity) (h : f.Rounds (beside (f.midpoint k) .lt) m) :
    m = k := by
  refine (h.eq_or_of_midpoint hk).resolve_right fun hm => ?_
  have habove := h.above k hm
  rw [beside_self] at habove
  rcases habove with h | ⟨h, -⟩ <;> cases h

theorem Rounds.midpoint_up (hk : k < f.infinity) (h : f.Rounds (beside (f.midpoint k) .gt) m) :
    m = k + 1 := by
  refine (h.eq_or_of_midpoint hk).resolve_left fun hm => ?_
  subst hm
  have hbelow := h.below hk
  rw [beside_self] at hbelow
  rcases hbelow with h | ⟨h, -⟩ <;> cases h

theorem Rounds.midpoint_even (hk : k < f.infinity) (h : f.Rounds (beside (f.midpoint k) .eq) m) :
    m % 2 = 0 := by
  rcases h.eq_or_of_midpoint hk with rfl | rfl
  · rcases h.below hk with hlt | ⟨-, he⟩
    · rw [beside_self] at hlt
      cases hlt
    · exact he
  · rcases h.above k rfl with hgt | ⟨-, he⟩
    · rw [beside_self] at hgt
      cases hgt
    · exact he

/-! ## Nudged numbers -/

theorem beside_of_ne {c : ℚ} (tie : Ordering) (h : x ≠ c) : beside x tie c = compare x c := by
  rcases lt_or_gt_of_ne h with hlt | hlt
  · rw [beside_of_lt tie hlt, compare_lt_iff_lt.mpr hlt]
  · rw [beside_of_gt tie hlt, compare_gt_iff_gt.mpr hlt]

/-- Off the midpoints a nudge changes nothing. -/
theorem Rounds.of_ne_midpoint (hx : ∀ k < f.infinity, x ≠ f.midpoint k)
    (h : f.Rounds (beside x tie) m) : f.Rounds (compare x) m :=
  h.congr fun k hk => beside_of_ne tie (hx k hk)

/-- **A number is rounded to one magnitude only**, if it is nudged in one way. -/
theorem Rounds.unique_of_beside (hm : f.Rounds (beside x tie) m) (hn : f.Rounds (beside x tie) n) :
    m = n := by
  by_cases hx : ∃ k < f.infinity, x = f.midpoint k
  · obtain ⟨k, hk, rfl⟩ := hx
    have hm' := hm.eq_or_of_midpoint hk
    have hn' := hn.eq_or_of_midpoint hk
    cases tie with
    | lt => rw [hm.midpoint_down hk, hn.midpoint_down hk]
    | gt => rw [hm.midpoint_up hk, hn.midpoint_up hk]
    | eq =>
      have := hm.midpoint_even hk
      have := hn.midpoint_even hk
      omega
  · push Not at hx
    exact (hm.of_ne_midpoint hx).unique (hn.of_ne_midpoint hx)

/-- **Rounding is monotone.** Equal numbers must be nudged in one way for that, others need not. -/
theorem Rounds.mono (hm : f.Rounds (beside x tie) m) (hn : f.Rounds (beside y tie') n)
    (hle : x < y ∨ x = y ∧ tie = tie') : m ≤ n := by
  rcases hle with hlt | ⟨rfl, rfl⟩
  · exact hm.le_of_lt hn hlt
  · exact (hm.unique_of_beside hn).le

/-! ## All answers -/

variable {h : Ordering → ℕ}

/-- **The local form, nudged in all ways, gives the rule.** -/
theorem isNearestBy_of_rounds (hr : ∀ tie, f.Rounds (beside x tie) (h tie)) :
    f.IsNearestBy x h where
  le_infinity tie := (hr tie).le_infinity
  nearest tie _ hk := (hr tie).abs_sub_value_le hk
  down _ hk hx := Rounds.midpoint_down hk (hx ▸ hr .lt)
  up _ hk hx := Rounds.midpoint_up hk (hx ▸ hr .gt)
  even _ hk hx :=
    ⟨Rounds.eq_or_of_midpoint hk (hx ▸ hr .eq), Rounds.midpoint_even hk (hx ▸ hr .eq)⟩
  settled hx tie tie' := ((hr tie).of_ne_midpoint hx).unique ((hr tie').of_ne_midpoint hx)

/-- **The answer counts on midpoints only.** -/
theorem IsNearestBy.ne_iff_exists_midpoint (hn : f.IsNearestBy x h) :
    h .lt ≠ h .gt ↔ ∃ k < f.infinity, x = f.midpoint k := by
  constructor
  · intro hne
    by_contra hx
    push Not at hx
    exact hne (hn.settled hx .lt .gt)
  · rintro ⟨k, hk, hx⟩
    rw [hn.down k hk hx, hn.up k hk hx]
    exact (Nat.lt_succ_self k).ne

end LiteralCodec.FloatFormat
