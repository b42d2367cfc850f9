import LiteralCodec.Decimal.Pattern
import LiteralCodec.Proofs.Decimal.Significant
import LiteralCodec.Proofs.Float.DoubleRounding

/-!
# Decimals are rounded once

The pattern of a decimal is that of the nearest number of the format. For singles and doubles that
is one rounding. For halves a double stands in between, and where it is a midpoint of halves the
decimal is compared with it: a midpoint is a multiple of `2 ^ -25`, so 25 places write it in full,
and the powers of ten of a decimal that is rounded to a midpoint are small enough to be kept.

Results:
* `compareToTie_eq`: on a midpoint the order on digits is the order of the decimal and the midpoint.
* `compareToTie_self`: a decimal of any length that is a midpoint is equal to it.
* `toHalf_rounds`: a decimal is read as the nearest half.
* `pattern?_rounds`: the pattern of a decimal in every format.
-/

namespace LiteralCodec.Decimal

open FloatFormat (half single double)

/-! ## Powers of ten that are kept -/

/-- A decimal of moderate size, with no more digits than a text can hold, has its powers of ten
kept. -/
theorem significant?_eq {d : Decimal} (hn : d.significant.Normal) (hlen : d.digits.length < 2 ^ 62)
    (hlo : (1 : ℚ) / 10 ^ 8 ≤ d.magnitude) (hhi : d.magnitude < 10 ^ 6) :
    d.significant? = some d.significant := by
  have hlt := hn.value_lt
  have hle := hn.le_value
  rw [significant_value] at hlt hle
  have h1 : (-8 : ℤ) < d.significant.power := by
    have := hlo.trans_lt hlt
    rw [one_div, ← zpow_natCast, ← zpow_neg] at this
    exact (zpow_lt_zpow_iff_right₀ (by norm_num)).mp this
  have h2 : d.significant.power - 1 < 6 := by
    have := hle.trans_lt hhi
    rw [← zpow_natCast] at this
    exact (zpow_lt_zpow_iff_right₀ (by norm_num)).mp this
  have hld : d.digits.length = d.integer.length + d.fraction.length := List.length_append
  have hp : d.significant.power =
      d.integer.length - (d.digits.length - (Numeral.trimLeft d.digits).length : ℕ) + d.exponent :=
    rfl
  have he : fitsPower d.exponent = true ∧ fitsPower d.significant.power = true := by
    simp only [fitsPower, Bool.and_eq_true, decide_eq_true_eq]
    omega
  rw [significant?, he.1, he.2]
  rfl

/-! ## Comparing with a midpoint -/

theorem value_eq_units {m : ℕ} :
    double.value m = double.units m / (2 ^ double.unitExponent : ℕ) := by
  unfold FloatFormat.value
  push_cast
  rfl

/-- Twenty-five places write out a midpoint in full. -/
theorem dvd_of_midpoint {m k : ℕ} (h : double.value m = half.midpoint k) :
    2 ^ double.unitExponent ∣ double.units m * 10 ^ 25 := by
  rw [FloatFormat.midpoint_half_eq, FloatFormat.value,
    div_eq_div_iff (by positivity) (by positivity)] at h
  have hn : double.units m * 2 ^ 25 =
      (half.units k + half.units (k + 1)) * 2 ^ double.unitExponent := by exact_mod_cast h
  refine ⟨(half.units k + half.units (k + 1)) * 5 ^ 25, ?_⟩
  rw [show (10 : ℕ) ^ 25 = 2 ^ 25 * 5 ^ 25 by norm_num, ← mul_assoc, hn]
  ring

/-- A number that is rounded to a midpoint is not far from it. -/
theorem magnitude_bounds {x : ℚ} {m k : ℕ} (hx : double.Rounds (compare x) m)
    (hk : k < half.infinity) (h : double.value m = half.midpoint k) :
    (1 : ℚ) / 2 ^ 26 ≤ x ∧ x ≤ 2 ^ 16 := by
  obtain ⟨hlo, hhi⟩ := FloatFormat.midpoint_half_bounds hk
  rw [← h] at hlo hhi
  constructor
  · obtain ⟨n, hn⟩ := double.exists_units (s := 1) (by decide) (double.unitExponent - 26)
    have hv : double.value n = 1 / 2 ^ 26 := by
      obtain ⟨e, he⟩ : ∃ e, double.unitExponent = e + 26 := ⟨1048, rfl⟩
      unfold FloatFormat.value
      rw [hn, he, Nat.add_sub_cancel, pow_add]
      push_cast
      field_simp
    by_contra hlt
    have := hx.le_of_le_value (hv ▸ (not_le.mp hlt).le)
    have hle := double.value_strictMono.monotone this
    rw [hv] at hle
    norm_num at hle hlo
    linarith
  · obtain ⟨n, hn, hv⟩ := FloatFormat.exists_double_value (le_refl half.infinity)
    rw [FloatFormat.value_half_infinity] at hv
    by_contra hlt
    rw [not_le, ← hv] at hlt
    have := hx.le_of_value_le hn.le hlt.le
    rw [← hv] at hhi
    exact absurd (double.value_strictMono.monotone this) (not_le.mpr hhi)

/-- The order of significant digits, where those that are not kept count as equal. -/
def compare? : Option Significant → Option Significant → Ordering
  | some a, some b => a.compare b
  | _, _ => .eq

/-- **Twenty-five places** hold a midpoint, with as many digits before the point as it needs. -/
theorem exists_tie {m k : ℕ} (hk : k < half.infinity) (h : double.value m = half.midpoint k) :
    ∃ tie : Decimal, tie.magnitude = half.midpoint k ∧ tie.significant.Normal ∧
      tie.digits.length ≤ 5 + 25 ∧ ∀ (d : Decimal) bits, double.magnitude bits = m →
        d.compareToTie bits = compare? d.significant? tie.significant? := by
  obtain ⟨hlo, hhi⟩ := FloatFormat.midpoint_half_bounds hk
  have hpow : 0 < 2 ^ double.unitExponent := Nat.two_pow_pos _
  obtain ⟨tie, htie⟩ : ∃ t, t = ofQuotient 25 (double.units m) (2 ^ double.unitExponent) := ⟨_, rfl⟩
  have hv : tie.magnitude = half.midpoint k := by
    rw [htie, ofQuotient_magnitude (by decide) hpow (dvd_of_midpoint h), ← value_eq_units, h]
  refine ⟨tie, hv, ?_, ?_, fun d bits hb => ?_⟩
  · refine significant_normal (fun c hc => isDigit_of_mem_ofQuotient (htie ▸ hc)) fun h0 => ?_
    rw [magnitude, h0] at hv
    rw [← hv] at hlo
    norm_num at hlo
  · rw [htie] at hv ⊢
    refine length_digits_ofQuotient (by decide) (by decide) ?_
    rw [hv]
    exact hhi.trans (by norm_num)
  · rw [compareToTie, hb, ← htie]
    rfl

/-- A decimal that is rounded to a midpoint has significant digits. -/
theorem normal_of_midpoint {d : Decimal} (hd : ∀ c ∈ d.digits, c.isDigit = true) {m k : ℕ}
    (hx : double.Rounds (compare d.magnitude) m) (hk : k < half.infinity)
    (h : double.value m = half.midpoint k) : d.significant.Normal := by
  have hxlo := (magnitude_bounds hx hk h).1
  refine significant_normal hd fun h0 => ?_
  rw [magnitude, h0] at hxlo
  norm_num at hxlo

/-- **Comparing with a midpoint** gives the order of the numbers, for every decimal whose powers of
ten are kept. -/
theorem compareToTie_of_kept {d : Decimal} (hn : d.significant.Normal)
    (hs : d.significant? = some d.significant) {k : ℕ} (hk : k < half.infinity) {bits : ℕ}
    (h : double.value (double.magnitude bits) = half.midpoint k) :
    d.compareToTie bits = compare d.magnitude (half.midpoint k) := by
  obtain ⟨hlo, hhi⟩ := FloatFormat.midpoint_half_bounds hk
  obtain ⟨tie, hv, htn, hl, hcompare⟩ := exists_tie hk h
  have hts := significant?_eq htn (by omega) (by rw [hv]; exact le_trans (by norm_num) hlo)
    (by rw [hv]; exact hhi.trans (by norm_num))
  rw [hcompare d bits rfl, hs, hts, compare?, Significant.compare_eq hn htn, significant_value,
    significant_value, hv]

/-- **On a midpoint the order on digits** is the order of the decimal and the midpoint. -/
theorem compareToTie_eq {d : Decimal} (hd : ∀ c ∈ d.digits, c.isDigit = true)
    (hlen : d.digits.length < 2 ^ 62) {m k : ℕ} (hx : double.Rounds (compare d.magnitude) m)
    (hk : k < half.infinity) (h : double.value m = half.midpoint k) {bits : ℕ}
    (hb : double.magnitude bits = m) :
    d.compareToTie bits = compare d.magnitude (half.midpoint k) := by
  obtain ⟨hxlo, hxhi⟩ := magnitude_bounds hx hk h
  have hn := normal_of_midpoint hd hx hk h
  have hs := significant?_eq hn hlen (le_trans (by norm_num) hxlo) (hxhi.trans_lt (by norm_num))
  exact compareToTie_of_kept hn hs hk (hb ▸ h)

theorem significant?_cases (d : Decimal) :
    d.significant? = none ∨ d.significant? = some d.significant := by
  unfold significant?
  split_ifs
  · exact .inr rfl
  · exact .inl rfl

/-- A decimal that is a midpoint is not told from it, whether its powers of ten are kept or not. -/
theorem compareToTie_self {d : Decimal} (hd : ∀ c ∈ d.digits, c.isDigit = true) {m k : ℕ}
    (hx : double.Rounds (compare d.magnitude) m) (hk : k < half.infinity)
    (h : double.value m = half.midpoint k) (heq : d.magnitude = half.midpoint k) {bits : ℕ}
    (hb : double.magnitude bits = m) : d.compareToTie bits = .eq := by
  obtain ⟨tie, hv, htn, -, hcompare⟩ := exists_tie hk h
  rw [hcompare d bits hb]
  rcases d.significant?_cases with hds | hds
  · rw [hds, compare?]
    rintro _ _ ⟨⟩
  rcases tie.significant?_cases with hts | hts
  · rw [hts, compare?]
    rintro _ _ _ ⟨⟩
  · rw [hds, hts, compare?, Significant.compare_eq (normal_of_midpoint hd hx hk h) htn,
      significant_value, significant_value, hv, heq, compare_eq_iff_eq]

/-! ## The pattern -/

variable {d : Decimal}

theorem magnitude_toDouble (d : Decimal) :
    double.magnitude d.toDouble = double.ofDecimal d.coefficient d.scale :=
  FloatFormat.magnitude_sign_add d.negative
    ((FloatFormat.ofDecimal_le_infinity double d.coefficient d.scale).trans_lt
      double.infinity_lt_signBit)

theorem toDouble_rounds (d : Decimal) :
    double.Rounds (compare d.magnitude) (double.magnitude d.toDouble) := by
  rw [magnitude_toDouble]
  exact FloatFormat.ofDecimal_rounds d.coefficient d.scale

theorem toDouble_infinite (h : double.infinity ≤ double.magnitude d.toDouble) :
    half.Rounds (compare d.magnitude) half.infinity := by
  have hr := d.toDouble_rounds
  rw [le_antisymm hr.le_infinity h] at hr
  exact FloatFormat.rounds_half_infinity hr

/-- A decimal whose order with its double, if that is a midpoint, is the order of the numbers. -/
def Settled (d : Decimal) : Prop :=
  ∀ k < half.infinity, double.value (double.magnitude d.toDouble) = half.midpoint k →
    d.compareToTie d.toDouble = compare d.magnitude (half.midpoint k)

/-- Decimals of moderate length are. -/
theorem settled_of_length (hd : ∀ c ∈ d.digits, c.isDigit = true)
    (hlen : d.digits.length < 2 ^ 62) : d.Settled := fun _ hk hv =>
  compareToTie_eq hd hlen d.toDouble_rounds hk hv rfl

/-- **A decimal is read as the nearest half.** -/
theorem toHalf_rounds (h : d.Settled) (hf : double.magnitude d.toDouble < double.infinity) :
    ∃ m, d.toHalf = half.sign d.negative + m ∧ half.Rounds (compare d.magnitude) m := by
  rw [magnitude_toDouble] at hf
  obtain ⟨m, hm, hr⟩ := FloatFormat.narrow_sign_add (d.compareToTie d.toDouble) hf
  rw [← magnitude_toDouble] at hr
  exact ⟨m, hm d.negative, d.toDouble_rounds.narrowed hr h⟩

/-- The pattern of a decimal is the sign and the nearest magnitude, unless that is infinite. -/
theorem pattern?_of_settled (f : FloatFormat) (h : f = half → d.Settled) :
    ∃ m, f.Rounds (compare d.magnitude) m ∧
      d.pattern? f = if m < f.infinity then some (f.sign d.negative + m) else none := by
  have hfull :
      ∀ f : FloatFormat, f.Rounds (compare d.magnitude) (f.ofDecimal d.coefficient d.scale) :=
    fun f => FloatFormat.ofDecimal_rounds d.coefficient d.scale
  cases f with
  | single => exact ⟨_, hfull single, by simp [pattern?, FloatFormat.isFinite]⟩
  | double => exact ⟨_, hfull double, by simp [pattern?, FloatFormat.isFinite]⟩
  | half =>
    by_cases hf : double.magnitude d.toDouble < double.infinity
    · obtain ⟨m, hm, hr⟩ := toHalf_rounds (h rfl) hf
      have hmag := FloatFormat.magnitude_sign_add d.negative
        (hr.le_infinity.trans_lt half.infinity_lt_signBit)
      exact ⟨m, hr, by simp [pattern?, FloatFormat.isFinite, hf, hm, hmag]⟩
    · exact ⟨half.infinity, toDouble_infinite (not_lt.mp hf), by
        simp [pattern?, FloatFormat.isFinite, hf]⟩

/-- **The pattern of a decimal** of moderate length, in every format. -/
theorem pattern?_rounds (hd : ∀ c ∈ d.digits, c.isDigit = true) (hlen : d.digits.length < 2 ^ 62)
    (f : FloatFormat) :
    ∃ m, f.Rounds (compare d.magnitude) m ∧
      d.pattern? f = if m < f.infinity then some (f.sign d.negative + m) else none :=
  pattern?_of_settled f fun _ => settled_of_length hd hlen

end LiteralCodec.Decimal
