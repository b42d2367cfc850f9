import LiteralCodec.Proofs.Float.Widening
import LiteralCodec.Proofs.Scientific.Grid

/-!
# The shortest decimal reads back

Singles and doubles try each decimal the way it is read later, and fall back to the exact one.
Halves try it with ties to even, although a decimal on a tie is read by its digits. The two agree on
the decimals tried: with five digits a decimal is either equal to a midpoint of halves or too far
from it to be rounded to it.

Results:
* `eq_of_midpoint`: a short decimal that is rounded to a midpoint is the midpoint.
* `readsBack_iff`: what reads back is rounded to the number.
* `shortest_rounds`: the shortest decimal is rounded to the number it was made from.
* `isModerate_shortest`: how many digits it has, and how large its power of ten is.
-/

namespace LiteralCodec.FloatFormat

open Numeral (digitCount)

variable {f : FloatFormat} {m c : ℕ} {s : ℤ}

/-! ## Reading back -/

/-- Different fractions are at least a unit of the common denominator apart. -/
theorem le_abs_div_sub_div {a b p q : ℕ} (hp : 0 < p) (hq : 0 < q) (h : (a : ℚ) / p ≠ b / q) :
    1 / (p * q : ℚ) ≤ |(a : ℚ) / p - b / q| := by
  have hp' : (0 : ℚ) < p := by exact_mod_cast hp
  have hq' : (0 : ℚ) < q := by exact_mod_cast hq
  have he : (a : ℚ) / p - b / q = ((a * q - b * p : ℤ) : ℚ) / (p * q) := by
    push_cast
    field_simp
  have hne : (a * q - b * p : ℤ) ≠ 0 := by
    intro h0
    rw [h0, Int.cast_zero, zero_div, sub_eq_zero] at he
    exact h he
  have hint : (1 : ℚ) ≤ |((a * q - b * p : ℤ) : ℚ)| := by
    exact_mod_cast Int.one_le_abs hne
  rw [he, abs_div, abs_of_pos (mul_pos hp' hq')]
  exact div_le_div_of_nonneg_right hint (mul_pos hp' hq').le

/-- A double on a midpoint of halves is normal and finite. -/
theorem normal_of_midpoint {D k : ℕ} (hk : k < half.infinity)
    (hD : double.value D = half.midpoint k) :
    2 ^ double.fractionBits ≤ D ∧ D < double.infinity := by
  obtain ⟨hlo, hhi⟩ := midpoint_half_bounds hk
  constructor
  · by_contra hlt
    have hsmall : double.value (0 * 2 ^ double.fractionBits + D) < 2 ^ (((1 : ℕ) : ℤ) - 1023) :=
      value_double_lt one_pos (not_le.mp hlt)
    rw [Nat.zero_mul, Nat.zero_add, hD] at hsmall
    have hpow : (2 : ℚ) ^ (((1 : ℕ) : ℤ) - 1023) ≤ 1 / 2 ^ 25 := by
      rw [one_div, ← zpow_natCast, ← zpow_neg]
      exact zpow_le_zpow_right₀ (by norm_num) (by norm_num)
    exact absurd (hlo.trans_lt hsmall) (not_lt.mpr hpow)
  · by_contra hge
    have hlarge := double.value_strictMono.monotone (not_lt.mp hge)
    rw [value_infinity, hD] at hlarge
    have hpow : (2 : ℚ) ^ 16 ≤ 2 ^ (double.bias + 1) := pow_le_pow_right₀ (by norm_num) (by decide)
    linarith

/-- **A short decimal that is rounded to a midpoint is the midpoint.** Their distance is a fraction
over `10 ^ j * 2 ^ 25`, and rounding to a double moves a number by less. -/
theorem eq_of_midpoint {D k : ℕ} (hc : c < 2 ^ 27)
    (hx : double.Rounds (compare ((c : ℚ) * 10 ^ s)) D) (hk : k < half.infinity)
    (hD : double.value D = half.midpoint k) : (c : ℚ) * 10 ^ s = half.midpoint k := by
  obtain ⟨hlo, hhi⟩ := midpoint_half_bounds hk
  obtain ⟨hnormal, hfinite⟩ := normal_of_midpoint hk hD
  have hnear := hx.abs_sub_le hfinite hnormal
  have hfb : double.fractionBits + 1 = 53 := rfl
  rw [hD, hfb] at hnear
  by_contra hne
  have hx0 : half.midpoint k ≤ 2 * ((c : ℚ) * 10 ^ s) := by
    have := (abs_le.mp hnear).1
    norm_num at this hlo
    linarith
  cases s with
  | ofNat j =>
    rw [Int.ofNat_eq_natCast, zpow_natCast] at hnear hne
    have hfar := le_abs_div_sub_div (a := c * 10 ^ j) (p := 1) (q := 2 ^ 25)
      (b := half.units k + half.units (k + 1)) one_pos (by positivity)
    rw [midpoint_half_eq] at hnear hne hhi
    push_cast at hnear hne hfar hhi
    rw [div_one] at hfar
    have := hfar hne
    norm_num at this hnear hhi
    linarith
  | negSucc j =>
    rw [zpow_negSucc, ← div_eq_mul_inv] at hnear hne hx0
    have hfar := le_abs_div_sub_div (a := c) (p := 10 ^ (j + 1)) (q := 2 ^ 25)
      (b := half.units k + half.units (k + 1)) (by positivity) (by positivity)
    rw [midpoint_half_eq] at hnear hne hx0
    push_cast at hnear hne hfar hx0
    have hc' : (c : ℚ) < 2 ^ 27 := by exact_mod_cast hc
    have hmoved : 1 / ((10 : ℚ) ^ (j + 1) * 2 ^ 25) ≤ 2 * (c / 10 ^ (j + 1)) / 2 ^ 53 :=
      (hfar hne).trans (hnear.trans (div_le_div_of_nonneg_right hx0 (by positivity)))
    have he :
        2 * ((c : ℚ) / 10 ^ (j + 1)) / 2 ^ 53 = c / 2 ^ 27 * (1 / (10 ^ (j + 1) * 2 ^ 25)) := by
      field_simp
    have hunit : (0 : ℚ) < 1 / (10 ^ (j + 1) * 2 ^ 25) := by positivity
    have hlt : (c : ℚ) / 2 ^ 27 < 1 := (div_lt_one (by positivity)).mpr hc'
    rw [he] at hmoved
    exact absurd (mul_lt_mul_of_pos_right hlt hunit) (by rw [one_mul]; exact not_lt.mpr hmoved)

/-- **A short decimal is narrowed to the nearest half**, since on a midpoint there is nothing to
decide. -/
theorem narrow_ofDecimal_rounds (hc : c < 2 ^ 27) (s : ℤ) :
    half.Rounds (compare ((c : ℚ) * 10 ^ s)) (narrow .eq (double.ofDecimal c s)) := by
  have hx := ofDecimal_rounds (f := double) c s
  have hle := ofDecimal_le_infinity double c s
  rcases hle.eq_or_lt with hinf | hlt
  · have hval : narrow .eq double.infinity = half.infinity := by decide
    rw [hinf] at hx ⊢
    rw [hval]
    exact rounds_half_infinity hx
  · obtain ⟨h', hnarrow, hr⟩ := narrow_sign_add .eq hlt
    have hsign : ∀ f : FloatFormat, f.sign false = 0 := fun _ => rfl
    have hh' := hnarrow false
    rw [hsign, hsign, Nat.zero_add, Nat.zero_add] at hh'
    subst hh'
    refine hx.narrowed hr fun k hk hD => ?_
    rw [eq_of_midpoint hc hx hk hD, eq_comm, compare_eq_iff_eq]

/-- **A decimal reads back if it is rounded to the number**, for halves if it is short. -/
theorem readsBack_iff (hc : f = half → c < 2 ^ 27) :
    f.readsBack m c s = true ↔ f.Rounds (compare ((c : ℚ) * 10 ^ s)) m := by
  cases f with
  | half =>
    have hr := narrow_ofDecimal_rounds (hc rfl) s
    exact beq_iff_eq.trans ⟨fun h => h ▸ hr, fun h => hr.unique h⟩
  | single | double =>
    exact beq_iff_eq.trans
      ⟨fun h => h ▸ ofDecimal_rounds c s, fun h => (ofDecimal_rounds c s).unique h⟩

/-! ## Singles and doubles -/

/-- How many units a finite number has. -/
theorem units_lt (hm : m < f.infinity) : f.units m < 2 ^ (f.bias + 1) * 2 ^ f.unitExponent := by
  have hv := f.value_strictMono hm
  rw [value_infinity, value, div_lt_iff₀ (by positivity)] at hv
  exact_mod_cast hv

/-- The digits of the exact decimal of a finite number. -/
theorem digitCount_exact (hm : m < f.infinity) :
    digitCount (f.units m * 5 ^ f.unitExponent) ≤ f.bias + 1 + f.unitExponent := by
  refine (Nat.length_toDigits_le_iff (by omega) (by omega)).mpr ?_
  calc f.units m * 5 ^ f.unitExponent
      < 2 ^ (f.bias + 1) * 2 ^ f.unitExponent * 5 ^ f.unitExponent :=
        Nat.mul_lt_mul_of_pos_right (units_lt hm) (by positivity)
    _ = 2 ^ (f.bias + 1) * (2 * 5) ^ f.unitExponent := by rw [mul_assoc, ← mul_pow]
    _ ≤ 10 ^ (f.bias + 1) * 10 ^ f.unitExponent :=
        Nat.mul_le_mul_right _ (Nat.pow_le_pow_left (by omega) _)
    _ = 10 ^ (f.bias + 1 + f.unitExponent) := (pow_add ..).symm

/-- The power of ten of the first digit of a finite number. -/
theorem abs_lead_le (hm : m < f.infinity) : |f.lead m| ≤ (f.bias + 1 + f.unitExponent : ℕ) := by
  have hdigits : ∀ e, 2 ^ e ≤ 10 ^ e := fun e => Nat.pow_le_pow_left (by omega) e
  refine abs_leadingExponent_le ?_ ?_
  · have hlt : f.units m / 2 ^ f.unitExponent < 2 ^ (f.bias + 1) :=
      (Nat.div_lt_iff_lt_mul (Nat.two_pow_pos _)).mpr (units_lt hm)
    have hle : digitCount (f.units m / 2 ^ f.unitExponent) ≤ f.bias + 1 :=
      (Nat.length_toDigits_le_iff (by omega) (by omega)).mpr (hlt.trans_le (hdigits _))
    omega
  · have hlt : 2 ^ f.unitExponent < 2 ^ (f.unitExponent + 1) :=
      Nat.pow_lt_pow_right (by omega) (by omega)
    have hle : digitCount (2 ^ f.unitExponent) ≤ f.unitExponent + 1 :=
      (Nat.length_toDigits_le_iff (by omega) (by omega)).mpr (hlt.trans_le (hdigits _))
    omega

/-- The exact decimal is the value. -/
theorem exact_eq_value (m : ℕ) :
    ((f.units m * 5 ^ f.unitExponent : ℕ) : ℚ) * 10 ^ (-(f.unitExponent : ℤ)) = f.value m := by
  have h10 : (10 : ℚ) ^ f.unitExponent = 2 ^ f.unitExponent * 5 ^ f.unitExponent := by
    rw [← mul_pow]
    norm_num
  rw [zpow_neg, zpow_natCast, h10, value]
  push_cast
  field_simp

/-- A default is taken, or the option has the value. -/
theorem getD_eq_or {α : Type} (o : Option α) (default : α) :
    o.getD default = default ∨ o = some (o.getD default) := by
  cases o with
  | none => exact Or.inl rfl
  | some a => exact Or.inr rfl

/-- The decimal of a number is the exact one, or one that was chosen on a grid. -/
theorem shortestFull_cases (f : FloatFormat) (m : ℕ) :
    f.shortestFull m = (f.units m * 5 ^ f.unitExponent, -(f.unitExponent : ℤ)) ∨
      f.search? m (digitCount (f.units m * 5 ^ f.unitExponent)) = some (f.shortestFull m) := by
  exact getD_eq_or _ _

/-- The decimal of a single or a double is rounded to it. -/
theorem shortestFull_rounds (hf : f ≠ half) (hm : m < f.infinity) :
    f.Rounds (compare (((f.shortestFull m).1 : ℚ) * 10 ^ (f.shortestFull m).2)) m := by
  have hcases := shortestFull_cases f m
  generalize f.shortestFull m = p at hcases
  obtain ⟨c, s⟩ := p
  rcases hcases with h | h
  · obtain ⟨rfl, rfl⟩ := Prod.mk.inj h
    rw [exact_eq_value, ← beside_eq_compare]
    exact rounds_value hm.le .eq
  · obtain ⟨k, -, -, hc, -⟩ := search?_eq_some h
    exact (readsBack_iff fun h => absurd h hf).mp (candidate?_readsBack hc)

theorem isModerate_shortestFull (hm : m < f.infinity) :
    IsModerate (f.bias + f.unitExponent + 2) (f.shortestFull m) := by
  have hexact := digitCount_exact hm
  rcases shortestFull_cases f m with h | h
  · rw [h]
    constructor
    · dsimp only
      omega
    · rw [abs_neg, Nat.abs_cast]
      omega
  · exact isModerate_search? h (by omega) ((abs_lead_le hm).trans (by omega))

/-! ## Halves -/

/-- The double of a half has the value of the half. -/
theorem value_widen (hm : m ≤ half.infinity) :
    widen m < double.infinity ∧ double.value (widen m) = half.value m :=
  value_singleToDouble hm (value_halfToSingle hm)

/-- The decimal of the double is rounded to the half. -/
theorem shortestFull_widen_rounds (hm : m < half.infinity) :
    half.Rounds (compare (((double.shortestFull (widen m)).1 : ℚ) *
      10 ^ (double.shortestFull (widen m)).2)) m := by
  obtain ⟨hlt, hv⟩ := value_widen hm.le
  have hx := shortestFull_rounds (f := double) (by decide) hlt
  have hself : half.Rounds (beside (double.value (widen m)) .eq) m := by
    rw [hv]
    exact rounds_value hm.le .eq
  refine hx.narrowed hself fun k hk hD => ?_
  -- a half is no midpoint
  exfalso
  rw [hv] at hD
  rcases Nat.lt_or_ge k m with hlt | hge
  · have h1 := half.midpoint_lt_value k
    have h2 := half.value_strictMono.monotone (Nat.succ_le_of_lt hlt)
    exact absurd hD ((h1.trans_le h2).ne')
  · have h1 := half.value_lt_midpoint k
    have h2 := half.value_strictMono.monotone hge
    exact absurd hD ((h2.trans_lt h1).ne)

/-! ## All formats -/

/-- A half has the decimal of its double, or one that was chosen on a grid. -/
theorem shortest_half (m : ℕ) :
    half.shortest m = double.shortestFull (widen m) ∨
      half.search? m 5 = some (half.shortest m) := by
  have h : half.shortest m = (half.search? m 5).getD (double.shortestFull (widen m)) := by
    simp only [shortest]
  have hd := getD_eq_or (half.search? m 5) (double.shortestFull (widen m))
  rwa [← h] at hd

theorem shortest_of_ne_half (hf : f ≠ half) : f.shortest m = f.shortestFull m := by
  cases f with
  | half => exact absurd rfl hf
  | single | double => simp only [shortest]

/-- **The shortest decimal is rounded to the number** it was made from. -/
theorem shortest_rounds (hm : m < f.infinity) :
    f.Rounds (compare (((f.shortest m).1 : ℚ) * 10 ^ (f.shortest m).2)) m := by
  by_cases hf : f = half
  swap
  · rw [shortest_of_ne_half hf]
    exact shortestFull_rounds hf hm
  subst hf
  rcases shortest_half m with h | h
  · rw [h]
    exact shortestFull_widen_rounds hm
  · generalize half.shortest m = p at h
    obtain ⟨c, s⟩ := p
    obtain ⟨k, hk, rfl, hc, -⟩ := search?_eq_some h
    have hle := candidate?_le hc
    have hpow : 10 ^ (k + 1) ≤ 10 ^ 5 := Nat.pow_le_pow_right (by omega) (by omega)
    exact (readsBack_iff fun _ => by omega).mp (candidate?_readsBack hc)

/-- **The shortest decimal is of moderate size.** -/
theorem isModerate_shortest (hm : m < f.infinity) : IsModerate (2 ^ 12) (f.shortest m) := by
  have hbound : ∀ f : FloatFormat, f.bias + f.unitExponent + 2 ≤ 2 ^ 12 := by
    intro f
    cases f <;> decide
  by_cases hf : f = half
  swap
  · rw [shortest_of_ne_half hf]
    exact (isModerate_shortestFull hm).mono (hbound f)
  subst hf
  rcases shortest_half m with h | h
  · rw [h]
    exact (isModerate_shortestFull (value_widen hm.le).1).mono (hbound double)
  · exact isModerate_search? h (by decide) ((abs_lead_le hm).trans (by decide))

end LiteralCodec.FloatFormat
