/-!
# Rounding a quotient

The one rounding step behind every inexact operation of the library: the integer nearest to a
quotient of natural numbers. What happens halfway between two integers is a parameter, an
`Ordering`: the number that the quotient stands for lies below the halfway point, above it, or
exactly on it. Only in the last case the even neighbour is taken.

Operations: the last step of `round_to_half`, and of reading and printing decimals.

## Results

* `roundQuotient_eq_div_or`: the result is the floor or one more.
* `roundQuotient_nearest`: the result is within half a unit of the quotient.
* `roundQuotient_eq_of_lt`, `roundQuotient_eq_of_gt`: off the halfway point, the tie plays no part.
* `roundQuotient_ne_iff`: on it, the tie decides.
-/

namespace LiteralCodec

/-- Whether a quotient is rounded away from its floor `q`, from the order of the remainder and half
the divisor, and of the number meant and the halfway point. -/
def roundsUp (remainder tie : Ordering) (q : Nat) : Bool :=
  match remainder with
  | .lt => false
  | .gt => true
  | .eq =>
    match tie with
    | .lt => false
    | .gt => true
    | .eq => q % 2 == 1

/-- The integer nearest to `n / d`, where `tie` decides halfway between two. -/
def roundQuotient (tie : Ordering) (n d : Nat) : Nat :=
  if roundsUp (compare (2 * (n % d)) d) tie (n / d) then n / d + 1 else n / d

theorem roundQuotient_eq_div_or (tie : Ordering) (n d : Nat) :
    roundQuotient tie n d = n / d ∨ roundQuotient tie n d = n / d + 1 := by
  unfold roundQuotient
  split
  · exact .inr rfl
  · exact .inl rfl

theorem roundQuotient_eq_of_lt {n d : Nat} (tie : Ordering) (h : 2 * (n % d) < d) :
    roundQuotient tie n d = n / d := by
  simp [roundQuotient, Nat.compare_eq_lt.2 h, roundsUp]

theorem roundQuotient_eq_of_gt {n d : Nat} (tie : Ordering) (h : d < 2 * (n % d)) :
    roundQuotient tie n d = n / d + 1 := by
  simp [roundQuotient, Nat.compare_eq_gt.2 h, roundsUp]

/-- The tie decides on the halfway point, and nowhere else. -/
theorem roundQuotient_ne_iff {n d : Nat} :
    roundQuotient .lt n d ≠ roundQuotient .gt n d ↔ 2 * (n % d) = d := by
  rcases Nat.lt_trichotomy (2 * (n % d)) d with h | h | h
  · rw [roundQuotient_eq_of_lt _ h, roundQuotient_eq_of_lt _ h]
    omega
  · simp [roundQuotient, roundsUp, h]
  · rw [roundQuotient_eq_of_gt _ h, roundQuotient_eq_of_gt _ h]
    omega

/-- **The result is nearest.** Its distance from the quotient is at most a half, in either
direction. -/
theorem roundQuotient_nearest (tie : Ordering) (n : Nat) {d : Nat} (hd : 0 < d) :
    2 * n ≤ (2 * roundQuotient tie n d + 1) * d ∧ 2 * roundQuotient tie n d * d ≤ 2 * n + d := by
  have hn := Nat.div_add_mod n d
  have hm := Nat.mod_lt n hd
  rcases Nat.lt_trichotomy (2 * (n % d)) d with h | h | h
  · rw [roundQuotient_eq_of_lt tie h]
    constructor <;> grind
  · rcases roundQuotient_eq_div_or tie n d with e | e <;> rw [e] <;> constructor <;> grind
  · rw [roundQuotient_eq_of_gt tie h]
    constructor <;> grind

end LiteralCodec
