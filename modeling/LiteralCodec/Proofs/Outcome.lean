import Mathlib.Data.List.Forall2
import Mathlib.Tactic.Common

/-!
# Outcomes of steps that can fail

A chain of steps stops at the first failure. What came of the chain tells what came of each step up
to that failure.

Results:
* `bind_eq_ok`, `bind_eq_error`: one step and the steps behind it.
* `mapError_eq_ok`, `mapError_eq_error`: a failure under another name.
* `mapM_cons_eq_ok`, `mapM_eq_ok`: one step for each element of a list.
* `mapM_eq_error`: the first of these steps that fails.
-/

namespace LiteralCodec

variable {α β ε δ : Type} {x : Except ε α}

theorem bind_eq_ok {f : α → Except ε β} {b : β} :
    (x >>= f) = .ok b ↔ ∃ a, x = .ok a ∧ f a = .ok b := by
  cases x <;> simp [bind, Except.bind]

theorem bind_eq_error {f : α → Except ε β} {e : ε} :
    (x >>= f) = .error e ↔ x = .error e ∨ ∃ a, x = .ok a ∧ f a = .error e := by
  cases x <;> simp [bind, Except.bind]

theorem mapError_eq_ok {f : ε → δ} {a : α} : x.mapError f = .ok a ↔ x = .ok a := by
  cases x <;> simp [Except.mapError]

theorem mapError_eq_error {f : ε → δ} {d : δ} :
    x.mapError f = .error d ↔ ∃ e, x = .error e ∧ f e = d := by
  cases x <;> simp [Except.mapError]

theorem map_eq_ok {f : α → β} {b : β} : x.map f = .ok b ↔ ∃ a, x = .ok a ∧ f a = b := by
  cases x <;> simp [Except.map]

theorem map_eq_error {f : α → β} {e : ε} : x.map f = .error e ↔ x = .error e := by
  cases x <;> simp [Except.map]

/-- A list is mapped if its head and its tail are. -/
theorem mapM_cons_eq_ok {g : α → Except ε β} {a : α} {as : List α} {bs : List β} :
    (a :: as).mapM g = .ok bs ↔ ∃ z zs, g a = .ok z ∧ as.mapM g = .ok zs ∧ bs = z :: zs := by
  simp only [List.mapM_cons, bind_eq_ok, pure, Except.pure, Except.ok.injEq]
  constructor
  · rintro ⟨z, hz, zs, hzs, rfl⟩
    exact ⟨z, zs, hz, hzs, rfl⟩
  · rintro ⟨z, zs, hz, hzs, rfl⟩
    exact ⟨z, hz, zs, hzs, rfl⟩

/-- A list is mapped if each of its elements is. -/
theorem mapM_eq_ok {g : α → Except ε β} {l : List α} {bs : List β} :
    l.mapM g = .ok bs ↔ List.Forall₂ (fun a b => g a = .ok b) l bs := by
  induction l generalizing bs with
  | nil => simp [pure, Except.pure, eq_comm]
  | cons a l ih => simp only [mapM_cons_eq_ok, ih, List.forall₂_cons_left_iff]

/-- **The failure of all steps** is that of the first one that fails. -/
theorem mapM_eq_error {g : α → Except ε β} {l : List α} {e : ε} :
    l.mapM g = .error e ↔ ∃ (k : ℕ) (a : α), l[k]? = some a ∧ g a = .error e ∧
      ∀ j < k, ∀ a', l[j]? = some a' → ∃ b, g a' = .ok b := by
  induction l with
  | nil =>
    constructor
    · intro h
      cases h
    · rintro ⟨k, a, h, -⟩
      cases h
  | cons a l ih =>
    rw [List.mapM_cons, bind_eq_error]
    constructor
    · rintro (h | ⟨b, hb, h⟩)
      · exact ⟨0, a, rfl, h, nofun⟩
      · rcases bind_eq_error.mp h with h | ⟨bs, -, h⟩
        · obtain ⟨k, a', hk, ha', hbefore⟩ := ih.mp h
          refine ⟨k + 1, a', hk, ha', fun j hj a'' hj' => ?_⟩
          cases j with
          | zero =>
            obtain rfl := Option.some.inj hj'
            exact ⟨b, hb⟩
          | succ j => exact hbefore j (by omega) a'' hj'
        · cases h
    · rintro ⟨k, a', hk, ha', hbefore⟩
      cases k with
      | zero =>
        obtain rfl := Option.some.inj hk
        exact .inl ha'
      | succ k =>
        obtain ⟨b, hb⟩ := hbefore 0 (by omega) a rfl
        exact .inr ⟨b, hb, bind_eq_error.mpr (.inl (ih.mpr ⟨k, a', hk, ha',
          fun j hj a'' hj' => hbefore (j + 1) (by omega) a'' hj'⟩))⟩

end LiteralCodec
