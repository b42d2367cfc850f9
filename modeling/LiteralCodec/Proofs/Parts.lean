import LiteralCodec.Proofs.Numeral
import Mathlib.Data.List.TakeWhile

/-!
# The parts of a text

Texts are put together from a sign, digits, marks and an exponent. Each function that takes a part
off undoes putting it on, as long as the rest cannot be mistaken for more of the part.

Results:
* `splitSign_append`, `cut_append`, `cut_eq_self`: taking a part off again.
* `splitSign_eq`, `afterHexMark?_eq_some`, `cut_eq_some`: what a text was that a part came off.
* `ExponentText`: the exponent of a literal, which decimals and hex floats share.
* `ExponentText.ofInt`: an exponent that is printed.
-/

namespace LiteralCodec

namespace Numeral

variable {s t : List Char}

/-! ## Signs -/

theorem splitSign_append (negative : Bool) (h : s.head? ≠ some '-') :
    splitSign (sign negative ++ s) = (negative, s) := by
  cases negative with
  | true => rfl
  | false =>
    cases s with
    | nil => rfl
    | cons c s =>
      unfold sign splitSign
      split
      · next he => exact absurd (congrArg List.head? he) h
      · rfl

/-- A sign that was split off stood in front. -/
theorem splitSign_eq (s : List Char) :
    s = sign (splitSign s).1 ++ (splitSign s).2 := by
  unfold splitSign
  split <;> rfl

/-- A sign of an exponent, or none. -/
def signText : Option Bool → List Char
  | none => []
  | some false => ['+']
  | some true => ['-']

theorem splitExponentSign_append (sign : Option Bool) (hp : s.head? ≠ some '+')
    (hm : s.head? ≠ some '-') :
    splitExponentSign (signText sign ++ s) = (sign.getD false, s) := by
  cases sign with
  | some negative => cases negative <;> rfl
  | none =>
    unfold signText splitExponentSign
    split
    · next he => exact absurd (congrArg List.head? he) hp
    · next he => exact absurd (congrArg List.head? he) hm
    · rfl

/-- A sign of an exponent that was split off stood in front. -/
theorem splitExponentSign_eq (s : List Char) :
    ∃ sign, sign.getD false = (splitExponentSign s).1 ∧
      s = signText sign ++ (splitExponentSign s).2 := by
  unfold splitExponentSign
  split
  · exact ⟨some false, rfl, rfl⟩
  · exact ⟨some true, rfl, rfl⟩
  · exact ⟨none, rfl, rfl⟩

/-- Digits have no sign in front. -/
theorem head?_ne_of_isDecimal (h : isDecimal s = true) {c : Char} (hc : c.isDigit = false) :
    s.head? ≠ some c := by
  intro he
  have := (isDecimal_iff.mp h).2 c (List.mem_of_mem_head? he)
  rw [hc] at this
  cases this

/-! ## Marks -/

theorem cut_append {p : Char → Bool} {c : Char} (hs : ∀ d ∈ s, p d = false) (hc : p c = true) :
    cut p (s ++ c :: t) = (s, some t) := by
  have hs' : ∀ d ∈ s, (!p d) = true := fun d hd => by rw [hs d hd]; rfl
  have ht : (c :: t).takeWhile (!p ·) = [] := List.takeWhile_cons_of_neg (by simp [hc])
  have hd : (c :: t).dropWhile (!p ·) = c :: t := List.dropWhile_cons_of_neg (by simp [hc])
  rw [cut, List.takeWhile_append_of_pos hs', List.dropWhile_append_of_pos hs', ht, hd,
    List.append_nil]

theorem cut_eq_self {p : Char → Bool} (hs : ∀ d ∈ s, p d = false) : cut p s = (s, none) := by
  have hs' : ∀ d ∈ s, (!p d) = true := fun d hd => by rw [hs d hd]; rfl
  rw [cut, List.takeWhile_eq_self_iff.mpr hs', List.dropWhile_eq_nil_iff.mpr hs']

/-- A text that was cut in two had one character of the class between the parts, the first one. -/
theorem cut_eq_some {p : Char → Bool} {u : List Char} (h : cut p s = (t, some u)) :
    ∃ c, p c = true ∧ (∀ d ∈ t, p d = false) ∧ s = t ++ c :: u := by
  simp only [cut, Prod.mk.injEq] at h
  obtain ⟨h₁, h₂⟩ := h
  have hs := List.takeWhile_append_dropWhile (p := (!p ·)) (l := s)
  split at h₂
  · simp at h₂
  · next c rest hd =>
    rw [Option.some.injEq] at h₂
    refine ⟨c, ?_, fun d hdt => ?_, by rw [← hs, h₁, hd, h₂]⟩
    · have := List.head?_dropWhile_not (!p ·) s
      rw [hd] at this
      simpa using this
    · rw [← h₁] at hdt
      simpa using List.mem_takeWhile_imp hdt

theorem afterHexMark?_eq_some :
    afterHexMark? s = some t ↔ ∃ c, (c = 'x' ∨ c = 'X') ∧ s = '0' :: c :: t := by
  constructor
  · intro h
    unfold afterHexMark? at h
    split at h
    · rw [Option.some.injEq] at h
      exact ⟨'x', Or.inl rfl, by rw [h]⟩
    · rw [Option.some.injEq] at h
      exact ⟨'X', Or.inr rfl, by rw [h]⟩
    · cases h
  · rintro ⟨c, rfl | rfl, rfl⟩ <;> rfl

end Numeral

/-! ## Exponents -/

/-- The text of an exponent: a mark, a sign or none, and decimal digits. -/
structure ExponentText (isMark : Char → Bool) where
  mark : Char
  sign : Option Bool
  digits : List Char
  isMark_mark : isMark mark = true
  isDecimal_digits : Numeral.isDecimal digits = true

namespace ExponentText

variable {isMark : Char → Bool} (e : ExponentText isMark)

/-- What stands behind the mark. -/
def body : List Char := Numeral.signText e.sign ++ e.digits

/-- The exponent as it is written. -/
def text : List Char := e.mark :: e.body

/-- The exponent itself. -/
def value : ℤ :=
  if e.sign = some true then -Numeral.value 10 e.digits else Numeral.value 10 e.digits

theorem splitExponentSign_body :
    Numeral.splitExponentSign e.body = (e.sign.getD false, e.digits) :=
  Numeral.splitExponentSign_append e.sign
    (Numeral.head?_ne_of_isDecimal e.isDecimal_digits rfl)
    (Numeral.head?_ne_of_isDecimal e.isDecimal_digits rfl)

theorem value_eq :
    e.value = if e.sign.getD false then -(Numeral.value 10 e.digits : ℤ)
      else Numeral.value 10 e.digits := by
  unfold value
  rcases e.sign with _ | (_ | _) <;> rfl

/-- An exponent is written with its mark, signs and digits. -/
theorem mem_text {c : Char} (h : c ∈ e.text) :
    c = e.mark ∨ c = '+' ∨ c = '-' ∨ c.isDigit = true := by
  rw [text, body, List.mem_cons, List.mem_append] at h
  rcases h with h | h | h
  · exact Or.inl h
  · unfold Numeral.signText at h
    rcases hs : e.sign with _ | (_ | _) <;> rw [hs] at h <;> simp at h
    · exact Or.inr (Or.inl h)
    · exact Or.inr (Or.inr (Or.inl h))
  · exact Or.inr (Or.inr (Or.inr ((Numeral.isDecimal_iff.mp e.isDecimal_digits).2 c h)))

/-- An exponent written with its sign, plus included, and zeroes in front up to a number of digits.
-/
def ofInt (mark : Char) (h : isMark mark = true) (size : ℕ) (e : ℤ) : ExponentText isMark where
  mark := mark
  sign := some (e < 0)
  digits := (Numeral.ofNat e.natAbs).leftpad size '0'
  isMark_mark := h
  isDecimal_digits := by
    rw [Numeral.leftpad_eq]
    refine Numeral.isDecimal_iff.mpr ⟨?_, fun c hc => ?_⟩
    · exact List.append_ne_nil_of_right_ne_nil _ (Numeral.ofNat_ne_nil _)
    · rcases List.mem_append.mp hc with hc | hc
      · exact Numeral.isDigit_of_mem_replicate hc
      · exact Numeral.isDigit_of_mem_ofNat hc

variable {mark : Char} {h : isMark mark = true} {size : ℕ}

theorem value_ofInt (e : ℤ) : (ofInt mark h size e).value = e := by
  unfold value ofInt
  simp only [Numeral.value_leftpad, Numeral.value_ofNat, Option.some.injEq, decide_eq_true_eq]
  split_ifs <;> omega

theorem text_ofInt (e : ℤ) :
    (ofInt mark h size e).text = mark :: (if e < 0 then '-' else '+') ::
      (Numeral.ofNat e.natAbs).leftpad size '0' := by
  unfold text body ofInt
  by_cases h : e < 0 <;> simp [h, Numeral.signText]

end ExponentText

end LiteralCodec
