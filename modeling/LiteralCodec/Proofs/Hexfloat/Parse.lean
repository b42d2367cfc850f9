import LiteralCodec.Proofs.Hexfloat.Fraction
import LiteralCodec.Proofs.Hexfloat.Place
import LiteralCodec.Proofs.Parts

/-!
# Which bodies are hex floats

The body of a hex float is a one, a point with hex digits or neither, and an exponent, which is
never left out. `Denotes` says which pattern a fraction and an exponent stand for: the value they
name, or the fraction under an exponent field of all ones where the exponent is past the largest.
Reading accepts the bodies whose fraction fits its field and for which there is such a pattern.

Results:
* `Denotes.unique`: there is one pattern at most.
* `parse_text`, `parse_other`, `parse_cases`: reading a body of the grammar, and any other.
* `parse_iff`: what is accepted, what is inexact, and what is malformed.
-/

namespace LiteralCodec

/-- The body of a hex float in its parts. -/
structure HexfloatText where
  /-- The digits behind the point, if there is a point. -/
  fraction? : Option (List Char)
  exponent : ExponentText Hexfloat.isExponentMark
  isHex_fraction : ∀ digits ∈ fraction?, Numeral.isHex digits = true

namespace HexfloatText

variable (t : HexfloatText)

/-- The digits behind the point, none if there is no point. -/
def digits : List Char := t.fraction?.getD []

/-- What stands behind the leading one. -/
def afterOne : List Char := (t.fraction?.map ('.' :: ·)).getD [] ++ t.exponent.text

/-- The body as it is written. -/
def text : List Char := '1' :: t.afterOne

theorem isHexDigit_digits : ∀ c ∈ t.digits, c.isHexDigit = true := by
  intro c hc
  unfold digits at hc
  cases hs : t.fraction? with
  | none => simp [hs] at hc
  | some s =>
    rw [hs, Option.getD_some] at hc
    exact (Numeral.isHex_iff.mp (t.isHex_fraction s hs)).2 c hc

end HexfloatText

namespace Hexfloat

/-! ## Taking a body apart -/

theorem isHexDigit_of_isExponentMark {c : Char} (h : isExponentMark c = true) :
    c.isHexDigit = false := by
  simp only [isExponentMark, Bool.or_eq_true, beq_iff_eq] at h
  rcases h with rfl | rfl <;> rfl

theorem afterLeadingOne_text (t : HexfloatText) : afterLeadingOne t.text = .ok t.afterOne := by
  have h : t.afterOne.head?.any Char.isHexDigit = false := by
    unfold HexfloatText.afterOne ExponentText.text
    cases t.fraction? with
    | none => simpa using isHexDigit_of_isExponentMark t.exponent.isMark_mark
    | some s => rfl
  rw [HexfloatText.text, afterLeadingOne, h]
  rfl

theorem splitFraction_afterOne (t : HexfloatText) :
    splitFraction t.afterOne = .ok (t.digits, t.exponent.body) := by
  have hmark := t.exponent.isMark_mark
  unfold HexfloatText.afterOne HexfloatText.digits ExponentText.text
  cases hs : t.fraction? with
  | none =>
    rw [Option.map_none, Option.getD_none, List.nil_append]
    unfold splitFraction
    split
    · next he =>
      rw [(List.cons.inj he).1] at hmark
      cases hmark
    · next he =>
      obtain ⟨rfl, rfl⟩ := List.cons.inj he
      rw [if_pos hmark]
    · next he => cases he
  | some s =>
    obtain ⟨hne, hd⟩ := Numeral.isHex_iff.mp (t.isHex_fraction s hs)
    have hcut : Numeral.cut isExponentMark (s ++ t.exponent.mark :: t.exponent.body) =
        (s, some t.exponent.body) := by
      refine Numeral.cut_append (fun c hc => ?_) hmark
      by_contra h
      have := hd c hc
      rw [isHexDigit_of_isExponentMark (Bool.not_eq_false _ ▸ h)] at this
      cases this
    rw [Option.map_some, Option.getD_some, Option.getD_some, List.cons_append]
    simp only [splitFraction, hcut]

theorem exponent_body {p : Char → Bool} (e : ExponentText p) :
    exponent e.body = .ok (if e.sign.getD false then
        -(min (Numeral.value 10 e.digits) exponentClamp : ℕ)
      else (min (Numeral.value 10 e.digits) exponentClamp : ℕ)) := by
  rw [exponent, e.splitExponentSign_body]
  simp only [e.isDecimal_digits, if_true]

/-- **Reading a body of the grammar** puts its fraction and its exponent together. -/
theorem parse_text (f : FloatFormat) (negative : Bool) (t : HexfloatText) {F : ℕ}
    (hF : (F : ℚ) = Numeral.fraction 16 t.digits * 2 ^ f.fractionBits) :
    parse f negative t.text = (place f negative t.exponent.value F).map f.assemble := by
  have hclamp : f.bias + f.fractionBits < exponentClamp := by cases f <;> decide
  have hf : fraction f t.digits = .ok F := (fraction_eq_ok t.isHexDigit_digits).mpr hF
  have hp := place_clamp negative F hclamp
    (Numeral.value 10 t.exponent.digits) (t.exponent.sign.getD false)
  rw [← t.exponent.value_eq] at hp
  simp only [parse, afterLeadingOne_text, splitFraction_afterOne, hf, exponent_body, bind,
    Except.bind, hp]
  cases place f negative t.exponent.value F <;> rfl

/-! ## Other bodies -/

theorem afterLeadingOne_eq_ok {body rest : List Char} (h : afterLeadingOne body = .ok rest) :
    body = '1' :: rest := by
  unfold afterLeadingOne at h
  split at h
  · split_ifs at h
    rw [Except.ok.injEq] at h
    rw [h]
  · cases h

theorem afterLeadingOne_eq_error {body : List Char} {e : Error}
    (h : afterLeadingOne body = .error e) : e = .missingLeadingOne := by
  unfold afterLeadingOne at h
  split at h
  · split_ifs at h
    exact (Except.error.inj h).symm
  · exact (Except.error.inj h).symm

theorem splitFraction_eq_ok {rest digits tail : List Char}
    (h : splitFraction rest = .ok (digits, tail)) :
    ∃ c, isExponentMark c = true ∧
      (digits = [] ∧ rest = c :: tail ∨ digits ≠ [] ∧ rest = '.' :: (digits ++ c :: tail)) := by
  unfold splitFraction at h
  split at h
  · next s =>
    split at h
    · cases h
    · cases h
    · next digits' tail' hne hcut =>
      simp only [Except.ok.injEq, Prod.mk.injEq] at h
      obtain ⟨rfl, rfl⟩ := h
      obtain ⟨c, hc, -, hs⟩ := Numeral.cut_eq_some hcut
      exact ⟨c, hc, Or.inr ⟨hne, by rw [hs]⟩⟩
  · next c s _ =>
    split_ifs at h with hc
    simp only [Except.ok.injEq, Prod.mk.injEq] at h
    obtain ⟨rfl, rfl⟩ := h
    exact ⟨c, hc, Or.inl ⟨rfl, rfl⟩⟩
  · cases h

theorem splitFraction_eq_error {rest : List Char} {e : Error} (h : splitFraction rest = .error e) :
    e = .emptyFraction ∨ e = .missingExponent := by
  unfold splitFraction at h
  split at h
  · split at h
    · exact Or.inl (Except.error.inj h).symm
    · exact Or.inr (Except.error.inj h).symm
    · cases h
  · split_ifs at h
    exact Or.inr (Except.error.inj h).symm
  · exact Or.inr (Except.error.inj h).symm

theorem exponent_eq_error {s : List Char} {e : Error} (h : exponent s = .error e) :
    e = .invalidExponent := by
  simp only [exponent] at h
  split_ifs at h
  exact (Except.error.inj h).symm

/-- A body that comes apart is one of the grammar. -/
theorem exists_text {body rest digits tail : List Char} {e : ℤ}
    (hone : afterLeadingOne body = .ok rest) (hsplit : splitFraction rest = .ok (digits, tail))
    (hd : ∀ c ∈ digits, c.isHexDigit = true) (he : exponent tail = .ok e) :
    ∃ t : HexfloatText, t.text = body ∧ t.digits = digits := by
  obtain ⟨c, hc, hrest⟩ := splitFraction_eq_ok hsplit
  obtain ⟨sign, -, htail⟩ := Numeral.splitExponentSign_eq tail
  have hdec : Numeral.isDecimal (Numeral.splitExponentSign tail).2 = true := by
    by_contra h
    simp only [exponent, h] at he
    cases he
  have htext : Numeral.signText sign ++ (Numeral.splitExponentSign tail).2 = tail := htail.symm
  rw [afterLeadingOne_eq_ok hone]
  rcases hrest with ⟨rfl, rfl⟩ | ⟨hne, rfl⟩
  · refine ⟨⟨none, ⟨c, sign, _, hc, hdec⟩, by simp⟩, ?_, rfl⟩
    exact congrArg (fun s => '1' :: c :: s) htext
  · refine ⟨⟨some digits, ⟨c, sign, _, hc, hdec⟩, ?_⟩, ?_, rfl⟩
    · rintro _ ⟨rfl⟩
      exact Numeral.isHex_iff.mpr ⟨hne, hd⟩
    · exact congrArg (fun s => '1' :: '.' :: (digits ++ c :: s)) htext

/-- **Any other body is malformed.** -/
theorem parse_other (f : FloatFormat) (negative : Bool) (body : List Char)
    (h : ¬∃ t : HexfloatText, t.text = body ∧
      ∃ F : ℕ, (F : ℚ) = Numeral.fraction 16 t.digits * 2 ^ f.fractionBits) :
    ∃ e, e ≠ .inexact ∧ parse f negative body = .error e := by
  unfold parse
  cases hone : afterLeadingOne body with
  | error e => exact ⟨e, by rw [afterLeadingOne_eq_error hone]; decide, rfl⟩
  | ok rest =>
    cases hsplit : splitFraction rest with
    | error e =>
      refine ⟨e, ?_, by simp only [bind, Except.bind, hsplit]⟩
      rcases splitFraction_eq_error hsplit with rfl | rfl <;> decide
    | ok parts =>
      obtain ⟨digits, tail⟩ := parts
      cases hf : fraction f digits with
      | error e =>
        refine ⟨e, ?_, by simp only [bind, Except.bind, hsplit, hf]⟩
        rcases fraction_eq_error hf with rfl | rfl <;> decide
      | ok F =>
        have hd : ∀ c ∈ digits, c.isHexDigit = true := by
          rw [← List.all_eq_true]
          by_contra hall
          simp only [fraction, hall] at hf
          cases hf
        cases he : exponent tail with
        | error e =>
          refine ⟨e, ?_, by simp only [bind, Except.bind, hsplit, hf, he]⟩
          rw [exponent_eq_error he]
          decide
        | ok e =>
          obtain ⟨t, ht, hdt⟩ := exists_text hone hsplit hd he
          refine absurd ⟨t, ht, F, ?_⟩ h
          rw [hdt]
          exact (fraction_eq_ok hd).mp hf

/-! ## What is accepted -/

/-- The pattern that a sign, an exponent and a fraction stand for: the value `(1 + fraction) * 2 ^
exponent`, or past the largest exponent the fraction under an exponent field of all ones, which is
infinity for the fraction zero and a NaN for any other. -/
def Denotes (f : FloatFormat) (negative : Bool) (exponent : ℤ) (fraction bits : ℕ) : Prop :=
  bits < 2 ^ f.width ∧ (f.fields bits).negative = negative ∧
    if f.maxExponent < exponent then
      (f.fields bits).exponent = f.exponentFieldMax ∧ (f.fields bits).fraction = fraction
    else f.magnitude bits < f.infinity ∧
      f.value (f.magnitude bits) = (1 + fraction / 2 ^ f.fractionBits) * 2 ^ exponent

/-- There is one pattern at most. -/
theorem Denotes.unique {f : FloatFormat} {negative : Bool} {exponent : ℤ} {fraction a b : ℕ}
    (ha : Denotes f negative exponent fraction a) (hb : Denotes f negative exponent fraction b) :
    a = b := by
  obtain ⟨ha, hna, hva⟩ := ha
  obtain ⟨hb, hnb, hvb⟩ := hb
  have hm : f.magnitude a = f.magnitude b := by
    split_ifs at hva hvb
    · rw [FloatFormat.magnitude_eq, FloatFormat.magnitude_eq, hva.1, hva.2, hvb.1, hvb.2]
    · exact f.value_strictMono.injective (hva.2.trans hvb.2.symm)
  rw [← FloatFormat.sign_add_magnitude ha, ← FloatFormat.sign_add_magnitude hb, hna, hnb, hm]

theorem place_denotes {f : FloatFormat} {negative : Bool} {exponent : ℤ} {F : ℕ}
    (hF : F < 2 ^ f.fractionBits) {x : FloatFormat.Fields}
    (h : place f negative exponent F = .ok x) : Denotes f negative exponent F (f.assemble x) := by
  have hlt := f.infinity_lt_signBit
  by_cases he : f.maxExponent < exponent
  · rw [place_of_gt he, Except.ok.injEq] at h
    have hfit : x.Fit f := by
      rw [← h]
      exact ⟨le_refl _, FloatFormat.le_fractionMask_iff.mpr hF⟩
    have hfields := FloatFormat.fields_assemble hfit
    refine ⟨?_, ?_, ?_⟩
    · rw [← h, FloatFormat.assemble, Nat.add_assoc]
      exact FloatFormat.sign_add_lt negative (FloatFormat.infinity_add_lt hF)
    · rw [hfields, ← h]
    · rw [if_pos he, hfields, ← h]
      exact ⟨rfl, rfl⟩
  · obtain ⟨m, hm, hv, ha⟩ := place_ok (not_lt.mp he) hF h
    have hms := FloatFormat.magnitude_sign_add negative (hm.trans hlt)
    rw [ha]
    refine ⟨FloatFormat.sign_add_lt negative (hm.trans hlt), ?_, ?_⟩
    · rw [FloatFormat.fields_sign_add negative (hm.trans hlt)]
    · rw [if_neg he, hms]
      exact ⟨hm, hv⟩

theorem not_denotes_of_error {f : FloatFormat} {negative : Bool} {exponent : ℤ} {F : ℕ}
    (hF : F < 2 ^ f.fractionBits) {e : Error} (h : place f negative exponent F = .error e) :
    e = .inexact ∧ ¬∃ bits, Denotes f negative exponent F bits := by
  obtain ⟨he, hle, hno⟩ := place_error hF h
  refine ⟨he, ?_⟩
  rintro ⟨bits, -, -, hv⟩
  rw [if_neg (not_lt.mpr hle)] at hv
  exact hno _ hv.1 hv.2

/-- A body with a fraction is accepted if there is a pattern, and inexact otherwise. -/
theorem parse_denotes (f : FloatFormat) (negative : Bool) (t : HexfloatText) {F : ℕ}
    (hF : (F : ℚ) = Numeral.fraction 16 t.digits * 2 ^ f.fractionBits) :
    (∃ bits, parse f negative t.text = .ok bits ∧ Denotes f negative t.exponent.value F bits) ∨
      parse f negative t.text = .error .inexact ∧
        ¬∃ bits, Denotes f negative t.exponent.value F bits := by
  have hlt := FloatFormat.le_fractionMask_iff.mp
    (fraction_le ((fraction_eq_ok t.isHexDigit_digits).mpr hF))
  rw [parse_text f negative t hF]
  cases hp : place f negative t.exponent.value F with
  | ok x => exact Or.inl ⟨_, rfl, place_denotes hlt hp⟩
  | error e =>
    obtain ⟨rfl, hno⟩ := not_denotes_of_error hlt hp
    exact Or.inr ⟨rfl, hno⟩

/-- A body has a pattern, or it lacks only the pattern, or the grammar or the fraction is wrong. -/
theorem parse_cases (f : FloatFormat) (negative : Bool) (body : List Char) :
    (∃ t : HexfloatText, t.text = body ∧
      ∃ F : ℕ, (F : ℚ) = Numeral.fraction 16 t.digits * 2 ^ f.fractionBits ∧
        ∃ bits, parse f negative body = .ok bits ∧ Denotes f negative t.exponent.value F bits) ∨
    (∃ t : HexfloatText, t.text = body ∧
      ∃ F : ℕ, (F : ℚ) = Numeral.fraction 16 t.digits * 2 ^ f.fractionBits ∧
        parse f negative body = .error .inexact ∧
          ¬∃ bits, Denotes f negative t.exponent.value F bits) ∨
    ((¬∃ t : HexfloatText, t.text = body ∧
      ∃ F : ℕ, (F : ℚ) = Numeral.fraction 16 t.digits * 2 ^ f.fractionBits) ∧
        ∃ e, e ≠ .inexact ∧ parse f negative body = .error e) := by
  by_cases hex : ∃ t : HexfloatText, t.text = body ∧
      ∃ F : ℕ, (F : ℚ) = Numeral.fraction 16 t.digits * 2 ^ f.fractionBits
  · obtain ⟨t, rfl, F, hF⟩ := hex
    rcases parse_denotes f negative t hF with hd | hno
    · exact Or.inl ⟨t, rfl, F, hF, hd⟩
    · exact Or.inr (Or.inl ⟨t, rfl, F, hF, hno⟩)
  · exact Or.inr (Or.inr ⟨hex, parse_other f negative body hex⟩)

/-- **What is accepted, what is inexact, and what is malformed.** A body is accepted if it has the
grammar, its fraction is an integer in units of the field, and there is a pattern for it; it is
inexact if only the pattern is missing, and malformed otherwise. -/
theorem parse_iff (f : FloatFormat) (negative : Bool) (body : List Char) :
    (∀ bits, parse f negative body = .ok bits ↔
      ∃ t : HexfloatText, t.text = body ∧
        ∃ F : ℕ, (F : ℚ) = Numeral.fraction 16 t.digits * 2 ^ f.fractionBits ∧
          Denotes f negative t.exponent.value F bits) ∧
    (parse f negative body = .error .inexact ↔
      ∃ t : HexfloatText, t.text = body ∧
        ∃ F : ℕ, (F : ℚ) = Numeral.fraction 16 t.digits * 2 ^ f.fractionBits ∧
          ¬∃ bits, Denotes f negative t.exponent.value F bits) ∧
    ((∃ e, e ≠ .inexact ∧ parse f negative body = .error e) ↔
      ¬∃ t : HexfloatText, t.text = body ∧
        ∃ F : ℕ, (F : ℚ) = Numeral.fraction 16 t.digits * 2 ^ f.fractionBits) := by
  refine ⟨fun bits => ⟨fun h => ?_, ?_⟩, ⟨fun h => ?_, ?_⟩, ⟨?_, parse_other f negative body⟩⟩
  · rcases parse_cases f negative body with ⟨t, ht, F, hF, bits', he, hd⟩ | ⟨_, _, _, _, he, _⟩ |
      ⟨_, _, _, he⟩ <;> rw [he] at h
    · obtain rfl := Except.ok.inj h
      exact ⟨t, ht, F, hF, hd⟩
    · cases h
    · cases h
  · rintro ⟨t, rfl, F, hF, hd⟩
    rcases parse_denotes f negative t hF with ⟨bits', hp, hd'⟩ | ⟨-, hno⟩
    · rw [hp, hd.unique hd']
    · exact absurd ⟨bits, hd⟩ hno
  · rcases parse_cases f negative body with ⟨_, _, _, _, _, he, _⟩ | ⟨t, ht, F, hF, _, hno⟩ |
      ⟨_, e, hne, he⟩
    · rw [he] at h
      cases h
    · exact ⟨t, ht, F, hF, hno⟩
    · rw [he] at h
      exact absurd (Except.error.inj h) hne
  · rintro ⟨t, rfl, F, hF, hno⟩
    rcases parse_denotes f negative t hF with ⟨bits', -, hd⟩ | ⟨hp, -⟩
    · exact absurd ⟨bits', hd⟩ hno
    · exact hp
  · rintro ⟨e, hne, he⟩ ⟨t, rfl, F, hF⟩
    rcases parse_denotes f negative t hF with ⟨bits', hp, -⟩ | ⟨hp, -⟩
    · rw [he] at hp
      cases hp
    · rw [he] at hp
      exact hne (Except.error.inj hp)

end Hexfloat

end LiteralCodec
