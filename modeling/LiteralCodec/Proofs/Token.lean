import LiteralCodec.Proofs.Token.Layout

/-!
# Words with single spaces between them

A text whose characters all lie between the plus sign and the letter z, the semicolon left out, is
one word: it holds no blank, no quote and no comment. Single spaces are gaps, so the tokens of such
texts with single spaces between them are the texts.

Results:
* `Plain.isWord`: such a text is a word.
* `tokenize_intercalate`: the tokens of a list of words.
-/

namespace LiteralCodec.Token

/-- A character that is part of a word wherever it stands. -/
def PlainChar (c : Char) : Prop := '+'.toNat ≤ c.toNat ∧ c.toNat ≤ 'z'.toNat ∧ c ≠ ';'

instance (c : Char) : Decidable (PlainChar c) := inferInstanceAs (Decidable (_ ∧ _))

/-- One or more such characters. -/
def Plain (s : List Char) : Prop := s ≠ [] ∧ ∀ c ∈ s, PlainChar c

/-! ## Characters -/

theorem isBlank_of_bounds {c : Char} (hlo : '+'.toNat ≤ c.toNat) (hhi : c.toNat ≤ 'z'.toNat) :
    isBlank c = false := by
  have hlo' : 43 ≤ c.toNat := hlo
  have hhi' : c.toNat ≤ 122 := hhi
  simp only [isBlank, blankRanges, List.any_cons, List.any_nil, Bool.or_eq_false_iff,
    Bool.and_eq_false_iff, decide_eq_false_iff_not, and_true]
  omega

theorem Plain.not_mem {s : List Char} (h : Plain s) {c : Char} (hc : c.toNat < '+'.toNat) : c ∉ s :=
  fun hm => absurd (h.2 c hm).1 (not_le.mpr hc)

/-- Such a text is a word if nothing behind it goes on with it. -/
theorem Plain.isWord {s : List Char} (h : Plain s) : IsWord s [] where
  ne_nil := h.1
  head_ne := fun hq => h.not_mem (c := '"') (by decide) (List.mem_of_mem_head? hq)
  wordChar := by
    intro c hc
    obtain ⟨hlo, hhi, hne⟩ := h.2 c hc
    exact ⟨isBlank_of_bounds hlo hhi, hne⟩
  ended := by simp

theorem Plain.isItem {s : List Char} (h : Plain s) : IsItem s :=
  ⟨.inl h.isWord, h.not_mem (by decide)⟩

/-! ## Sources -/

/-- Texts with single spaces between them are laid out. -/
theorem laidOut_intercalate (texts : List (List Char)) :
    LaidOut texts ([' '].intercalate texts) := by
  have htrailer : IsTrailer [] := ⟨[], .nil, .inl rfl⟩
  have hspace : IsGap [' '] := .blank (by decide) .nil
  induction texts with
  | nil => exact .nil htrailer
  | cons s texts ih =>
    cases texts with
    | nil =>
      rw [List.intercalate_singleton]
      have hlast : LaidOut [s] (s ++ []) := .last htrailer
      rwa [List.append_nil] at hlast
    | cons t texts =>
      rw [List.intercalate_cons_cons, List.append_assoc]
      exact .cons hspace (by simp) ih

/-- **The tokens of a list of words.** -/
theorem tokenize_intercalate {texts : List String} (h : ∀ s ∈ texts, Plain s.toList) :
    ∃ tokens, tokenize (" ".intercalate texts) = .ok tokens ∧ tokens.map (·.item) = texts := by
  have hlayout : IsLayout texts (" ".intercalate texts) :=
    ⟨[], _, .nil, laidOut_intercalate _, String.toList_intercalate⟩
  exact tokenize_layout hlayout fun s hs => (h s hs).isItem

end LiteralCodec.Token
