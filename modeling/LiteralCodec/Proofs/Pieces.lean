import Mathlib.Tactic.Common

/-!
# Pieces of a text

A text is cut at a separator into pieces, one more than it has separators. No piece has a separator
in it, and the text is the pieces with separators between them; there is only one way to cut it
so.

Results:
* `splitOn_eq_iff`: the pieces of a text, and that there are no others.
* `length_splitOn`: the number of pieces.
* `splitOn_append`, `splitOn_separator`: how a text is cut from the front.
-/

namespace LiteralCodec

variable {c : Char} {s text : List Char}

theorem not_mem_of_mem_splitOn (h : text ∈ s.splitOn c) : c ∉ text := by
  induction s generalizing text with
  | nil =>
    obtain rfl : text = [] := by simpa using h
    exact List.not_mem_nil
  | cons d s ih =>
    rw [List.splitOn_cons_eq_if_modifyHead] at h
    split_ifs at h with hd
    · rcases List.mem_cons.mp h with rfl | h
      · exact List.not_mem_nil
      · exact ih h
    · obtain ⟨head, tail, hsplit⟩ := List.exists_cons_of_ne_nil (List.splitOn_ne_nil c s)
      rw [hsplit, List.modifyHead_cons] at h
      rw [hsplit] at ih
      rcases List.mem_cons.mp h with rfl | h
      · have hne : c ≠ d := fun e => hd (beq_iff_eq.mpr e.symm)
        exact List.not_mem_cons_of_ne_of_not_mem hne (ih List.mem_cons_self)
      · exact ih (List.mem_cons_of_mem _ h)

/-- **The pieces of a text**, and that there are no others. -/
theorem splitOn_eq_iff {pieces : List (List Char)} :
    s.splitOn c = pieces ↔
      pieces ≠ [] ∧ (∀ piece ∈ pieces, c ∉ piece) ∧ [c].intercalate pieces = s := by
  constructor
  · rintro rfl
    exact ⟨List.splitOn_ne_nil c s, fun _ => not_mem_of_mem_splitOn, List.intercalate_splitOn c⟩
  · rintro ⟨hne, hmem, rfl⟩
    exact List.splitOn_intercalate c hmem hne

/-- A text has one piece more than it has separators. -/
theorem length_splitOn (c : Char) (s : List Char) : (s.splitOn c).length = s.count c + 1 := by
  induction s with
  | nil => rfl
  | cons d s ih =>
    rw [List.splitOn_cons_eq_if_modifyHead, List.count_cons]
    split_ifs
    · rw [List.length_cons, ih]
    · rw [List.length_modifyHead, ih, Nat.add_zero]

/-- A text without separators goes before the first piece. -/
theorem splitOn_append {first : List Char} {more : List (List Char)} (ht : c ∉ text)
    (hs : s.splitOn c = first :: more) : (text ++ s).splitOn c = (text ++ first) :: more := by
  induction text with
  | nil => exact hs
  | cons d text ih =>
    obtain ⟨hd, ht⟩ := not_or.mp (List.mem_cons.not.mp ht)
    have hne : ¬(d == c) = true := fun e => hd (beq_iff_eq.mp e).symm
    rw [List.cons_append, List.splitOn_cons_eq_if_modifyHead, if_neg hne, ih ht]
    rfl

theorem splitOn_separator (c : Char) (s : List Char) :
    (c :: s).splitOn c = [] :: s.splitOn c := by
  rw [List.splitOn_cons_eq_if_modifyHead, if_pos (beq_self_eq_true c)]

end LiteralCodec
