import LiteralCodec.Proofs.Hexfloat.Render
import LiteralCodec.Proofs.Written

/-!
# Hex floats lose nothing

A pattern can be told from the hex float it is printed as. Bits above the width of the format are
ignored; of what remains only the two zeroes are not printed, and every other pattern, NaN payloads
included, is read back to the bit, both by the grammar of hex floats and as a literal. A text has
one reading, so no other pattern is printed as the same text.

Results:
* `render_mod`: what is printed for bits above the width.
* `magnitude_eq_zero`: the two zeroes of a format.
* `render_lossless`: what is printed, and what it is read back as.
-/

namespace LiteralCodec.Hexfloat

variable {f : FloatFormat}

/-- Bits above the width of the format are not printed. -/
theorem render_mod (bits : ℕ) : render f (bits % 2 ^ f.width) = render f bits := by
  simp only [render, FloatFormat.fields_mod]

/-- **A format has two zeroes**, the sign bit being all that differs. -/
theorem magnitude_eq_zero {bits : ℕ} (h : bits < 2 ^ f.width) :
    f.magnitude bits = 0 ↔ bits = 0 ∨ bits = f.signBit := by
  constructor
  · intro h0
    have hb := FloatFormat.sign_add_magnitude h
    rw [h0, add_zero, FloatFormat.sign] at hb
    split_ifs at hb
    · exact Or.inr hb.symm
    · exact Or.inl hb.symm
  · rintro (rfl | rfl)
    · exact Nat.zero_mod _
    · exact Nat.mod_self _

/-- The sign of a pattern is its highest bit. -/
theorem negative_eq_testBit (bits : ℕ) :
    (f.fields bits).negative = bits.testBit (f.width - 1) := by
  rw [Nat.testBit_eq_decide_div_mod_eq]
  rfl

/-- **What is printed for a pattern other than a zero** is read back as the pattern. -/
theorem exists_lossless {bits : ℕ} (hb : bits < 2 ^ f.width) (h : f.magnitude bits ≠ 0) :
    ∃ body, render f bits =
        some (Numeral.sign (bits.testBit (f.width - 1)) ++ '0' :: 'x' :: body) ∧
      parse f (bits.testBit (f.width - 1)) body = .ok bits := by
  obtain ⟨t, htext, hparse⟩ := exists_render hb h
  rw [negative_eq_testBit] at htext hparse
  exact ⟨t.text, htext, hparse⟩

/-- **Hex floats are lossless.** Of the bits that are given only those of the format's width count.
Nothing is printed for them just if they are a positive or a negative zero; otherwise the text
is a minus if the sign bit is set, a hex mark, and a body which is read back as these bits. Read as
a literal the text gives their words, and no other bits of that width are printed as it. -/
theorem render_lossless (f : FloatFormat) (bits : ℕ) :
    (render f bits = none ↔ bits % 2 ^ f.width = 0 ∨ bits % 2 ^ f.width = f.signBit) ∧
      ∀ text, render f bits = some text →
        (∃ body,
          text = Numeral.sign ((bits % 2 ^ f.width).testBit (f.width - 1)) ++ '0' :: 'x' :: body ∧
            parse f ((bits % 2 ^ f.width).testBit (f.width - 1)) body = .ok (bits % 2 ^ f.width)) ∧
        (∀ reporter loc, Literal.read (.float f) reporter ⟨loc, String.ofList text⟩ =
          .ok (Word.split (bits % 2 ^ f.width) (Word.count f.width))) ∧
        ∀ bits', render f bits' = some text → bits' % 2 ^ f.width = bits % 2 ^ f.width := by
  have hlt : ∀ n : ℕ, n % 2 ^ f.width < 2 ^ f.width := fun n => Nat.mod_lt _ (Nat.two_pow_pos _)
  -- bits that are printed are those of a number other than a zero
  have hprinted : ∀ n text, render f n = some text →
      ∃ body, text = Numeral.sign ((n % 2 ^ f.width).testBit (f.width - 1)) ++ '0' :: 'x' :: body ∧
        parse f ((n % 2 ^ f.width).testBit (f.width - 1)) body = .ok (n % 2 ^ f.width) := by
    intro n text h
    rw [← render_mod] at h
    have hne : f.magnitude (n % 2 ^ f.width) ≠ 0 := by
      rw [Ne, ← render_eq_none, h]
      exact Option.some_ne_none _
    obtain ⟨body, htext, hparse⟩ := exists_lossless (hlt n) hne
    rw [h, Option.some.injEq] at htext
    exact ⟨body, htext, hparse⟩
  refine ⟨?_, fun text h => ?_⟩
  · rw [← render_mod, render_eq_none, magnitude_eq_zero (hlt bits)]
  · obtain ⟨body, htext, hparse⟩ := hprinted bits text h
    refine ⟨⟨body, htext, hparse⟩, fun reporter loc => ?_, fun bits' h' => ?_⟩
    · rw [htext]
      exact Literal.read_of_pattern (Literal.firstReading_hexfloat hparse) (hlt bits) reporter loc
    · -- the text is read in one way, whichever bits it was printed for
      obtain ⟨body', htext', hparse'⟩ := hprinted bits' text h'
      have hfirst := Literal.firstReading_hexfloat hparse
      rw [← htext, htext', Literal.firstReading_hexfloat hparse'] at hfirst
      exact Value.bits.inj (Except.ok.inj (Option.some.inj hfirst))

/-- The least subnormal of a half below zero, with bits above its width. -/
theorem render_lossless_least :
    Literal.read (.float .half) ⟨"literal: ", .hard⟩ ⟨none, "-0x1p-24"⟩ = .ok [0x8001] := by
  obtain ⟨-, hprinted⟩ := render_lossless .half 0xFFFF8001
  obtain ⟨-, hread, -⟩ := hprinted "-0x1p-24".toList (by decide +kernel)
  exact hread ⟨"literal: ", .hard⟩ none

end LiteralCodec.Hexfloat
