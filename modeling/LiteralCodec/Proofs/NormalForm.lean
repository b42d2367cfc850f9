import LiteralCodec.Proofs.Codec

/-!
# The normal form of a source

A literal may be written in many ways, and its words are those of one pattern. So the words of a
source can be decoded, whichever forms its literals have and whatever stands between them. What they
are decoded into is the **normal form** of the source: one text for each token, with single spaces
in between. It has the words of the source, and it is its own normal form.

Results:
* `Literal.exists_pattern`: the words that a literal is read as are those of a pattern.
* `encodable_iff_decodable`: some source has the words if they can be decoded.
* `decode_encode`: the normal form of a source.
-/

namespace LiteralCodec

variable {ty : NumericType} {reporter : Reporter} {tokens : List Token} {words : List Word}

/-- **A literal has the words of a pattern**, in whichever form it is written. -/
theorem Literal.exists_pattern {token : Token} (h : read ty reporter token = .ok words) :
    ∃ p < 2 ^ ty.width, Word.split (Value.extend ty p) ty.wordCount = words := by
  obtain ⟨value, -, hpack⟩ := read_ok_iff.mp h
  obtain ⟨p, hbits, rfl⟩ := Value.pack_eq_ok.mp hpack
  exact ⟨p, Value.toBits_lt hbits, rfl⟩

/-- Tokens that are literals have the words of as many patterns. -/
theorem exists_patterns (h : readAll ty reporter tokens = .ok words) :
    ∃ patterns : List ℕ, patterns.length = tokens.length ∧ (∀ p ∈ patterns, p < 2 ^ ty.width) ∧
      words = patterns.flatMap fun p => Word.split (Value.extend ty p) ty.wordCount := by
  obtain ⟨pieces, hpieces, rfl⟩ := readAll_eq_ok.mp h
  clear h
  induction hpieces with
  | nil => exact ⟨[], rfl, List.forall_mem_nil _, rfl⟩
  | cons hread _ ih =>
    obtain ⟨p, hp, rfl⟩ := Literal.exists_pattern hread
    obtain ⟨patterns, hlength, hps, hwords⟩ := ih
    refine ⟨p :: patterns, congrArg (· + 1) hlength, List.forall_mem_cons.mpr ⟨hp, hps⟩, ?_⟩
    rw [List.flatten_cons, List.flatMap_cons, hwords]

/-- Words that some source has are the words of patterns, as are those that can be decoded. -/
theorem encodable_iff_decodable :
    (∃ source, encode ty source = .ok words) ↔ ∃ text, decode ty words = .ok text := by
  constructor
  · rintro ⟨source, h⟩
    obtain ⟨tokens, -, hread⟩ := encode_eq_ok.mp h
    obtain ⟨patterns, -, hps, hwords⟩ := exists_patterns hread
    exact ⟨_, decode_eq_ok.mpr ⟨patterns, hps, hwords, rfl⟩⟩
  · rintro ⟨text, h⟩
    obtain ⟨patterns, hps, rfl, rfl⟩ := decode_eq_ok.mp h
    exact ⟨_, encode_texts hps⟩

/-- **The normal form of a source.** What is encoded can be decoded, into one text for each token of
the source with single spaces between them, and these texts are the tokens of the normal form. It is
encoded as the same words, and decoding them gives it again. So the words that can be decoded are
those that are encoded. -/
theorem decode_encode (ty : NumericType) :
    (∀ source words, encode ty source = .ok words →
      ∃ tokens texts normal, Token.tokenize source = .ok tokens ∧
        texts.length = tokens.length ∧ normal = " ".intercalate texts ∧
        decode ty words = .ok normal ∧
        (∃ tokens', Token.tokenize normal = .ok tokens' ∧ tokens'.map (·.item) = texts) ∧
        encode ty normal = .ok words ∧ (encode ty normal >>= decode ty) = .ok normal) ∧
    ∀ words, (∃ text, decode ty words = .ok text) ↔ ∃ source, encode ty source = .ok words := by
  refine ⟨fun source words h => ?_, fun words => encodable_iff_decodable.symm⟩
  obtain ⟨tokens, htokens, hread⟩ := encode_eq_ok.mp h
  obtain ⟨patterns, hlength, hps, rfl⟩ := exists_patterns hread
  have hdecode := decode_eq_ok.mpr ⟨patterns, hps, rfl, rfl⟩
  have hencode := encode_texts hps
  refine ⟨tokens, _, _, htokens, ?_, rfl, hdecode, tokenize_texts hps, hencode, ?_⟩
  · rw [List.length_map, hlength]
  · rw [hencode]
    exact hdecode

example :
    (encode (.int true 8 (by decide) (by decide)) "0xFF\n  !0x1 ; both" >>=
      decode (.int true 8 (by decide) (by decide))) = .ok "-1 1" := by
  decide +kernel

/-- Two bytes in other forms, and a comment. -/
theorem decode_encode_bytes :
    encode (.int true 8 (by decide) (by decide)) "0xFF\n  !0x1 ; both" =
        .ok [0xFFFFFFFF, 0x00000001] ∧
      ∃ texts, texts.length = 2 ∧
        decode (.int true 8 (by decide) (by decide)) [0xFFFFFFFF, 0x00000001] =
          .ok (" ".intercalate texts) := by
  have hencode : encode (.int true 8 (by decide) (by decide)) "0xFF\n  !0x1 ; both" =
      .ok [0xFFFFFFFF, 0x00000001] := by decide +kernel
  obtain ⟨tokens, texts, normal, htokens, hlength, rfl, hdecode, -⟩ :=
    (decode_encode (.int true 8 (by decide) (by decide))).1 _ _ hencode
  have htwo : Token.tokenize "0xFF\n  !0x1 ; both" =
      .ok [⟨some ⟨1, 1⟩, "0xFF"⟩, ⟨some ⟨2, 3⟩, "!0x1"⟩] := by decide +kernel
  obtain rfl := Except.ok.inj (htokens.symm.trans htwo)
  exact ⟨hencode, texts, hlength, hdecode⟩

end LiteralCodec
