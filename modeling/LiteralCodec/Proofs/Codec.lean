import LiteralCodec.Proofs.Encoding
import LiteralCodec.Proofs.Written

/-!
# Encoding undoes decoding

Words that are decoded are cut into chunks, and each chunk holds the words of a pattern. The texts
of the patterns are words with single spaces between them, so they come back as the tokens of the
source, and each token is read as its pattern.

Results:
* `decode_eq_ok`: which words are decoded, and into which source.
* `encode_texts`: the source of a list of patterns is encoded as their words.
* `encode_decode`: encoding undoes decoding, and the words of all patterns are decoded.
-/

namespace LiteralCodec

/-! ## Chunks -/

theorem Word.chunks_append {size : ℕ} {l : List Word} (hl : l.length = size) (hs : 0 < size)
    (ws : List Word) : chunks size (l ++ ws) = l :: chunks size ws := by
  cases l with
  | nil => exact absurd hl hs.ne
  | cons w l =>
    rw [List.length_cons] at hl
    have hsize : size - 1 = l.length := by omega
    rw [List.cons_append, chunks, hsize, List.take_left, List.drop_left]

/-- Lists of one length are the chunks of that length. -/
theorem Word.chunks_flatten {size : ℕ} (hs : 0 < size) {ls : List (List Word)}
    (h : ∀ l ∈ ls, l.length = size) : chunks size ls.flatten = ls := by
  induction ls with
  | nil => rw [List.flatten_nil, chunks]
  | cons l ls ih =>
    rw [List.flatten_cons, chunks_append (h l List.mem_cons_self) hs,
      ih fun m hm => h m (List.mem_cons_of_mem l hm)]

/-! ## Decoding -/

variable {ty : NumericType}

/-- The chunks that have texts are the words of patterns. -/
theorem mapM_write_eq_ok {chunks : List (List Word)} {texts : List String} :
    chunks.mapM (Literal.write ty) = .ok texts ↔
      ∃ patterns : List ℕ, (∀ p ∈ patterns, p < 2 ^ ty.width) ∧
        chunks = patterns.map (fun p => Word.split (Value.extend ty p) ty.wordCount) ∧
        texts = patterns.map fun p => String.ofList (Literal.patternText ty p) := by
  constructor
  · intro h
    induction chunks generalizing texts with
    | nil =>
      obtain rfl := Except.ok.inj h
      exact ⟨[], List.forall_mem_nil _, rfl, rfl⟩
    | cons words chunks ih =>
      obtain ⟨text, texts, hw, hrest, rfl⟩ := mapM_cons_eq_ok.mp h
      obtain ⟨p, hp, rfl, rfl⟩ := Literal.write_eq_ok.mp hw
      obtain ⟨patterns, hps, rfl, rfl⟩ := ih hrest
      exact ⟨p :: patterns, List.forall_mem_cons.mpr ⟨hp, hps⟩, rfl, rfl⟩
  · rintro ⟨patterns, hps, rfl, rfl⟩
    induction patterns with
    | nil => rfl
    | cons p patterns ih =>
      obtain ⟨hp, hps⟩ := List.forall_mem_cons.mp hps
      exact mapM_cons_eq_ok.mpr ⟨_, _, Literal.write_eq_ok.mpr ⟨p, hp, rfl, rfl⟩, ih hps, rfl⟩

theorem NumericType.wordCount_pos (ty : NumericType) : 0 < ty.wordCount := by
  have := ty.width_pos
  unfold NumericType.wordCount Word.count
  omega

/-- Words are decoded if all their chunks have texts. -/
theorem decode_eq_ok_texts {words : List Word} {source : String} :
    decode ty words = .ok source ↔ ∃ texts,
      (Word.chunks ty.wordCount words).mapM (Literal.write ty) = .ok texts ∧
        " ".intercalate texts = source := by
  rw [decode, bind_eq_ok]
  simp only [mapError_eq_ok, pure, Except.pure, Except.ok.injEq]

/-- **Words that are decoded** are the words of patterns, and the source has their texts. -/
theorem decode_eq_ok {words : List Word} {source : String} :
    decode ty words = .ok source ↔ ∃ patterns : List ℕ, (∀ p ∈ patterns, p < 2 ^ ty.width) ∧
      words = patterns.flatMap (fun p => Word.split (Value.extend ty p) ty.wordCount) ∧
      source =
        " ".intercalate (patterns.map fun p => String.ofList (Literal.patternText ty p)) := by
  simp only [decode_eq_ok_texts, mapM_write_eq_ok]
  constructor
  · rintro ⟨texts, ⟨patterns, hps, hchunks, rfl⟩, rfl⟩
    refine ⟨patterns, hps, ?_, rfl⟩
    rw [← Word.flatten_chunks ty.wordCount words, hchunks, List.flatMap_def]
  · rintro ⟨patterns, hps, rfl, rfl⟩
    refine ⟨_, ⟨patterns, hps, ?_, rfl⟩, rfl⟩
    rw [List.flatMap_def]
    refine Word.chunks_flatten ty.wordCount_pos fun l hl => ?_
    obtain ⟨p, -, rfl⟩ := List.mem_map.mp hl
    exact Word.length_split _ _

/-! ## Encoding -/

/-- Tokens with the texts of patterns are read as the patterns. -/
theorem readAll_texts {reporter : Reporter} {patterns : List ℕ}
    (hps : ∀ p ∈ patterns, p < 2 ^ ty.width) {tokens : List Token}
    (h : tokens.map (·.item) = patterns.map fun p => String.ofList (Literal.patternText ty p)) :
    readAll ty reporter tokens =
      .ok (patterns.flatMap fun p => Word.split (Value.extend ty p) ty.wordCount) := by
  induction patterns generalizing tokens with
  | nil =>
    obtain rfl := List.map_eq_nil_iff.mp h
    rfl
  | cons p patterns ih =>
    obtain ⟨⟨loc, item⟩, rest, rfl, hitem, hrest⟩ := List.map_eq_cons_iff.mp h
    obtain rfl : item = String.ofList (Literal.patternText ty p) := hitem
    obtain ⟨hp, hps⟩ := List.forall_mem_cons.mp hps
    rw [readAll, Literal.read_patternText hp, ih hps hrest, List.flatMap_cons]
    rfl

/-- The tokens of such a source are the texts of the patterns. -/
theorem tokenize_texts {patterns : List ℕ} (hps : ∀ p ∈ patterns, p < 2 ^ ty.width) :
    ∃ tokens, Token.tokenize
        (" ".intercalate (patterns.map fun p => String.ofList (Literal.patternText ty p))) =
          .ok tokens ∧
      tokens.map (·.item) = patterns.map fun p => String.ofList (Literal.patternText ty p) := by
  refine Token.tokenize_intercalate fun s hs => ?_
  obtain ⟨p, hp, rfl⟩ := List.mem_map.mp hs
  rw [String.toList_ofList]
  exact Literal.plain_patternText (hps p hp)

/-- **The source of a list of patterns** is encoded as their words. -/
theorem encode_texts {patterns : List ℕ} (hps : ∀ p ∈ patterns, p < 2 ^ ty.width) :
    encode ty (" ".intercalate (patterns.map fun p => String.ofList (Literal.patternText ty p))) =
      .ok (patterns.flatMap fun p => Word.split (Value.extend ty p) ty.wordCount) := by
  obtain ⟨tokens, htokens, hitems⟩ := tokenize_texts hps
  exact encode_eq_ok.mpr ⟨tokens, htokens, readAll_texts hps hitems⟩

/-- **Encoding undoes decoding**: a source that words are decoded into is encoded as the same words.
And nothing is lost to a refusal, the words of any number of patterns are decoded. -/
theorem encode_decode (ty : NumericType) :
    (∀ words source, decode ty words = .ok source → encode ty source = .ok words) ∧
    (∀ patterns : List ℕ, (∀ p ∈ patterns, p < 2 ^ ty.width) →
      ∃ source,
        decode ty (patterns.flatMap fun p => Word.split (Value.extend ty p) ty.wordCount) =
          .ok source) := by
  refine ⟨fun words source h => ?_, fun patterns hps => ?_⟩
  · obtain ⟨patterns, hps, rfl, rfl⟩ := decode_eq_ok.mp h
    exact encode_texts hps
  · exact ⟨_, decode_eq_ok.mpr ⟨patterns, hps, rfl, rfl⟩⟩

/-- A NaN with a payload and the least subnormal, as halves. -/
theorem encode_decode_halves : ∃ source,
    decode (.float .half) [0x7E01, 0x0001] = .ok source ∧
      encode (.float .half) source = .ok [0x7E01, 0x0001] := by
  obtain ⟨undone, total⟩ := encode_decode (.float .half)
  obtain ⟨source, h⟩ := total [0x7E01, 0x0001] (by decide)
  exact ⟨source, h, undone _ _ h⟩

end LiteralCodec
