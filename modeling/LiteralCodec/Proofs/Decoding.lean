import LiteralCodec.Proofs.Codec
import LiteralCodec.Proofs.Extension

/-!
# Decoding, chunk by chunk

Words are decoded as many at a time as the type has. A chunk of that many words has a text if the
bits above the width are what they should be, and a shorter rest has none. So of two faults the one
further to the left is reported: a full chunk that is not extended comes before the rest, wherever
it stands.

Results:
* `Word.getElem?_chunks`: the chunks of a list of words.
* `Literal.write_of_extended`, `Literal.write_of_not_extended`, `Literal.write_of_length_ne`: the
  text of a chunk.
* `decode_eq_error`: the failure of all words is that of the first chunk that fails.
* `decode_append`: the literals of two lists of words.
* `decode_chunks`: which words are decoded, and which fault is reported of all others.
-/

namespace LiteralCodec

variable {ty : NumericType} {words : List Word}

/-! ## Chunks -/

namespace Word

/-- The chunk with an index, shorter than the others if there are not enough words. -/
def chunk (size k : ℕ) (words : List Word) : List Word := (words.drop (size * k)).take size

theorem length_chunk (size k : ℕ) (words : List Word) :
    (chunk size k words).length = min size (words.length - size * k) := by
  rw [chunk, List.length_take, List.length_drop]

/-- As many chunks are full as the size goes into the length. -/
theorem length_chunk_of_lt {size k : ℕ} (hs : 0 < size) (h : k < words.length / size) :
    (chunk size k words).length = size ∧ size * k < words.length := by
  have hle : (k + 1) * size ≤ words.length := (Nat.le_div_iff_mul_le hs).mp h
  rw [Nat.succ_mul, mul_comm] at hle
  rw [length_chunk]
  omega

/-- What is left behind them is shorter. -/
theorem length_chunk_rest {size : ℕ} (hs : 0 < size) (words : List Word) :
    (chunk size (words.length / size) words).length = words.length % size := by
  have hdiv := Nat.div_add_mod words.length size
  have hmod := Nat.mod_lt words.length hs
  rw [length_chunk]
  omega

/-- The chunks are those with an index, as long as there are words. -/
theorem getElem?_chunks {size : ℕ} (hs : 0 < size) (words : List Word) (k : ℕ) :
    (chunks size words)[k]? =
      if size * k < words.length then some (chunk size k words) else none := by
  induction words using chunks.induct size generalizing k with
  | case1 => simp [chunks]
  | case2 w words ih =>
    rw [chunks]
    cases k with
    | zero =>
      obtain ⟨n, rfl⟩ : ∃ n, size = n + 1 := ⟨size - 1, by omega⟩
      simp [chunk]
    | succ k =>
      have hstep : size * (k + 1) = size - 1 + size * k + 1 := by
        rw [Nat.mul_succ]
        omega
      rw [List.getElem?_cons_succ, ih, chunk, chunk, hstep, List.drop_succ_cons, List.drop_drop,
        List.length_drop, List.length_cons]
      exact if_congr (by omega) rfl rfl

theorem chunks_ne_nil {size : ℕ} (h : words ≠ []) : chunks size words ≠ [] := by
  cases words with
  | nil => exact absurd rfl h
  | cons w words =>
    rw [chunks]
    exact List.cons_ne_nil _ _

/-- Full chunks in front stay as they are. -/
theorem chunks_append_of_dvd {size : ℕ} (hs : 0 < size) {u : List Word} (h : size ∣ u.length)
    (v : List Word) : chunks size (u ++ v) = chunks size u ++ chunks size v := by
  obtain ⟨n, hn⟩ := h
  induction n generalizing u with
  | zero =>
    obtain rfl := List.eq_nil_of_length_eq_zero hn
    rw [List.nil_append, chunks, List.nil_append]
  | succ n ih =>
    rw [Nat.mul_succ] at hn
    have htake : (u.take size).length = size := by
      rw [List.length_take]
      omega
    have hdrop : (u.drop size).length = size * n := by
      rw [List.length_drop]
      omega
    have hu : chunks size u = u.take size :: chunks size (u.drop size) := by
      rw [← chunks_append htake hs, List.take_append_drop]
    rw [hu, List.cons_append, ← ih hdrop, ← chunks_append htake hs, ← List.append_assoc,
      List.take_append_drop]

end Word

/-! ## The text of a chunk -/

namespace Literal

theorem write_of_extended (h : words.length = ty.wordCount) (hext : Word.IsExtended ty words) :
    ∃ text, write ty words = .ok text := by
  have hlt : Word.join words % 2 ^ ty.width < 2 ^ ty.width := Nat.mod_lt _ (Nat.two_pow_pos _)
  rw [write_eq (Value.unpack_of_extended h hext), writeValue, Value.toBits_ofBits hlt]
  exact ⟨_, rfl⟩

theorem write_of_not_extended (h : words.length = ty.wordCount) (hext : ¬Word.IsExtended ty words) :
    write ty words = .error (.nonCanonicalPadding words ty) := by
  rw [write, Value.unpack_of_not_extended h hext]
  rfl

theorem write_of_length_ne (h : words.length ≠ ty.wordCount) :
    write ty words = .error (.wordCountMismatch ty.wordCount words.length) := by
  rw [write, Value.unpack_of_length_ne h]
  rfl

end Literal

/-! ## All chunks -/

/-- **The failure of all words** is that of the first chunk that fails. -/
theorem decode_eq_error {e : CodecError} :
    decode ty words = .error e ↔ ∃ k f, ty.wordCount * k < words.length ∧
      Literal.write ty (Word.chunk ty.wordCount k words) = .error f ∧ .disassemble f = e ∧
      ∀ j < k, ∃ text, Literal.write ty (Word.chunk ty.wordCount j words) = .ok text := by
  have hfirst : decode ty words = .error e ↔ ∃ f,
      (Word.chunks ty.wordCount words).mapM (Literal.write ty) = .error f ∧ .disassemble f = e := by
    rw [decode, bind_eq_error, mapError_eq_error]
    simp [pure, Except.pure]
  simp only [hfirst, mapM_eq_error, Word.getElem?_chunks ty.wordCount_pos]
  constructor
  · rintro ⟨f, ⟨k, words', hk, hf, hbefore⟩, rfl⟩
    split_ifs at hk with hlt
    obtain rfl := Option.some.inj hk
    have hle : ∀ j < k, ty.wordCount * j < words.length := fun j hj =>
      (Nat.mul_le_mul_left _ hj.le).trans_lt hlt
    exact ⟨k, f, hlt, hf, rfl, fun j hj => hbefore j hj _ (if_pos (hle j hj))⟩
  · rintro ⟨k, f, hlt, hf, rfl, hbefore⟩
    refine ⟨f, ⟨k, _, if_pos hlt, hf, fun j hj words' hj' => ?_⟩, rfl⟩
    split_ifs at hj'
    obtain rfl := Option.some.inj hj'
    exact hbefore j hj

/-! ## Two lists of words -/

theorem mapM_ne_nil {l : List (List Word)} {texts : List String} (hl : l ≠ [])
    (h : l.mapM (Literal.write ty) = .ok texts) : texts ≠ [] := by
  rintro rfl
  exact hl (List.forall₂_nil_right_iff.mp (mapM_eq_ok.mp h))

/-- **The literals of two lists of words** are those of the first and then of the second. -/
theorem decode_append {u v : List Word} {source : String} (hu : u ≠ []) (hv : v ≠ [])
    (h : ty.wordCount ∣ u.length) :
    decode ty (u ++ v) = .ok source ↔
      ∃ x y, decode ty u = .ok x ∧ decode ty v = .ok y ∧ source = x ++ " " ++ y := by
  simp only [decode_eq_ok_texts, Word.chunks_append_of_dvd ty.wordCount_pos h, List.mapM_append,
    bind_eq_ok, pure, Except.pure, Except.ok.injEq]
  constructor
  · rintro ⟨_, ⟨xs, hxs, ys, hys, rfl⟩, rfl⟩
    exact ⟨_, _, ⟨xs, hxs, rfl⟩, ⟨ys, hys, rfl⟩, String.intercalate_append_of_ne_nil
      (mapM_ne_nil (Word.chunks_ne_nil hu) hxs) (mapM_ne_nil (Word.chunks_ne_nil hv) hys)⟩
  · rintro ⟨_, _, ⟨xs, hxs, rfl⟩, ⟨ys, hys, rfl⟩, rfl⟩
    exact ⟨_, ⟨xs, hxs, ys, hys, rfl⟩, String.intercalate_append_of_ne_nil
      (mapM_ne_nil (Word.chunks_ne_nil hu) hxs) (mapM_ne_nil (Word.chunks_ne_nil hv) hys)⟩

/-- A single chunk is decoded as it is written. -/
theorem decode_of_length (h : words.length = ty.wordCount) :
    decode ty words = (Literal.write ty words).mapError .disassemble := by
  have hchunks := Word.chunks_append h ty.wordCount_pos []
  rw [List.append_nil, Word.chunks] at hchunks
  rw [decode, hchunks]
  cases hw : Literal.write ty words <;>
    simp [hw, bind, Except.bind, pure, Except.pure, Except.mapError]

/-! ## Which words are decoded -/

/-- The first full chunk that is not extended is reported, whatever stands behind it. -/
theorem decode_of_not_extended {k : ℕ} (hk : k < words.length / ty.wordCount)
    (hbefore : ∀ j < k, Word.IsExtended ty (Word.chunk ty.wordCount j words))
    (h : ¬Word.IsExtended ty (Word.chunk ty.wordCount k words)) :
    decode ty words =
      .error (.disassemble (.nonCanonicalPadding (Word.chunk ty.wordCount k words) ty)) := by
  obtain ⟨hlength, hlt⟩ := Word.length_chunk_of_lt ty.wordCount_pos hk
  refine decode_eq_error.mpr
    ⟨k, _, hlt, Literal.write_of_not_extended hlength h, rfl, fun j hj => ?_⟩
  exact Literal.write_of_extended (Word.length_chunk_of_lt ty.wordCount_pos (hj.trans hk)).1
    (hbefore j hj)

/-- A rest that is no full chunk is reported if all full chunks are extended. -/
theorem decode_of_rest
    (hext : ∀ k < words.length / ty.wordCount,
      Word.IsExtended ty (Word.chunk ty.wordCount k words))
    (h : ¬ty.wordCount ∣ words.length) :
    decode ty words =
      .error (.disassemble (.wordCountMismatch ty.wordCount (words.length % ty.wordCount))) := by
  have hs := ty.wordCount_pos
  have hdiv := Nat.div_add_mod words.length ty.wordCount
  have hpos := Nat.emod_pos_of_not_dvd h
  have hlength := Word.length_chunk_rest hs words
  have hne :
      (Word.chunk ty.wordCount (words.length / ty.wordCount) words).length ≠ ty.wordCount := by
    rw [hlength]
    exact (Nat.mod_lt _ hs).ne
  have hwrite := Literal.write_of_length_ne hne
  rw [hlength] at hwrite
  refine decode_eq_error.mpr ⟨_, _, by omega, hwrite, rfl, fun j hj => ?_⟩
  exact Literal.write_of_extended (Word.length_chunk_of_lt hs hj).1 (hext j hj)

/-- **Words are decoded** if they are full chunks that are extended, and only then. -/
theorem exists_decode_iff :
    (∃ source, decode ty words = .ok source) ↔ ty.wordCount ∣ words.length ∧
      ∀ k < words.length / ty.wordCount,
        Word.IsExtended ty (Word.chunk ty.wordCount k words) := by
  have hs := ty.wordCount_pos
  constructor
  · rintro ⟨source, hsource⟩
    have hext : ∀ k < words.length / ty.wordCount,
        Word.IsExtended ty (Word.chunk ty.wordCount k words) := by
      intro k
      induction k using Nat.strong_induction_on with
      | h k ih =>
        intro hk
        by_contra h
        rw [decode_of_not_extended hk (fun j hj => ih j hj (hj.trans hk)) h] at hsource
        cases hsource
    refine ⟨?_, hext⟩
    by_contra h
    rw [decode_of_rest hext h] at hsource
    cases hsource
  · rintro ⟨hdvd, hext⟩
    cases hdecode : decode ty words with
    | ok source => exact ⟨source, rfl⟩
    | error e =>
      obtain ⟨k, f, hlt, hf, -⟩ := decode_eq_error.mp hdecode
      have hk : k < words.length / ty.wordCount := by
        rwa [Nat.lt_div_iff_mul_lt_of_dvd hs.ne' hdvd, mul_comm]
      obtain ⟨text, htext⟩ :=
        Literal.write_of_extended (Word.length_chunk_of_lt hs hk).1 (hext k hk)
      rw [hf] at htext
      cases htext

/-- **Decoding goes chunk by chunk.** Words are decoded just if they are full chunks and all of them
are extended. Of the faults of all other words the leftmost is reported: the first full chunk that
is not extended, with its words, or else the rest, with the number of its words. A single chunk is
decoded as it is written, and words behind full chunks are decoded on their own, with a space in
between. -/
theorem decode_chunks (ty : NumericType) :
    (∀ words, (∃ source, decode ty words = .ok source) ↔ ty.wordCount ∣ words.length ∧
      ∀ k < words.length / ty.wordCount,
        Word.IsExtended ty (Word.chunk ty.wordCount k words)) ∧
    (∀ words, ∀ k < words.length / ty.wordCount,
      (∀ j < k, Word.IsExtended ty (Word.chunk ty.wordCount j words)) →
      ¬Word.IsExtended ty (Word.chunk ty.wordCount k words) →
        decode ty words =
          .error (.disassemble (.nonCanonicalPadding (Word.chunk ty.wordCount k words) ty))) ∧
    (∀ words, (∀ k < words.length / ty.wordCount,
        Word.IsExtended ty (Word.chunk ty.wordCount k words)) →
      ¬ty.wordCount ∣ words.length →
        decode ty words =
          .error (.disassemble (.wordCountMismatch ty.wordCount (words.length % ty.wordCount)))) ∧
    (∀ words, words.length = ty.wordCount →
      decode ty words = (Literal.write ty words).mapError .disassemble) ∧
    ∀ u v source, u ≠ [] → v ≠ [] → ty.wordCount ∣ u.length →
      (decode ty (u ++ v) = .ok source ↔
        ∃ x y, decode ty u = .ok x ∧ decode ty v = .ok y ∧ source = x ++ " " ++ y) :=
  ⟨fun _ => exists_decode_iff, fun _ _ hk hbefore h => decode_of_not_extended hk hbefore h,
    fun _ hext h => decode_of_rest hext h, fun _ h => decode_of_length h,
    fun _ _ _ hu hv h => decode_append hu hv h⟩

/-- Three numbers of 48 bits: the second has its sign bit in the middle of a word, and ones above it
though it is not set; the third is without its second word, which is reported only if all is well
before it. With the sign bit set, the first two are decoded. -/
theorem decode_chunks_middle :
    decode (.int true 48 (by decide) (by decide))
        [0xFFFFFFE0, 0xFFFFFFFF, 0x00000000, 0xFFFF7FFF, 0x00000001] =
      .error (.disassemble (.nonCanonicalPadding [0x00000000, 0xFFFF7FFF]
        (.int true 48 (by decide) (by decide)))) ∧
    decode (.int true 48 (by decide) (by decide))
        [0xFFFFFFE0, 0xFFFFFFFF, 0x00000000, 0xFFFF8000, 0x00000001] =
      .error (.disassemble (.wordCountMismatch 2 1)) ∧
    decode (.int true 48 (by decide) (by decide))
        [0xFFFFFFE0, 0xFFFFFFFF, 0x00000000, 0xFFFF8000] = .ok "-32 -140737488355328" := by
  obtain ⟨-, hfirst, hrest, -, happend⟩ := decode_chunks (.int true 48 (by decide) (by decide))
  refine ⟨?_, ?_, ?_⟩
  · exact hfirst [0xFFFFFFE0, 0xFFFFFFFF, 0x00000000, 0xFFFF7FFF, 0x00000001] 1 (by decide)
      (by decide +kernel) (by decide +kernel)
  · exact hrest [0xFFFFFFE0, 0xFFFFFFFF, 0x00000000, 0xFFFF8000, 0x00000001] (by decide +kernel)
      (by decide)
  · exact (happend [0xFFFFFFE0, 0xFFFFFFFF] [0x00000000, 0xFFFF8000] _ (by decide) (by decide)
      (by decide)).mpr
        ⟨"-32", "-140737488355328", by decide +kernel, by decide +kernel, by decide +kernel⟩

end LiteralCodec
