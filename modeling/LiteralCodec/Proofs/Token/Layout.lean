import LiteralCodec.Proofs.Token.Source

/-!
# Laying tokens out

Between two tokens of a source there may stand blanks and comments, in any order and as many as one
likes, as long as each comment is closed by a newline. The same may stand before the first token and
behind the last, where a last comment need not be closed. A scanner that is in front of such a gap
gets behind it without a token, and what it meets next is the next token, in whatever line and
column that is; so the tokens of a source are the texts that were laid out.

Results:
* `IsGap.scanSource_eq`, `IsTrailer.scanSource_eq`: nothing in a gap is a token.
* `LaidOut.exists_tokens`: what is laid out from the first token on.
* `tokenize_layout`: the tokens of a source that was laid out.
* `isItem_of_tokenize`: all tokens of a source can be laid out.
-/

namespace LiteralCodec.Token

/-! ## Layouts -/

/-- Blanks and comments, each comment closed by a newline. -/
inductive IsGap : List Char → Prop
  | nil : IsGap []
  | blank {c : Char} {gap : List Char} : isBlank c = true → IsGap gap → IsGap (c :: gap)
  | comment {body gap : List Char} : '\n' ∉ body → IsGap gap → IsGap (';' :: (body ++ '\n' :: gap))

/-- What may stand behind the last token: a gap, and a comment that nothing closes. -/
def IsTrailer (s : List Char) : Prop :=
  ∃ gap, IsGap gap ∧ (s = gap ∨ ∃ body, '\n' ∉ body ∧ s = gap ++ ';' :: body)

/-- Texts with gaps between them, from the first text on. -/
inductive LaidOut : List (List Char) → List Char → Prop
  | nil {s : List Char} : IsTrailer s → LaidOut [] s
  | last {text s : List Char} : IsTrailer s → LaidOut [text] (text ++ s)
  | cons {text next gap s : List Char} {texts : List (List Char)} : IsGap gap → gap ≠ [] →
      LaidOut (next :: texts) s → LaidOut (text :: next :: texts) (text ++ (gap ++ s))

/-- A source that texts can be laid out as. -/
def IsLayout (texts : List String) (source : String) : Prop :=
  ∃ gap s, IsGap gap ∧ LaidOut (texts.map String.toList) s ∧ source.toList = gap ++ s

/-- A text that is a token wherever it is laid out. -/
def IsItem (text : List Char) : Prop := IsLexeme text [] ∧ '\n' ∉ text

/-! ## Gaps -/

variable {gap s : List Char} {texts : List (List Char)}

/-- No word goes on into a gap. -/
theorem IsGap.head_append (h : IsGap gap) (hne : gap ≠ []) (s : List Char) :
    ∀ c ∈ (gap ++ s).head?, isBlank c = true ∨ c = ';' := by
  cases h with
  | nil => exact absurd rfl hne
  | blank hc _ =>
    rintro _ ⟨rfl⟩
    exact .inl hc
  | comment _ _ =>
    rintro _ ⟨rfl⟩
    exact .inr rfl

theorem IsTrailer.head (h : IsTrailer s) : ∀ c ∈ s.head?, isBlank c = true ∨ c = ';' := by
  obtain ⟨gap, hgap, htail⟩ := h
  by_cases hne : gap = []
  · subst hne
    rcases htail with rfl | ⟨body, -, rfl⟩
    · simp
    · rintro _ ⟨rfl⟩
      exact .inr rfl
  · rcases htail with rfl | ⟨body, -, rfl⟩
    · simpa using hgap.head_append hne []
    · exact hgap.head_append hne _

/-- **A gap leads to a place behind it**, whatever stands there. -/
theorem IsGap.scanSource_eq (h : IsGap gap) (line column : ℕ) :
    ∃ line' column', ∀ s, scanSource line column (gap ++ s) = scanSource line' column' s := by
  induction h generalizing line column with
  | nil => exact ⟨line, column, fun s => rfl⟩
  | @blank c gap hc _ ih =>
    by_cases hn : c = '\n'
    · subst hn
      obtain ⟨line', column', hgap⟩ := ih (line + 1) 1
      exact ⟨line', column', fun s => by rw [List.cons_append, scanSource_newline, hgap]⟩
    · obtain ⟨line', column', hgap⟩ := ih line (column + c.utf8Size)
      exact ⟨line', column', fun s => by rw [List.cons_append, scanSource_blank hc hn, hgap]⟩
  | @comment body gap hb _ ih =>
    obtain ⟨line', column', hgap⟩ := ih (line + 1) 1
    refine ⟨line', column', fun s => ?_⟩
    rw [List.cons_append, List.append_assoc, List.cons_append, scanSource_comment hb, hgap]

/-- There are no tokens behind the last one. -/
theorem IsTrailer.scanSource_eq (h : IsTrailer s) (line column : ℕ) :
    scanSource line column s = .ok [] := by
  obtain ⟨gap, hgap, htail⟩ := h
  obtain ⟨line', column', heq⟩ := hgap.scanSource_eq line column
  rcases htail with rfl | ⟨body, hb, rfl⟩
  · rw [← List.append_nil s, heq, scanSource_nil]
  · rw [heq, scanSource_comment_end hb]

/-! ## Tokens -/

/-- **What is laid out from the first token on** has the texts as its tokens. -/
theorem LaidOut.exists_tokens (h : LaidOut texts s) (ht : ∀ text ∈ texts, IsItem text)
    (line column : ℕ) :
    ∃ tokens, scanSource line column s = .ok tokens ∧
      tokens.map (·.item) = texts.map String.ofList := by
  induction h generalizing line column with
  | nil htrailer => exact ⟨[], htrailer.scanSource_eq line column, rfl⟩
  | @last text s htrailer =>
    obtain ⟨hlexeme, hline⟩ := ht text List.mem_cons_self
    refine ⟨[⟨some ⟨line, column⟩, String.ofList text⟩], ?_, rfl⟩
    rw [scanSource_lexeme hlexeme hline htrailer.head, htrailer.scanSource_eq]
    rfl
  | @cons text next gap s texts hgap hne _ ih =>
    obtain ⟨⟨hlexeme, hline⟩, ht⟩ := List.forall_mem_cons.mp ht
    obtain ⟨line', column', heq⟩ := hgap.scanSource_eq line (column + byteLength text)
    obtain ⟨tokens, hscan, hitems⟩ := ih ht line' column'
    refine ⟨⟨some ⟨line, column⟩, String.ofList text⟩ :: tokens, ?_, ?_⟩
    · rw [scanSource_lexeme hlexeme hline (hgap.head_append hne s), heq, hscan]
      rfl
    · rw [List.map_cons, List.map_cons, hitems]

/-- **The tokens of a source that was laid out** are the texts that were laid out. -/
theorem tokenize_layout {texts : List String} {source : String} (h : IsLayout texts source)
    (ht : ∀ text ∈ texts, IsItem text.toList) :
    ∃ tokens, tokenize source = .ok tokens ∧ tokens.map (·.item) = texts := by
  obtain ⟨gap, s, hgap, hlaid, hsource⟩ := h
  obtain ⟨line, column, heq⟩ := hgap.scanSource_eq 1 1
  obtain ⟨tokens, hscan, hitems⟩ := hlaid.exists_tokens (List.forall_mem_map.mpr ht) line column
  refine ⟨tokens, ?_, ?_⟩
  · rw [tokenize_eq_scanSource, hsource, heq, hscan]
  · rw [hitems, List.map_map]
    simp [Function.comp_def]

/-- **All tokens of a source can be laid out.** -/
theorem isItem_of_tokenize {source : String} {tokens : List Token} {token : Token}
    (h : tokenize source = .ok tokens) (hm : token ∈ tokens) : IsItem token.item.toList := by
  obtain ⟨loc, before, after, hstands, hlexeme⟩ := exists_stands h hm
  refine ⟨hlexeme.behind (by simp), fun hn => ?_⟩
  have hline := (sourceLines_spec source).2 _ (List.mem_of_getElem? hstands.line_eq)
  exact hline (List.mem_append_left after (List.mem_append_right before hn))

end LiteralCodec.Token
