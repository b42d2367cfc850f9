import LiteralCodec.Proofs.Token.Position

/-!
# A source from a place on

A source can be scanned from any place in it, which is a line, a column, and the text that is left
of the source. A newline leads to the beginning of the next line, another blank to a later column,
and a comment to the line behind it. A token leads to the place behind it, and comes before the
tokens from there on. So whatever a scanner meets it goes on in the same way, and a source can be
taken apart from the front without a look at its lines.

Results:
* `tokenize_eq_scanSource`: a source is scanned from its beginning.
* `scanSource_newline`, `scanSource_blank`, `scanSource_comment`: what leads on without a token.
* `scanSource_lexeme`: what a token leads to.
-/

namespace LiteralCodec.Token

variable {line column : ℕ} {c : Char} {s text : List Char}

/-- The tokens of some lines of a source, the first of them from a column on. -/
def scanFrom (line column : ℕ) : List (List Char) → Except (Located Error) (List Token)
  | [] => .ok []
  | first :: more => do
    let tokens ← scanLine line column first
    let lines ← scanLines (line + 1) more
    return tokens ++ lines.flatten

/-- The tokens of what is left of a source, from a line and a column on. -/
def scanSource (line column : ℕ) (s : List Char) : Except (Located Error) (List Token) :=
  scanFrom line column (s.splitOn '\n')

/-! ## Lines -/

/-- Lines are scanned from the first column on. -/
theorem scanLines_flatten (line : ℕ) (texts : List (List Char)) :
    (scanLines line texts).map List.flatten = scanFrom line 1 texts := by
  cases texts with
  | nil => rfl
  | cons first more =>
    rw [scanLines, scanFrom]
    cases scanLine line 1 first with
    | error e => rfl
    | ok tokens =>
      cases scanLines (line + 1) more <;> rfl

theorem tokenize_eq_scanSource (source : String) :
    tokenize source = scanSource 1 1 source.toList := by
  rw [tokenize_eq_scanLines, scanLines_flatten]
  rfl

/-- What is left of a source has a first line, and it begins with what the source begins with. -/
theorem exists_line (s : List Char) :
    ∃ first more, s.splitOn '\n' = first :: more ∧ ∀ c ∈ first.head?, c ∈ s.head? := by
  cases s with
  | nil => exact ⟨[], [], rfl, by simp⟩
  | cons c s =>
    rw [List.splitOn_cons_eq_if_modifyHead]
    split_ifs
    · exact ⟨[], _, rfl, by simp⟩
    · obtain ⟨first, more, hsplit⟩ := List.exists_cons_of_ne_nil (List.splitOn_ne_nil '\n' s)
      rw [hsplit, List.modifyHead_cons]
      exact ⟨c :: first, more, rfl, by simp⟩

/-! ## Steps -/

theorem scanSource_nil : scanSource line column [] = .ok [] := by
  simp [scanSource, scanFrom, scanLine_nil, scanLines, bind, Except.bind, pure, Except.pure]

/-- A line without tokens leads to the next one. -/
theorem scanFrom_cons {first : List Char} {more : List (List Char)}
    (h : scanLine line column first = .ok []) :
    scanFrom line column (first :: more) = scanFrom (line + 1) 1 more := by
  rw [scanFrom, h, ← scanLines_flatten]
  cases scanLines (line + 1) more <;> rfl

theorem scanSource_newline :
    scanSource line column ('\n' :: s) = scanSource (line + 1) 1 s := by
  rw [scanSource, splitOn_separator]
  exact scanFrom_cons scanLine_nil

theorem scanSource_blank (hc : isBlank c = true) (hn : c ≠ '\n') :
    scanSource line column (c :: s) = scanSource line (column + c.utf8Size) s := by
  obtain ⟨first, more, hs, -⟩ := exists_line s
  have hc' : '\n' ∉ [c] := by simpa using hn.symm
  have hsplit := splitOn_append hc' hs
  rw [List.singleton_append, List.singleton_append] at hsplit
  rw [scanSource, scanSource, hsplit, hs, scanFrom, scanFrom, scanLine_blank hc]

/-- A comment that a newline closes leads to the line behind it. -/
theorem scanSource_comment {body : List Char} (hb : '\n' ∉ body) :
    scanSource line column (';' :: (body ++ '\n' :: s)) = scanSource (line + 1) 1 s := by
  have hcomment : '\n' ∉ ';' :: body := List.not_mem_cons_of_ne_of_not_mem (by decide) hb
  have hsplit := splitOn_append hcomment (splitOn_separator '\n' s)
  rw [List.append_nil, List.cons_append] at hsplit
  rw [scanSource, hsplit]
  exact scanFrom_cons scanLine_comment

/-- A comment that nothing closes is the end of a source. -/
theorem scanSource_comment_end {body : List Char} (hb : '\n' ∉ body) :
    scanSource line column (';' :: body) = .ok [] := by
  have hcomment : '\n' ∉ ';' :: body := List.not_mem_cons_of_ne_of_not_mem (by decide) hb
  rw [scanSource, List.splitOn_eq_singleton hcomment, scanFrom_cons scanLine_comment]
  rfl

/-- **A token at the front of what is left** comes before the tokens behind it. -/
theorem scanSource_lexeme (h : IsLexeme text []) (ht : '\n' ∉ text)
    (hs : ∀ c ∈ s.head?, isBlank c = true ∨ c = ';') :
    scanSource line column (text ++ s) = do
      let tokens ← scanSource line (column + byteLength text) s
      return ⟨some ⟨line, column⟩, String.ofList text⟩ :: tokens := by
  obtain ⟨first, more, hfirst, hhead⟩ := exists_line s
  have hlexeme : IsLexeme text first := h.behind fun c hc => hs c (hhead c hc)
  rw [scanSource, scanSource, splitOn_append ht hfirst, hfirst, scanFrom, scanFrom,
    scanLine_lexeme hlexeme]
  cases scanLine line (column + byteLength text) first with
  | error e => rfl
  | ok tokens =>
    cases scanLines (line + 1) more <;> rfl

end LiteralCodec.Token
