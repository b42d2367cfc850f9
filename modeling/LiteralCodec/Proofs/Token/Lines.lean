import LiteralCodec.Proofs.Token.Position

/-!
# Lines of a source, one behind the other

Nothing but the number of a line goes from one line to the next. So the lines of two texts with a
newline between them are the lines of the one and then those of the other, and they are scanned as
such: up to the first line that fails, whichever text it is in. What is found in a line that stands
further down is the same, further down.

Results:
* `sourceLines_newline`, `length_sourceLines`: the lines of two texts, and how many a text has.
* `scanLines_append`: lines are scanned one behind the other.
* `scanLines_eq_error`: scanning fails at the first line that fails.
* `scanLines_down`: what is found further down.
* `tokenize_append_newline`: the tokens of two texts with a newline between them.
-/

namespace LiteralCodec

/-- The same thing, so many lines further down. -/
def Located.down {α : Type} (n : ℕ) (x : Located α) : Located α where
  loc := x.loc.map fun loc => { loc with line := loc.line + n }
  item := x.item

namespace Token

variable {line column column' : ℕ} {s rest : List Char} {tokens : List Token}

/-! ## Lines of two texts -/

theorem sourceLines_newline (a b : String) :
    sourceLines (a ++ "\n" ++ b) = sourceLines a ++ sourceLines b := by
  have hb : "\n".toList ++ b.toList = '\n' :: b.toList := rfl
  rw [sourceLines, String.toList_append, String.toList_append, List.append_assoc, hb,
    List.splitOn_append_cons_self]
  rfl

/-- A source has one line more than it has newlines. -/
theorem length_sourceLines (source : String) :
    (sourceLines source).length = source.toList.count '\n' + 1 :=
  length_splitOn '\n' source.toList

/-! ## One behind the other -/

/-- **Lines are scanned one behind the other.** -/
theorem scanLines_append (line : ℕ) (a b : List (List Char)) :
    scanLines line (a ++ b) = do
      let first ← scanLines line a
      let second ← scanLines (line + a.length) b
      return first ++ second := by
  induction a generalizing line with
  | nil => cases h : scanLines line b <;> simp [scanLines, h, bind, Except.bind, pure, Except.pure]
  | cons text a ih =>
    rw [List.cons_append, scanLines, scanLines, ih, List.length_cons, Nat.add_comm a.length,
      ← Nat.add_assoc]
    cases scanLine line 1 text with
    | error e => rfl
    | ok tokens =>
      cases scanLines (line + 1) a with
      | error e => rfl
      | ok first => cases scanLines (line + 1 + a.length) b <;> rfl

/-- **Scanning fails at the first line that fails.** -/
theorem scanLines_eq_error {texts : List (List Char)} {e : Located Error} :
    scanLines line texts = .error e ↔ ∃ before text after lines,
      texts = before ++ text :: after ∧ scanLines line before = .ok lines ∧
        scanLine (line + before.length) 1 text = .error e := by
  constructor
  · intro h
    induction texts generalizing line with
    | nil => cases h
    | cons text texts ih =>
      rcases bind_eq_error.mp h with h | ⟨tokens, htokens, h⟩
      · exact ⟨[], text, texts, [], rfl, rfl, h⟩
      · rcases bind_eq_error.mp h with h | ⟨more, -, h⟩
        · obtain ⟨before, text', after, lines, rfl, hlines, herror⟩ := ih h
          refine ⟨text :: before, text', after, tokens :: lines, rfl, ?_, ?_⟩
          · rw [scanLines, htokens, hlines]
            rfl
          · rwa [List.length_cons, Nat.add_comm before.length, ← Nat.add_assoc]
        · cases h
  · rintro ⟨before, text, after, lines, rfl, hlines, herror⟩
    rw [scanLines_append, hlines, scanLines, herror]
    rfl

/-! ## Further down -/

/-- What is passed over further down. -/
theorem Scans.down (h : Scans line column s tokens column' rest) (n : ℕ) :
    Scans (line + n) column s (tokens.map (Located.down n)) column' rest := by
  induction h with
  | refl => exact .refl
  | blank hc _ ih => exact .blank hc ih
  | lexeme hlexeme _ ih => exact .lexeme hlexeme ih

theorem scanLine_down (n line column : ℕ) (s : List Char) :
    scanLine (line + n) column s =
      ((scanLine line column s).map (List.map (Located.down n))).mapError (Located.down n) := by
  obtain ⟨tokens, column', rest, hscan, hend | hquote⟩ := exists_scans line column s
  · rw [hscan.scanLine_eq, (hscan.down n).scanLine_eq, hend.scanLine_eq, hend.scanLine_eq]
    simp [Except.map, Except.mapError]
  · rw [hscan.scanLine_eq, (hscan.down n).scanLine_eq, hquote.scanLine_eq, hquote.scanLine_eq]
    rfl

/-- **What is found further down** is the same, further down. -/
theorem scanLines_down (n line : ℕ) (texts : List (List Char)) :
    scanLines (line + n) texts =
      ((scanLines line texts).map (List.map (List.map (Located.down n)))).mapError
        (Located.down n) := by
  induction texts generalizing line with
  | nil => rfl
  | cons text texts ih =>
    rw [scanLines, scanLines, scanLine_down, Nat.add_right_comm, ih]
    cases scanLine line 1 text with
    | error e => rfl
    | ok tokens => cases scanLines (line + 1) texts <;> rfl

/-- **The tokens of two texts with a newline between them** are those of the one and then those of
the other, further down by the lines of the first. A failure of the first comes before all else. -/
theorem tokenize_append_newline (a b : String) :
    tokenize (a ++ "\n" ++ b) = do
      let first ← tokenize a
      let second ← (tokenize b).mapError (Located.down (a.toList.count '\n' + 1))
      return first ++ second.map (Located.down (a.toList.count '\n' + 1)) := by
  simp only [tokenize_eq_scanLines]
  rw [sourceLines_newline, scanLines_append, scanLines_down, length_sourceLines]
  cases scanLines 1 (sourceLines a) with
  | error e => rfl
  | ok first =>
    cases scanLines 1 (sourceLines b) with
    | error e => rfl
    | ok second =>
      simp [bind, Except.bind, pure, Except.pure, Except.map, Except.mapError, List.map_flatten]

end Token

end LiteralCodec
