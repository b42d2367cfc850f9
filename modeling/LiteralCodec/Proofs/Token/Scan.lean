import LiteralCodec.Token
import Mathlib.Data.List.TakeWhile

/-!
# How a line is cut into tokens

What a token is can be said without the scanner. A **word** is not empty, starts with no quote,
holds no blank and no semicolon, and stands before a blank, a semicolon or the end of the line. A
**quoted** token starts with a quote and ends at the next one that is not escaped; a backslash
escapes what follows it, unless it is escaped itself. A scanner passes over blanks and over tokens,
one after the other, up to the end of the line or to a semicolon.

Results:
* `splitQuoted_eq_some`: a quoted token is cut off at its end, and nothing else is.
* `scanLine_lexeme`: a token at the front of a line is the first one of the line.
* `exists_scans`: a scanner stops at the end of the line, at a comment or at an open quote.
* `scanLine_eq_ok`, `scanLine_eq_error`: the tokens of a line, and where it fails.
-/

namespace LiteralCodec.Token

/-! ## Tokens -/

/-- A word, with what stands behind it. -/
structure IsWord (text rest : List Char) : Prop where
  ne_nil : text ≠ []
  head_ne : text.head? ≠ some '"'
  wordChar : ∀ c ∈ text, isBlank c = false ∧ c ≠ ';'
  ended : ∀ c ∈ rest.head?, isBlank c = true ∨ c = ';'

/-- Whether a text between quotes escapes what follows it. -/
def escapes (s : List Char) : Bool := s.foldl (fun escaped c => !escaped && c == '\\') false

/-- A text that a quote closes when it follows, and that no quote closes before. -/
structure Closes (s : List Char) : Prop where
  unescaped : escapes s = false
  escaped : ∀ before after, s = before ++ '"' :: after → escapes before = true

/-- A quoted token. -/
def IsQuoted (text : List Char) : Prop := ∃ body, Closes body ∧ text = '"' :: (body ++ ['"'])

/-- A token, with what stands behind it. -/
def IsLexeme (text rest : List Char) : Prop := IsWord text rest ∨ IsQuoted text

theorem IsLexeme.ne_nil {text rest : List Char} (h : IsLexeme text rest) : text ≠ [] := by
  rcases h with h | ⟨body, -, rfl⟩
  · exact h.ne_nil
  · exact List.cons_ne_nil _ _

/-- A token stays one before anything that no word goes on with. -/
theorem IsLexeme.behind {text rest rest' : List Char} (h : IsLexeme text rest)
    (hend : ∀ c ∈ rest'.head?, isBlank c = true ∨ c = ';') : IsLexeme text rest' := by
  rcases h with h | h
  · exact .inl ⟨h.ne_nil, h.head_ne, h.wordChar, hend⟩
  · exact .inr h

/-! ## Quotes -/

theorem escapes_cons {c : Char} (hc : c ≠ '\\') (s : List Char) : escapes (c :: s) = escapes s := by
  have hb : (c == '\\') = false := by simpa using hc
  simp only [escapes, List.foldl_cons, hb, Bool.and_false]

theorem closes_nil : Closes [] where
  unescaped := rfl
  escaped := by
    intro before after h
    cases before <;> cases h

theorem not_closes_quote (s : List Char) : ¬Closes ('"' :: s) :=
  fun h => Bool.false_ne_true (h.escaped [] s rfl)

theorem closes_cons {c : Char} (hq : c ≠ '"') (hb : c ≠ '\\') {s : List Char} :
    Closes (c :: s) ↔ Closes s := by
  constructor
  · intro h
    refine ⟨by rw [← escapes_cons hb, h.unescaped], ?_⟩
    rintro before after rfl
    rw [← escapes_cons hb]
    exact h.escaped (c :: before) after rfl
  · intro h
    refine ⟨by rw [escapes_cons hb, h.unescaped], fun before after he => ?_⟩
    cases before with
    | nil => exact absurd (List.cons.inj he).1 hq
    | cons d before =>
      obtain ⟨rfl, rfl⟩ := List.cons.inj he
      rw [escapes_cons hb]
      exact h.escaped before after rfl

/-- A backslash that nothing escapes takes the next character with it. -/
theorem closes_backslash_cons {c : Char} {s : List Char} : Closes ('\\' :: c :: s) ↔ Closes s := by
  constructor
  · intro h
    refine ⟨h.unescaped, ?_⟩
    rintro before after rfl
    exact h.escaped ('\\' :: c :: before) after rfl
  · intro h
    refine ⟨h.unescaped, fun before after he => ?_⟩
    rcases before with _ | ⟨d, _ | ⟨e, before⟩⟩
    · cases he
    · cases he
      rfl
    · obtain ⟨rfl, htail⟩ := List.cons.inj he
      obtain ⟨rfl, rfl⟩ := List.cons.inj htail
      exact h.escaped before after rfl

/-- **A text is cut behind the first quote that is not escaped.** -/
theorem splitQuoted_eq_some {s text rest : List Char} :
    splitQuoted s = some (text, rest) ↔
      ∃ body, Closes body ∧ text = body ++ ['"'] ∧ s = text ++ rest := by
  fun_induction splitQuoted s generalizing text with
  | case1 =>
    constructor
    · intro h
      cases h
    · rintro ⟨body, -, rfl, h⟩
      cases body <;> cases h
  | case2 s =>
    constructor
    · intro h
      cases h
      exact ⟨[], closes_nil, rfl, rfl⟩
    · rintro ⟨body, hbody, rfl, h⟩
      cases body with
      | nil => cases h; rfl
      | cons c body =>
        obtain ⟨rfl, -⟩ := List.cons.inj h
        exact absurd hbody (not_closes_quote body)
  | case3 c s ih =>
    rw [Option.map_eq_some_iff]
    constructor
    · rintro ⟨⟨text, rest⟩, hsplit, h⟩
      cases h
      obtain ⟨body, hbody, rfl, rfl⟩ := ih.mp hsplit
      exact ⟨'\\' :: c :: body, closes_backslash_cons.mpr hbody, rfl, rfl⟩
    · rintro ⟨body, hbody, rfl, h⟩
      rcases body with _ | ⟨d, _ | ⟨e, body⟩⟩
      · cases h
      · obtain ⟨rfl, -⟩ := List.cons.inj h
        cases hbody.unescaped
      · obtain ⟨rfl, htail⟩ := List.cons.inj h
        obtain ⟨rfl, rfl⟩ := List.cons.inj htail
        exact ⟨_, ih.mpr ⟨body, closes_backslash_cons.mp hbody, rfl, rfl⟩, rfl⟩
  | case4 c s hq hb ih =>
    -- a backslash at the very end escapes nothing, and no quote follows it
    have hne : s ≠ [] → c ≠ '\\' := by
      rintro hs rfl
      obtain ⟨d, s, rfl⟩ := List.exists_cons_of_ne_nil hs
      exact hb d s rfl rfl
    rw [Option.map_eq_some_iff]
    constructor
    · rintro ⟨⟨text, rest⟩, hsplit, h⟩
      cases h
      obtain ⟨body, hbody, rfl, rfl⟩ := ih.mp hsplit
      exact ⟨c :: body, (closes_cons hq (hne (by simp))).mpr hbody, rfl, rfl⟩
    · rintro ⟨body, hbody, rfl, h⟩
      cases body with
      | nil => exact absurd (List.cons.inj h).1 hq
      | cons d body =>
        obtain ⟨rfl, rfl⟩ := List.cons.inj h
        exact ⟨_, ih.mpr ⟨body, (closes_cons hq (hne (by simp))).mp hbody, rfl, rfl⟩, rfl⟩

/-! ## Collecting -/

section Collecting

variable {α : Type}

theorem collect_nil : collect ([] : List (Except (Located Error) α)) = .ok [] := rfl

theorem collect_cons (item : Except (Located Error) α) (items : List (Except (Located Error) α)) :
    collect (item :: items) = do
      let a ← item
      let more ← collect items
      return a :: more := by
  rw [collect, List.mapM_cons]
  rfl

theorem collect_append (a b : List (Except (Located Error) α)) :
    collect (a ++ b) = do
      let first ← collect a
      let second ← collect b
      return first ++ second :=
  List.mapM_append

end Collecting

/-! ## Lines -/

variable {line column column' : ℕ} {c : Char} {s text rest : List Char} {tokens : List Token}

/-- A quoted token is cut off at its end. -/
theorem lineItems_closed (h : splitQuoted s = some (text, rest)) :
    lineItems line column ('"' :: s) =
      .ok ⟨some ⟨line, column⟩, String.ofList ('"' :: text)⟩ ::
        lineItems line (column + byteLength ('"' :: text)) rest := by
  rw [lineItems, if_neg (by decide), if_neg (by decide), if_pos rfl]
  split
  · next hnone =>
    rw [h] at hnone
    cases hnone
  · next hsome =>
    rw [h] at hsome
    cases hsome
    rfl

/-- A quote that no other one closes is the last of a line. -/
theorem lineItems_open (h : splitQuoted s = none) :
    lineItems line column ('"' :: s) = [.error ⟨some ⟨line, column⟩, .unterminatedString⟩] := by
  rw [lineItems, if_neg (by decide), if_neg (by decide), if_pos rfl]
  split
  · rfl
  · next hsome =>
    rw [h] at hsome
    cases hsome

/-- The tokens of what is left of a line, from a column on. -/
def scanLine (line column : ℕ) (s : List Char) : Except (Located Error) (List Token) :=
  collect (lineItems line column s)

theorem scanLine_nil : scanLine line column [] = .ok [] := by
  rw [scanLine, lineItems, collect_nil]

theorem scanLine_comment : scanLine line column (';' :: s) = .ok [] := by
  rw [scanLine, lineItems, if_pos rfl, collect_nil]

theorem ne_of_isBlank {d : Char} (hc : isBlank c = true) (hd : isBlank d = false) : c ≠ d := by
  rintro rfl
  rw [hc] at hd
  cases hd

theorem scanLine_blank (h : isBlank c = true) :
    scanLine line column (c :: s) = scanLine line (column + c.utf8Size) s := by
  rw [scanLine, lineItems, if_neg (ne_of_isBlank h (by decide)), if_pos h, scanLine]

/-- A word ends where a character stops it. -/
theorem IsWord.takeWhile_dropWhile (h : IsWord (c :: text) rest) :
    (text ++ rest).takeWhile isWordChar = text ∧ (text ++ rest).dropWhile isWordChar = rest := by
  have hw : ∀ d ∈ text, isWordChar d = true := fun d hd => by
    obtain ⟨hb, hs⟩ := h.wordChar d (List.mem_cons_of_mem c hd)
    simp [isWordChar, hb, hs]
  rw [List.takeWhile_append_of_pos hw, List.dropWhile_append_of_pos hw]
  cases rest with
  | nil => exact ⟨List.append_nil text, rfl⟩
  | cons d rest =>
    have hstop : ¬isWordChar d = true := by
      rcases h.ended d rfl with hb | rfl
      · simp [isWordChar, hb]
      · decide
    rw [List.takeWhile_cons_of_neg hstop, List.dropWhile_cons_of_neg hstop]
    exact ⟨List.append_nil text, rfl⟩

/-- **A token at the front of a line** is the first token of the line. -/
theorem scanLine_lexeme (h : IsLexeme text rest) :
    scanLine line column (text ++ rest) = do
      let tokens ← scanLine line (column + byteLength text) rest
      return ⟨some ⟨line, column⟩, String.ofList text⟩ :: tokens := by
  rcases h with h | ⟨body, hbody, rfl⟩
  · obtain ⟨c, text, rfl⟩ := List.exists_cons_of_ne_nil h.ne_nil
    have hq : c ≠ '"' := fun e => h.head_ne (congrArg some e)
    obtain ⟨hblank, hsemi⟩ := h.wordChar c List.mem_cons_self
    obtain ⟨htake, hdrop⟩ := h.takeWhile_dropWhile
    rw [List.cons_append, scanLine, lineItems, if_neg hsemi, hblank, if_neg Bool.false_ne_true,
      if_neg hq, htake, hdrop, collect_cons]
    rfl
  · have hsplit : splitQuoted (body ++ ['"'] ++ rest) = some (body ++ ['"'], rest) :=
      splitQuoted_eq_some.mpr ⟨body, hbody, rfl, rfl⟩
    rw [List.cons_append, scanLine, lineItems_closed hsplit, collect_cons]
    rfl

/-! ## Scanning -/

/-- What is passed over at the front of what is left of a line: blanks, and tokens with the columns
they stand at. -/
inductive Scans (line : ℕ) : ℕ → List Char → List Token → ℕ → List Char → Prop
  | refl {column : ℕ} {s : List Char} : Scans line column s [] column s
  | blank {column column' : ℕ} {c : Char} {s rest : List Char} {tokens : List Token} :
      isBlank c = true → Scans line (column + c.utf8Size) s tokens column' rest →
        Scans line column (c :: s) tokens column' rest
  | lexeme {column column' : ℕ} {text s rest : List Char} {tokens : List Token} :
      IsLexeme text s → Scans line (column + byteLength text) s tokens column' rest →
        Scans line column (text ++ s) (⟨some ⟨line, column⟩, String.ofList text⟩ :: tokens) column'
          rest

/-- What is passed over comes before the tokens of the rest. -/
theorem Scans.scanLine_eq (h : Scans line column s tokens column' rest) :
    scanLine line column s = (scanLine line column' rest).map (tokens ++ ·) := by
  induction h with
  | @refl column s => cases scanLine line column s <;> rfl
  | blank hc _ ih => rw [scanLine_blank hc, ih]
  | @lexeme _ column' _ _ rest _ ht _ ih =>
    rw [scanLine_lexeme ht, ih]
    cases scanLine line column' rest <;> rfl

/-- What a word leaves of a line does not go on with the word. -/
theorem isWord_takeWhile (hs : c ≠ ';') (hb : isBlank c ≠ true) (hq : c ≠ '"') :
    IsWord (c :: s.takeWhile isWordChar) (s.dropWhile isWordChar) where
  ne_nil := List.cons_ne_nil _ _
  head_ne := fun h => hq (Option.some.inj h)
  wordChar := by
    refine List.forall_mem_cons.mpr ⟨⟨by simpa using hb, hs⟩, fun d hd => ?_⟩
    simpa [isWordChar] using List.mem_takeWhile_imp hd
  ended := by
    intro d hd
    have := List.head?_dropWhile_not isWordChar s
    rw [hd] at this
    simpa [isWordChar, or_iff_not_imp_left] using this

/-- Where no token starts: at the end of a line, or at a comment. -/
def AtEnd (rest : List Char) : Prop := ∀ c ∈ rest.head?, c = ';'

/-- A quote that no other one closes. -/
def Unterminated (rest : List Char) : Prop := ∃ s, rest = '"' :: s ∧ splitQuoted s = none

/-- A scanner gets to the end of every line, unless a quote stops it. -/
theorem exists_scans (line column : ℕ) (s : List Char) :
    ∃ tokens column' rest,
      Scans line column s tokens column' rest ∧ (AtEnd rest ∨ Unterminated rest) := by
  induction column, s using lineItems.induct with
  | case1 column => exact ⟨[], column, [], .refl, .inl (by simp [AtEnd])⟩
  | case2 column s => exact ⟨[], column, ';' :: s, .refl, .inl (by simp [AtEnd])⟩
  | case3 column c s _ hblank ih =>
    obtain ⟨tokens, column', rest, h, hend⟩ := ih
    exact ⟨tokens, column', rest, .blank hblank h, hend⟩
  | case4 column s hnone =>
    exact ⟨[], column, '"' :: s, .refl, .inr ⟨s, rfl, hnone⟩⟩
  | case5 column s body rest hsome _ _ text ih =>
    obtain ⟨tokens, column', rest', h, hend⟩ := ih
    obtain ⟨inner, hinner, rfl, rfl⟩ := splitQuoted_eq_some.mp hsome
    exact ⟨_, column', rest', .lexeme (.inr ⟨inner, hinner, rfl⟩) h, hend⟩
  | case6 column c s hs hb hq text ih =>
    obtain ⟨tokens, column', rest, h, hend⟩ := ih
    have hscan := Scans.lexeme (.inl (isWord_takeWhile hs hb hq)) h
    rw [List.cons_append, List.takeWhile_append_dropWhile] at hscan
    exact ⟨_, column', rest, hscan, hend⟩

theorem AtEnd.scanLine_eq (h : AtEnd rest) : scanLine line column rest = .ok [] := by
  cases rest with
  | nil => exact scanLine_nil
  | cons c rest =>
    obtain rfl := h c rfl
    exact scanLine_comment

theorem Unterminated.scanLine_eq (h : Unterminated rest) :
    scanLine line column rest = .error ⟨some ⟨line, column⟩, .unterminatedString⟩ := by
  obtain ⟨s, rfl, hnone⟩ := h
  rw [scanLine, lineItems_open hnone, collect_cons]
  rfl

/-- **The tokens of a line** are those that are passed over on the way to its end or to a comment.
-/
theorem scanLine_eq_ok :
    scanLine line column s = .ok tokens ↔
      ∃ column' rest, Scans line column s tokens column' rest ∧ AtEnd rest := by
  constructor
  · intro h
    obtain ⟨tokens', column', rest, hscan, hend | hquote⟩ := exists_scans line column s
    · rw [hscan.scanLine_eq, hend.scanLine_eq] at h
      obtain rfl : tokens' = tokens := by simpa [Except.map] using h
      exact ⟨column', rest, hscan, hend⟩
    · rw [hscan.scanLine_eq, hquote.scanLine_eq] at h
      cases h
  · rintro ⟨column', rest, hscan, hend⟩
    rw [hscan.scanLine_eq, hend.scanLine_eq, Except.map, List.append_nil]

/-- **A line fails** at the first quote that is reached and that no other one closes. -/
theorem scanLine_eq_error {e : Located Error} :
    scanLine line column s = .error e ↔
      ∃ tokens column' rest, Scans line column s tokens column' rest ∧ Unterminated rest ∧
        e = ⟨some ⟨line, column'⟩, .unterminatedString⟩ := by
  constructor
  · intro h
    obtain ⟨tokens, column', rest, hscan, hend | hquote⟩ := exists_scans line column s
    · rw [hscan.scanLine_eq, hend.scanLine_eq] at h
      cases h
    · rw [hscan.scanLine_eq, hquote.scanLine_eq] at h
      cases h
      exact ⟨tokens, column', rest, hscan, hquote, rfl⟩
  · rintro ⟨tokens, column', rest, hscan, hquote, rfl⟩
    rw [hscan.scanLine_eq, hquote.scanLine_eq]
    rfl

end LiteralCodec.Token
