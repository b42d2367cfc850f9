import LiteralCodec.Proofs.Outcome
import LiteralCodec.Proofs.Pieces
import LiteralCodec.Proofs.Token.Scan

/-!
# Where tokens stand

The tokens of a source stand where their locations say, one behind the other, and what no token
covers is blank or part of a comment. A scanner that passes over the beginning of a line moves its
column by the bytes it passes over, so each token gets the column at which its text begins; from
one line to the next, only the number of the line changes.

Results:
* `Scans.stands`, `Scans.pairwise`, `Scans.exists_body`: the tokens that are passed over, their
  order, and what lies between them.
* `tokenize_eq_scanLines`, `scanLines_eq_ok`: the lines of a source are scanned one by one.
* `exists_stands`: where a token of a source stands.
* `tokenize_positions`: the tokens of a source, their order, and what they leave out.
-/

namespace LiteralCodec.Token

/-! ## Bytes -/

theorem byteLength_cons (c : Char) (s : List Char) :
    byteLength (c :: s) = c.utf8Size + byteLength s := by
  rw [byteLength, String.ofList_cons, String.utf8ByteSize_append, String.utf8ByteSize_singleton]
  rfl

theorem byteLength_append (s t : List Char) :
    byteLength (s ++ t) = byteLength s + byteLength t := by
  rw [byteLength, String.ofList_append, String.utf8ByteSize_append]
  rfl

theorem byteLength_pos {s : List Char} (h : s ≠ []) : 0 < byteLength s := by
  obtain ⟨c, s, rfl⟩ := List.exists_cons_of_ne_nil h
  rw [byteLength_cons]
  have := c.utf8Size_pos
  omega

/-! ## Places -/

/-- A token covers the bytes from its column on that its text takes up. -/
def Covers (token : Token) (line column : ℕ) : Prop :=
  ∃ first, token.loc = some ⟨line, first⟩ ∧ first ≤ column ∧
    column < first + token.item.utf8ByteSize

/-- A token stands before another one, and ends before the other one starts. -/
def Precedes (a b : Token) : Prop :=
  ∃ p q, a.loc = some p ∧ b.loc = some q ∧
    (p.line < q.line ∨
      p.line = q.line ∧ p.column < q.column ∧ p.column + a.item.utf8ByteSize ≤ q.column)

/-- The text of a token stands in a line of a source, between two other texts, and the location of
the token says where: lines and columns are counted from one, columns in bytes. -/
structure Stands (source : String) (token : Token) (loc : Location) (before after : List Char) :
    Prop where
  loc_eq : token.loc = some loc
  line_pos : 0 < loc.line
  line_eq : (sourceLines source)[loc.line - 1]? = some (before ++ token.item.toList ++ after)
  column_eq : loc.column = byteLength before + 1

/-! ## One line -/

variable {line column column' : ℕ} {s rest : List Char} {tokens : List Token} {token : Token}

/-- Each token is a lexeme, and its column counts the bytes in front of it. -/
theorem Scans.stands (h : Scans line column s tokens column' rest) (hm : token ∈ tokens) :
    ∃ before after, token.loc = some ⟨line, column + byteLength before⟩ ∧
      s = before ++ token.item.toList ++ after ∧ IsLexeme token.item.toList after := by
  induction h with
  | refl => cases hm
  | @blank column column' c _ _ _ _ _ ih =>
    obtain ⟨before, after, hloc, rfl, hlex⟩ := ih hm
    exact ⟨c :: before, after, by rw [hloc, byteLength_cons, Nat.add_assoc], by simp, hlex⟩
  | @lexeme column column' text s rest tokens hlex _ ih =>
    rcases List.mem_cons.mp hm with rfl | hm
    · exact ⟨[], s, rfl, by simp, by simpa using hlex⟩
    · obtain ⟨before, after, hloc, rfl, hlex'⟩ := ih hm
      exact ⟨text ++ before, after, by rw [hloc, byteLength_append, Nat.add_assoc], by simp, hlex'⟩

/-- Each token stands in the columns that are passed over. -/
theorem Scans.bounds (h : Scans line column s tokens column' rest) :
    column ≤ column' ∧ ∀ token ∈ tokens, ∃ first, token.loc = some ⟨line, first⟩ ∧ column ≤ first ∧
      first + token.item.utf8ByteSize ≤ column' := by
  induction h with
  | refl => exact ⟨le_rfl, by simp⟩
  | blank _ _ ih =>
    obtain ⟨hle, hmem⟩ := ih
    refine ⟨by omega, fun token hm => ?_⟩
    obtain ⟨first, hloc, hlo, hhi⟩ := hmem token hm
    exact ⟨first, hloc, by omega, hhi⟩
  | @lexeme column column' text _ _ _ _ _ ih =>
    obtain ⟨hle, hmem⟩ := ih
    refine ⟨by omega, List.forall_mem_cons.mpr ⟨⟨column, rfl, le_rfl, hle⟩, fun token hm => ?_⟩⟩
    obtain ⟨first, hloc, hlo, hhi⟩ := hmem token hm
    exact ⟨first, hloc, by omega, hhi⟩

/-- The tokens of a line stand one behind the other. -/
theorem Scans.pairwise (h : Scans line column s tokens column' rest) :
    tokens.Pairwise Precedes := by
  induction h with
  | refl => exact List.Pairwise.nil
  | blank _ _ ih => exact ih
  | @lexeme column column' text _ _ tokens hlex hscan ih =>
    refine List.pairwise_cons.mpr ⟨fun token hm => ?_, ih⟩
    obtain ⟨first, hloc, hlo, -⟩ := hscan.bounds.2 token hm
    have hpos := byteLength_pos hlex.ne_nil
    have hlt : column < first := by omega
    exact ⟨_, _, rfl, hloc, .inr ⟨rfl, hlt, hlo⟩⟩

/-- A character of two texts is one of the first or one of the second. -/
theorem append_eq_append_cons {a b before after : List Char} {c : Char}
    (h : a ++ b = before ++ c :: after) :
    (∃ gap, before = a ++ gap ∧ b = gap ++ c :: after) ∨ ∃ gap, a = before ++ c :: gap := by
  rcases List.append_eq_append_iff.mp h with ⟨gap, hbefore, hb⟩ | ⟨gap, ha, hgap⟩
  · exact .inl ⟨gap, hbefore, hb⟩
  · cases gap with
    | nil => exact .inl ⟨[], by simpa using ha.symm, hgap.symm⟩
    | cons d gap =>
      obtain ⟨rfl, -⟩ := List.cons.inj hgap
      exact .inr ⟨gap, ha⟩

/-- What is passed over is blank where no token covers it. -/
theorem Scans.exists_body (h : Scans line column s tokens column' rest) :
    ∃ body, s = body ++ rest ∧ column' = column + byteLength body ∧
      ∀ before c after, body = before ++ c :: after →
        isBlank c = true ∨ ∃ token ∈ tokens, Covers token line (column + byteLength before) := by
  induction h with
  | refl => exact ⟨[], rfl, rfl, fun before c after he => by cases before <;> cases he⟩
  | @blank column column' c s rest tokens hc _ ih =>
    obtain ⟨body, rfl, rfl, hbody⟩ := ih
    refine ⟨c :: body, rfl, by rw [byteLength_cons, Nat.add_assoc], fun before d after he => ?_⟩
    cases before with
    | nil =>
      obtain ⟨rfl, -⟩ := List.cons.inj he
      exact .inl hc
    | cons e before =>
      obtain ⟨rfl, rfl⟩ := List.cons.inj he
      rw [byteLength_cons, ← Nat.add_assoc]
      exact hbody before d after rfl
  | @lexeme column column' text s rest tokens hlex _ ih =>
    obtain ⟨body, rfl, rfl, hbody⟩ := ih
    refine ⟨text ++ body, by simp, by rw [byteLength_append, Nat.add_assoc],
      fun before c after he => ?_⟩
    rcases append_eq_append_cons he with ⟨gap, rfl, hgap⟩ | ⟨gap, rfl⟩
    · rcases hbody gap c after hgap with hc | ⟨token, hm, hcov⟩
      · exact .inl hc
      · rw [byteLength_append, ← Nat.add_assoc]
        exact .inr ⟨token, List.mem_cons_of_mem _ hm, hcov⟩
    · refine .inr ⟨_, List.mem_cons_self, column, rfl, Nat.le_add_right _ _, ?_⟩
      change column + byteLength before < column + byteLength (before ++ c :: gap)
      rw [byteLength_append, byteLength_cons]
      have := c.utf8Size_pos
      omega

/-! ## All lines -/

/-- The tokens of each line, counted from a line on, up to the first failure. -/
def scanLines (line : ℕ) : List (List Char) → Except (Located Error) (List (List Token))
  | [] => .ok []
  | text :: rest => do
    let tokens ← scanLine line 1 text
    let more ← scanLines (line + 1) rest
    return tokens :: more

/-- What some lines yield, counted from a line on. -/
def itemsFrom (line : ℕ) (texts : List (List Char)) : List (List (Except (Located Error) Token)) :=
  texts.mapIdx fun i text => lineItems (line + i) 1 text

theorem itemsFrom_cons (line : ℕ) (text : List Char) (texts : List (List Char)) :
    itemsFrom line (text :: texts) = lineItems line 1 text :: itemsFrom (line + 1) texts := by
  simp only [itemsFrom, List.mapIdx_cons, Nat.add_zero, Nat.add_assoc, Nat.add_comm 1]

theorem sourceItems_eq (source : String) :
    sourceItems source = itemsFrom 1 (sourceLines source) := by
  simp only [sourceItems, itemsFrom, Nat.add_comm 1]

/-- What lines yield is collected line by line. -/
theorem collect_itemsFrom (line : ℕ) (texts : List (List Char)) :
    collect (itemsFrom line texts).flatten = (scanLines line texts).map List.flatten := by
  induction texts generalizing line with
  | nil => rfl
  | cons text texts ih =>
    rw [itemsFrom_cons, List.flatten_cons, collect_append, ih, scanLines, ← scanLine]
    cases scanLine line 1 text with
    | error e => rfl
    | ok tokens => cases scanLines (line + 1) texts <;> rfl

/-- **The tokens of a source** are those of its lines, one behind the other. -/
theorem tokenize_eq_scanLines (source : String) :
    tokenize source = (scanLines 1 (sourceLines source)).map List.flatten := by
  rw [tokenize, sourceItems_eq, collect_itemsFrom]

/-- **The lines of a source** are scanned one by one, and all of them are scanned. -/
theorem scanLines_eq_ok {texts : List (List Char)} {lines : List (List Token)} :
    scanLines line texts = .ok lines ↔
      ∀ i, texts[i]?.map (scanLine (line + i) 1) = lines[i]?.map .ok := by
  induction texts generalizing line lines with
  | nil =>
    constructor
    · intro h
      cases h
      simp
    · intro h
      have h0 := h 0
      cases lines with
      | nil => rfl
      | cons tokens lines => simp at h0
  | cons text texts ih =>
    rw [scanLines, bind_eq_ok]
    constructor
    · rintro ⟨tokens, hscan, h⟩
      obtain ⟨more, hmore, hlines⟩ := bind_eq_ok.mp h
      cases hlines
      intro i
      cases i with
      | zero => simpa using hscan
      | succ i =>
        have hi := ih.mp hmore i
        rw [Nat.add_assoc, Nat.add_comm 1 i] at hi
        simpa using hi
    · intro h
      have h0 := h 0
      cases lines with
      | nil => simp at h0
      | cons tokens lines =>
        refine ⟨tokens, by simpa using h0, bind_eq_ok.mpr ⟨lines, ih.mpr fun i => ?_, rfl⟩⟩
        have hi := h (i + 1)
        rw [Nat.add_assoc, Nat.add_comm 1 i]
        simpa using hi

section Source

variable {source : String} {lines : List (List Token)} {i : ℕ}

theorem tokenize_eq_ok :
    tokenize source = .ok tokens ↔
      ∃ lines, scanLines 1 (sourceLines source) = .ok lines ∧ lines.flatten = tokens := by
  rw [tokenize_eq_scanLines, map_eq_ok]

/-- The tokens of a line are those that are passed over in its text. -/
theorem exists_text {texts : List (List Char)} (h : scanLines line texts = .ok lines)
    (hi : lines[i]? = some tokens) :
    ∃ text column rest, texts[i]? = some text ∧ Scans (line + i) 1 text tokens column rest ∧
      AtEnd rest := by
  have hmap := scanLines_eq_ok.mp h i
  rw [hi, Option.map_some] at hmap
  obtain ⟨text, htext, hscan⟩ := Option.map_eq_some_iff.mp hmap
  obtain ⟨column, rest, hscans, hend⟩ := scanLine_eq_ok.mp hscan
  exact ⟨text, column, rest, htext, hscans, hend⟩

/-- No line has failed. -/
theorem exists_scanLine {texts : List (List Char)} {text : List Char}
    (h : scanLines line texts = .ok lines) (hi : texts[i]? = some text) :
    ∃ tokens, lines[i]? = some tokens ∧ scanLine (line + i) 1 text = .ok tokens := by
  have hmap := (scanLines_eq_ok.mp h i).symm
  rw [hi, Option.map_some] at hmap
  obtain ⟨tokens, htokens, hscan⟩ := Option.map_eq_some_iff.mp hmap
  exact ⟨tokens, htokens, hscan.symm⟩

/-- Every line has been passed over. -/
theorem exists_tokens {texts : List (List Char)} {text : List Char}
    (h : scanLines line texts = .ok lines) (hi : texts[i]? = some text) :
    ∃ tokens column rest, lines[i]? = some tokens ∧ Scans (line + i) 1 text tokens column rest ∧
      AtEnd rest := by
  obtain ⟨tokens, htokens, hscan⟩ := exists_scanLine h hi
  obtain ⟨column, rest, hscans, hend⟩ := scanLine_eq_ok.mp hscan
  exact ⟨tokens, column, rest, htokens, hscans, hend⟩

/-- The lines of a source are its pieces between newlines. -/
theorem sourceLines_spec (source : String) :
    ['\n'].intercalate (sourceLines source) = source.toList ∧
      ∀ text ∈ sourceLines source, '\n' ∉ text :=
  ⟨List.intercalate_splitOn _, fun _ => not_mem_of_mem_splitOn⟩

/-- **Where a token of a source stands.** -/
theorem exists_stands (h : tokenize source = .ok tokens) (hm : token ∈ tokens) :
    ∃ loc before after,
      Stands source token loc before after ∧ IsLexeme token.item.toList after := by
  obtain ⟨lines, hlines, rfl⟩ := tokenize_eq_ok.mp h
  obtain ⟨tokens, htokens, hm⟩ := List.mem_flatten.mp hm
  obtain ⟨i, hi⟩ := List.getElem?_of_mem htokens
  obtain ⟨text, column, rest, htext, hscan, -⟩ := exists_text hlines hi
  obtain ⟨before, after, hloc, rfl, hlex⟩ := hscan.stands hm
  refine ⟨_, before, after, ⟨hloc, ?_, ?_, ?_⟩, hlex⟩
  · exact Nat.lt_of_lt_of_le Nat.zero_lt_one (Nat.le_add_right 1 i)
  · rw [← htext, Nat.add_sub_cancel_left]
  · exact Nat.add_comm _ _

/-- The tokens of a source stand one behind the other. -/
theorem pairwise_precedes (h : tokenize source = .ok tokens) : tokens.Pairwise Precedes := by
  obtain ⟨lines, hlines, rfl⟩ := tokenize_eq_ok.mp h
  refine List.pairwise_flatten.mpr ⟨fun tokens hm => ?_, List.pairwise_iff_getElem.mpr ?_⟩
  · obtain ⟨i, hi⟩ := List.getElem?_of_mem hm
    obtain ⟨text, column, rest, -, hscan, -⟩ := exists_text hlines hi
    exact hscan.pairwise
  · intro i j hi hj hlt a ha b hb
    obtain ⟨_, _, _, -, hscan, -⟩ := exists_text hlines (List.getElem?_eq_getElem hi)
    obtain ⟨_, _, _, -, hscan', -⟩ := exists_text hlines (List.getElem?_eq_getElem hj)
    obtain ⟨p, hp, -⟩ := hscan.bounds.2 a ha
    obtain ⟨q, hq, -⟩ := hscan'.bounds.2 b hb
    exact ⟨_, _, hp, hq, .inl (Nat.add_lt_add_left hlt 1)⟩

/-- A line is blank where no token covers it, up to its end or to a comment. -/
theorem exists_comment (h : tokenize source = .ok tokens) {text : List Char}
    (hi : (sourceLines source)[i]? = some text) :
    ∃ body comment, text = body ++ comment ∧ AtEnd comment ∧
      (∀ token ∈ tokens, ∀ first, token.loc = some ⟨i + 1, first⟩ →
        first + token.item.utf8ByteSize ≤ byteLength body + 1) ∧
      ∀ before c after, body = before ++ c :: after →
        isBlank c = true ∨ ∃ token ∈ tokens, Covers token (i + 1) (byteLength before + 1) := by
  obtain ⟨lines, hlines, rfl⟩ := tokenize_eq_ok.mp h
  obtain ⟨tokens, column, comment, htokens, hscan, hend⟩ := exists_tokens hlines hi
  obtain ⟨body, rfl, rfl, hbody⟩ := hscan.exists_body
  refine ⟨body, comment, rfl, hend, fun token hm first hloc => ?_, fun before c after he => ?_⟩
  · -- a token with the number of this line is one of its tokens
    obtain ⟨others, hothers, hm⟩ := List.mem_flatten.mp hm
    obtain ⟨j, hj⟩ := List.getElem?_of_mem hothers
    obtain ⟨_, _, _, -, hscan', -⟩ := exists_text hlines hj
    obtain ⟨first', hloc', -⟩ := hscan'.bounds.2 token hm
    rw [hloc, Option.some.injEq, Location.mk.injEq] at hloc'
    obtain rfl : i = j := by omega
    obtain rfl : others = tokens := by rwa [hj, Option.some.injEq] at htokens
    obtain ⟨first'', hloc'', -, hhi⟩ := hscan.bounds.2 token hm
    rw [hloc, Option.some.injEq, Location.mk.injEq] at hloc''
    omega
  · rcases hbody before c after he with hc | ⟨token, hm, hcov⟩
    · exact .inl hc
    · rw [Nat.add_comm i, Nat.add_comm (byteLength before)]
      exact .inr ⟨token, List.mem_flatten_of_mem (List.mem_of_getElem? htokens) hm, hcov⟩

end Source

/-- **Nothing is lost, and positions are exact.** The text of each token stands in the line and at
the byte that its location names, and it is a word or a quoted token there. The tokens come in the
order of their lines and columns, and no two of them overlap. What the tokens of a line leave out is
blank, up to the end of the line or to a semicolon behind all of them, where a comment starts that
is the rest of the line. -/
theorem tokenize_positions {source : String} {tokens : List Token}
    (h : tokenize source = .ok tokens) :
    (['\n'].intercalate (sourceLines source) = source.toList ∧
      ∀ text ∈ sourceLines source, '\n' ∉ text) ∧
    (∀ token ∈ tokens, ∃ loc before after, Stands source token loc before after ∧
      (IsWord token.item.toList after ∨ IsQuoted token.item.toList)) ∧
    tokens.Pairwise Precedes ∧
    ∀ i text, (sourceLines source)[i]? = some text →
      ∃ body comment, text = body ++ comment ∧ (∀ c ∈ comment.head?, c = ';') ∧
        (∀ token ∈ tokens, ∀ first, token.loc = some ⟨i + 1, first⟩ →
          first + token.item.utf8ByteSize ≤ byteLength body + 1) ∧
        ∀ before c after, body = before ++ c :: after →
          isBlank c = true ∨ ∃ token ∈ tokens, Covers token (i + 1) (byteLength before + 1) :=
  ⟨sourceLines_spec source, fun _ => exists_stands h, pairwise_precedes h,
    fun _ _ => exists_comment h⟩

/-- A word of two bytes, and a quoted token with a semicolon in it before a comment. -/
theorem tokenize_positions_quoted :
    tokenize "é \"a;b\";c" = .ok [⟨some ⟨1, 1⟩, "é"⟩, ⟨some ⟨1, 4⟩, "\"a;b\""⟩] ∧
      ∃ loc before after, Stands "é \"a;b\";c" ⟨some ⟨1, 4⟩, "\"a;b\""⟩ loc before after := by
  have h : tokenize "é \"a;b\";c" = .ok [⟨some ⟨1, 1⟩, "é"⟩, ⟨some ⟨1, 4⟩, "\"a;b\""⟩] := by
    decide +kernel
  obtain ⟨-, hstands, -⟩ := tokenize_positions h
  obtain ⟨loc, before, after, hs, -⟩ := hstands _ (List.mem_cons_of_mem _ List.mem_cons_self)
  exact ⟨h, loc, before, after, hs⟩

end LiteralCodec.Token
