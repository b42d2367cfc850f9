import LiteralCodec.Codec
import LiteralCodec.Proofs.Token.Groups
import LiteralCodec.Proofs.Token.Quotes

/-!
# Endings of lines

A line ends at a newline, and a return in front of the newline belongs to the ending in some texts
and not in others. For tokens it makes no difference. A return is a blank, and a blank at the end of
a line is passed over like any other blank, is part of a comment, or stands behind a quote that
nothing closes either way. It cannot be part of a word, and it does not close a quote, not even when
a backslash stands in front of it.

So it does not matter if the returns are taken off before the lines are scanned, and a text has the
same tokens, at the same places, when all of its newlines get a return in front.

Results:
* `Token.scanLine_append_blank`: a blank at the end of a line.
* `Token.tokenizeLines_endedLines`, `Token.tokenize_endedLines`: lines without their endings.
* `Token.sameLines_returned`: the lines of a text with returns.
* `encode_endings`: the endings of lines do not matter.
-/

namespace LiteralCodec

namespace Token

variable {line column column' : ℕ} {c : Char} {s rest a b : List Char} {tokens : List Token}
  {texts texts' : List (List Char)}

/-! ## A blank at the end of a line -/

theorem head?_append_blank (hc : isBlank c = true) (h : ∀ d ∈ s.head?, isBlank d = true ∨ d = ';') :
    ∀ d ∈ (s ++ [c]).head?, isBlank d = true ∨ d = ';' := by
  intro d hd
  cases s with
  | nil =>
    obtain rfl := Option.some.inj hd
    exact .inl hc
  | cons e s => exact h d hd

/-- A token is one before a blank at the end of the line, too. -/
theorem IsLexeme.append_blank {text : List Char} (h : IsLexeme text s) (hc : isBlank c = true) :
    IsLexeme text (s ++ [c]) := by
  rcases h with h | h
  · exact IsLexeme.behind (.inl h) (head?_append_blank hc h.ended)
  · exact .inr h

/-- What is passed over before a blank at the end of the line. -/
theorem Scans.append_blank (h : Scans line column s tokens column' rest) (hc : isBlank c = true) :
    Scans line column (s ++ [c]) tokens column' (rest ++ [c]) := by
  induction h with
  | refl => exact .refl
  | blank hd _ ih => exact .blank hd ih
  | lexeme htext _ ih =>
    rw [List.append_assoc]
    exact .lexeme (htext.append_blank hc) ih

/-- At the end of a line, or in a comment. -/
theorem AtEnd.scanLine_append_blank (h : AtEnd rest) (hc : isBlank c = true) :
    scanLine line column (rest ++ [c]) = .ok [] := by
  cases rest with
  | nil => rw [List.nil_append, scanLine_blank hc, scanLine_nil]
  | cons d rest =>
    obtain rfl := h d rfl
    exact scanLine_comment

/-- Behind a quote that nothing closes. -/
theorem Unterminated.append_blank (h : Unterminated rest) (hc : isBlank c = true) :
    Unterminated (rest ++ [c]) := by
  obtain ⟨s, rfl, hnone⟩ := h
  refine ⟨s ++ [c], rfl, splitQuoted_eq_none.mpr fun inner after he => ?_⟩
  -- the closing quote is not the blank, so it stands before the blank
  rcases List.eq_nil_or_concat after with rfl | ⟨after, d, rfl⟩
  · obtain ⟨-, hquote⟩ := List.append_inj' he rfl
    rw [List.cons.injEq] at hquote
    rw [hquote.1] at hc
    cases hc
  · rw [List.concat_eq_append, ← List.cons_append, ← List.append_assoc] at he
    exact splitQuoted_eq_none.mp hnone inner after (List.append_inj' he rfl).1

/-- **A blank at the end of a line** changes nothing, wherever the scanner meets it. -/
theorem scanLine_append_blank (hc : isBlank c = true) :
    scanLine line column (s ++ [c]) = scanLine line column s := by
  obtain ⟨tokens, column', rest, hscan, hend | hquote⟩ := exists_scans line column s
  · rw [(hscan.append_blank hc).scanLine_eq, hscan.scanLine_eq, hend.scanLine_append_blank hc,
      hend.scanLine_eq]
  · rw [(hscan.append_blank hc).scanLine_eq, hscan.scanLine_eq, hquote.scanLine_eq,
      (hquote.append_blank hc).scanLine_eq]

/-! ## Lines with and without returns -/

/-- A line, or the line with a return at its end. -/
def SameLine (a b : List Char) : Prop := b = a ∨ b = a ++ ['\r']

theorem SameLine.cons (h : SameLine a b) (c : Char) : SameLine (c :: a) (c :: b) := by
  rcases h with rfl | rfl
  · exact .inl rfl
  · exact .inr rfl

theorem SameLine.isPrefix (h : SameLine a b) : a <+: b := by
  rcases h with rfl | rfl
  · exact List.prefix_rfl
  · exact List.prefix_append a ['\r']

theorem SameLine.scanLine_eq (h : SameLine a b) :
    scanLine line column b = scanLine line column a := by
  rcases h with rfl | rfl
  · rfl
  · exact scanLine_append_blank (by decide)

/-- Returns at the ends of lines change nothing. -/
theorem scanLines_sameLine (h : List.Forall₂ SameLine texts texts') :
    scanLines line texts' = scanLines line texts := by
  induction h generalizing line with
  | nil => rfl
  | cons hline _ ih => rw [scanLines, scanLines, hline.scanLine_eq, ih]

/-! ## Taking returns off -/

/-- A line without the return at its end. -/
def dropReturn (text : List Char) : List Char :=
  if text.getLast? = some '\r' then text.dropLast else text

theorem sameLine_dropReturn (text : List Char) : SameLine (dropReturn text) text := by
  unfold dropReturn
  split_ifs with h
  · exact .inr (List.dropLast_append_getLast? '\r' h).symm
  · exact .inl rfl

/-- What lies between newlines, without the returns in front of them. Behind the last newline there
is a line only if there is something. -/
def dropEndings : List (List Char) → List (List Char)
  | [] => []
  | [last] => if last = [] then [] else [last]
  | text :: next :: more => dropReturn text :: dropEndings (next :: more)

/-- The lines of a source without their endings, with and without a return. -/
def endedLines (source : String) : List (List Char) := dropEndings (sourceLines source)

example : endedLines "a\r\r\n\n\"b\r\n" = [['a', '\r'], [], ['"', 'b']] := by decide +kernel

/-- A line without its ending is the beginning of a line. -/
theorem exists_whole_of_mem_dropEndings {text : List Char} (h : text ∈ dropEndings texts) :
    ∃ whole ∈ texts, text <+: whole := by
  induction texts using dropEndings.induct with
  | case1 | case2 => simp [dropEndings] at h
  | case3 last hlast =>
    rw [dropEndings, if_neg hlast] at h
    exact ⟨text, h, List.prefix_rfl⟩
  | case4 first next more ih =>
    rw [dropEndings] at h
    rcases List.mem_cons.mp h with rfl | h
    · exact ⟨first, List.mem_cons_self, (sameLine_dropReturn first).isPrefix⟩
    · obtain ⟨whole, hmem, hwhole⟩ := ih h
      exact ⟨whole, List.mem_cons_of_mem first hmem, hwhole⟩

theorem newline_not_mem_endedLines (source : String) :
    ∀ text ∈ endedLines source, '\n' ∉ text := by
  intro text h hnewline
  obtain ⟨whole, hmem, hwhole⟩ := exists_whole_of_mem_dropEndings h
  exact (sourceLines_spec source).2 whole hmem (hwhole.subset hnewline)

/-- The tokens of lines, without the lines that have none. -/
def groupsOf (line : ℕ) (texts : List (List Char)) : Except (Located Error) (List (List Token)) :=
  (scanLines line texts).map (List.filter fun tokens => !tokens.isEmpty)

theorem groupsOf_cons (line : ℕ) (text : List Char) (texts : List (List Char)) :
    groupsOf line (text :: texts) = do
      let tokens ← scanLine line 1 text
      let groups ← groupsOf (line + 1) texts
      return [tokens].filter (fun tokens => !tokens.isEmpty) ++ groups := by
  rw [groupsOf, groupsOf, scanLines]
  cases scanLine line 1 text with
  | error e => rfl
  | ok tokens =>
    cases scanLines (line + 1) texts with
    | error e => rfl
    | ok more => exact congrArg Except.ok (List.filter_append [tokens] more)

/-- **Lines without their endings** hold the same tokens. -/
theorem groupsOf_dropEndings (line : ℕ) (texts : List (List Char)) :
    groupsOf line (dropEndings texts) = groupsOf line texts := by
  induction texts using dropEndings.induct generalizing line with
  | case1 => rfl
  | case2 =>
    rw [dropEndings, if_pos rfl, groupsOf_cons, scanLine_nil]
    rfl
  | case3 last hlast => rw [dropEndings, if_neg hlast]
  | case4 text next more ih =>
    rw [dropEndings, groupsOf_cons, groupsOf_cons line text, ih,
      (sameLine_dropReturn text).scanLine_eq]

theorem tokenizeLines_endedLines (source : String) :
    collect (((itemsFrom 1 (endedLines source)).map collect).filter isGroup) =
      tokenizeLines source := by
  rw [collect_filter_isGroup, collect_map_collect, tokenizeLines_eq_scanLines]
  exact groupsOf_dropEndings 1 (sourceLines source)

theorem tokenize_endedLines (source : String) :
    collect (itemsFrom 1 (endedLines source)).flatten = tokenize source := by
  rw [collect_itemsFrom, tokenize_eq_flatten, ← tokenizeLines_endedLines, collect_filter_isGroup,
    collect_map_collect]
  cases scanLines 1 (endedLines source) with
  | error e => rfl
  | ok lines => exact congrArg Except.ok List.flatten_filter_not_isEmpty.symm

/-! ## Putting returns in -/

/-- A text with a return in front of every newline. -/
def returned (s : List Char) : List Char :=
  s.flatMap fun c => if c = '\n' then ['\r', '\n'] else [c]

/-- A source with a return in front of every newline, one more if there is one. -/
def withReturns (source : String) : String := String.ofList (returned source.toList)

example : withReturns "a\n\r\nb" = "a\r\n\r\r\nb" := by decide +kernel

theorem returned_cons (hc : c ≠ '\n') (s : List Char) : returned (c :: s) = c :: returned s := by
  rw [returned, List.flatMap_cons, if_neg hc]
  rfl

theorem returned_newline (s : List Char) : returned ('\n' :: s) = '\r' :: '\n' :: returned s := by
  rw [returned, List.flatMap_cons, if_pos rfl]
  rfl

/-- **The lines of a text with returns** are the same lines. -/
theorem sameLines_returned (s : List Char) :
    List.Forall₂ SameLine (s.splitOn '\n') ((returned s).splitOn '\n') := by
  induction s with
  | nil => exact .cons (.inl rfl) .nil
  | cons c s ih =>
    by_cases hc : c = '\n'
    · subst hc
      have hreturn : '\n' ∉ ['\r'] := by decide
      have hsplit := splitOn_append hreturn (splitOn_separator '\n' (returned s))
      rw [List.singleton_append] at hsplit
      rw [returned_newline, hsplit, splitOn_separator]
      exact .cons (.inr rfl) ih
    · have hone : '\n' ∉ [c] := by simpa using Ne.symm hc
      cases ih' : s.splitOn '\n' with
      | nil => exact absurd ih' (List.splitOn_ne_nil '\n' s)
      | cons first more =>
        rw [ih'] at ih
        obtain ⟨first', more', hfirst, hmore, hreturned⟩ := List.forall₂_cons_left_iff.mp ih
        have hleft := splitOn_append hone ih'
        have hright := splitOn_append hone hreturned
        rw [List.singleton_append, List.singleton_append] at hleft hright
        rw [returned_cons hc, hleft, hright]
        exact .cons (hfirst.cons c) hmore

theorem scanLines_withReturns (source : String) :
    scanLines 1 (sourceLines (withReturns source)) = scanLines 1 (sourceLines source) := by
  rw [sourceLines, withReturns, String.toList_ofList]
  exact scanLines_sameLine (sameLines_returned source.toList)

end Token

/-- **The endings of lines do not matter.** A source has the tokens and the groups of its lines
without their endings, whether these are newlines or returns and newlines. So it has the same
tokens, or fails at the same place, in the same groups and with the same words for every type, when
each of its newlines gets a return in front. -/
theorem encode_endings (source : String) :
    Token.tokenize source =
      Token.collect (Token.itemsFrom 1 (Token.endedLines source)).flatten ∧
    Token.tokenizeLines source =
      Token.collect (((Token.itemsFrom 1 (Token.endedLines source)).map Token.collect).filter
        Token.isGroup) ∧
    Token.tokenize (Token.withReturns source) = Token.tokenize source ∧
    Token.tokenizeLines (Token.withReturns source) = Token.tokenizeLines source ∧
    ∀ ty, encode ty (Token.withReturns source) = encode ty source := by
  have htokens : Token.tokenize (Token.withReturns source) = Token.tokenize source := by
    rw [Token.tokenize_eq_scanLines, Token.tokenize_eq_scanLines, Token.scanLines_withReturns]
  refine ⟨(Token.tokenize_endedLines source).symm, (Token.tokenizeLines_endedLines source).symm,
    htokens, ?_, fun ty => ?_⟩
  · rw [Token.tokenizeLines_eq_scanLines, Token.tokenizeLines_eq_scanLines,
      Token.scanLines_withReturns]
  · rw [encode, encode, htokens]

/-- A return behind a backslash, in a string that nothing closes: the return is no part of a token
and closes nothing, and the string is reported where it opens. Returns behind numbers and blanks
make no difference. -/
theorem encode_endings_escaped :
    Token.tokenize "1\r\n \"a\\\r\n\"" = .error ⟨some ⟨2, 2⟩, .unterminatedString⟩ ∧
      encode (.int false 8 (by decide) (by decide)) "1\r\n2 \r\r\n3" = .ok [1, 2, 3] := by
  obtain ⟨-, -, htokens, -⟩ := encode_endings "1\n \"a\\\n\""
  obtain ⟨-, -, -, -, hwords⟩ := encode_endings "1\n2 \r\n3"
  have hopen : Token.withReturns "1\n \"a\\\n\"" = "1\r\n \"a\\\r\n\"" := by decide +kernel
  have hnumbers : Token.withReturns "1\n2 \r\n3" = "1\r\n2 \r\r\n3" := by decide +kernel
  constructor
  · rw [← hopen, htokens]
    decide +kernel
  · rw [← hnumbers, hwords]
    decide +kernel

end LiteralCodec
