import LiteralCodec.Proofs.Endings
import LiteralCodec.Token.Machine

/-!
# The machine cuts lines into the same tokens

A step of the machine ends where `lineItems` cuts: a run of blanks is passed over at once, a word
ends where `takeWhile` does, and the escapes of a string are those of `splitQuoted`. The bytes the
characters start at make the slice of a token its text. So the machine yields the tokens of every
line without a newline, with their places and with the failure of the line, and it always stops.

Results:
* `slice_append`: the slice between two bytes is the text between them.
* `seek_while`, `seek_closed`, `seek_open`: where a mode ends.
* `items_eq_lineItems`: what the machine yields on a line.
* `tokenize_machine`: the tokens of a source, by the machine.
-/

namespace LiteralCodec.Token.Machine

variable {number n : ℕ} {c : Char} {s text rest line : List Char}

/-! ## Bytes -/

/-- The byte that a machine has come to. -/
theorem byte_charIndices (n : ℕ) (s : List Char) :
    ((charIndices n s).head?.map Prod.fst).getD (n + byteLength s) = n := by
  cases s <;> rfl

theorem splitAtByte_append (s t : List Char) :
    splitAtByte (byteLength s) (s ++ t) = some (s, t) := by
  induction s with
  | nil => cases t <;> rfl
  | cons c s ih =>
    have hbytes := byteLength_cons c s
    obtain ⟨k, hk⟩ := Nat.exists_eq_add_one_of_ne_zero (byteLength_pos (List.cons_ne_nil c s)).ne'
    have hfits : c.utf8Size ≤ k + 1 := by omega
    have hrest : k + 1 - c.utf8Size = byteLength s := by omega
    rw [hk, List.cons_append, splitAtByte, if_pos hfits, hrest, ih]
    rfl

/-- **The slice between two bytes** is the text between them. -/
theorem slice_append (a b s : List Char) :
    slice (a ++ b ++ s) (byteLength a) (byteLength (a ++ b)) = some b := by
  simp only [slice, splitAtByte_append, Option.bind_eq_bind, Option.bind_some]
  rfl

/-! ## Where a mode ends -/

/-- **A mode that goes on while a character allows it.** -/
theorem seek_while {mode : Mode} {stop : Stop} {p : Char → Bool}
    (hgo : ∀ c ∈ s, p c = true → mode.shouldTerminate (some c) = .ok (.inl mode))
    (hstop : ∀ c ∈ s, p c = false → mode.shouldTerminate (some c) = .ok (.inr stop))
    (hend : mode.shouldTerminate none = .ok (.inr stop)) :
    seek mode (charIndices n s) =
      some (.ok stop, charIndices (n + byteLength (s.takeWhile p)) (s.dropWhile p)) := by
  induction s generalizing n with
  | nil => simp only [charIndices, seek, hend, List.dropWhile_nil]
  | cons c s ih =>
    obtain ⟨hgo, hgo'⟩ := List.forall_mem_cons.mp hgo
    obtain ⟨hstop, hstop'⟩ := List.forall_mem_cons.mp hstop
    by_cases hp : p c = true
    · rw [List.takeWhile_cons_of_pos hp, List.dropWhile_cons_of_pos hp, charIndices, seek, hgo hp,
        byteLength_cons, ← Nat.add_assoc]
      exact ih hgo' hstop'
    · rw [List.takeWhile_cons_of_neg hp, List.dropWhile_cons_of_neg hp, charIndices, seek,
        hstop (Bool.eq_false_iff.mpr hp)]
      rfl

theorem terminator_eq_blank : Terminator.ofChar? (some c) = some .blank ↔ isBlank c ∧ c ≠ '\n' := by
  by_cases hsemi : c = ';'
  · subst hsemi
    decide
  · grind [Terminator.ofChar?]

theorem terminator_eq_none : Terminator.ofChar? (some c) = none ↔ isWordChar c := by
  by_cases hline : c = '\n'
  · subst hline
    decide
  · grind [Terminator.ofChar?, isWordChar]

/-- A run of blanks is passed over at once. -/
theorem seek_blank (hs : '\n' ∉ s) :
    seek .blank (charIndices n s) =
      some (.ok .skip,
        charIndices (n + byteLength (s.takeWhile isBlank)) (s.dropWhile isBlank)) := by
  refine seek_while (fun c hc hblank => ?_) (fun c _ hblank => ?_) rfl
  · have hterm := terminator_eq_blank.mpr ⟨hblank, ne_of_mem_of_not_mem hc hs⟩
    unfold Mode.shouldTerminate
    rw [hterm]
  · have hterm : Terminator.ofChar? (some c) ≠ some .blank := fun h => by
      rw [(terminator_eq_blank.mp h).1] at hblank
      cases hblank
    unfold Mode.shouldTerminate
    split <;> simp_all

theorem seek_word :
    seek .word (charIndices n s) =
      some (.ok .current,
        charIndices (n + byteLength (s.takeWhile isWordChar)) (s.dropWhile isWordChar)) := by
  refine seek_while (fun c _ hword => ?_) (fun c _ hword => ?_) rfl
  · unfold Mode.shouldTerminate
    rw [terminator_eq_none.mpr hword]
  · have hterm : Terminator.ofChar? (some c) ≠ none := fun h => by
      rw [terminator_eq_none.mp h] at hword
      cases hword
    obtain ⟨terminator, hsome⟩ := Option.ne_none_iff_exists'.mp hterm
    unfold Mode.shouldTerminate
    rw [hsome]

/-! ## Strings -/

theorem seek_escaped (hc : c ≠ '\n') :
    seek (.string true) (charIndices n (c :: s)) =
      seek (.string false) (charIndices (n + c.utf8Size) s) := by
  simp [charIndices, seek, Mode.shouldTerminate]

theorem seek_backslash :
    seek (.string false) (charIndices n ('\\' :: s)) =
      seek (.string true) (charIndices (n + '\\'.utf8Size) s) := rfl

theorem seek_quote :
    seek (.string false) (charIndices n ('"' :: s)) =
      some (.ok .advanceOne, (n, '"') :: charIndices (n + '"'.utf8Size) s) := rfl

theorem seek_plain (hc : c ≠ '\n') (hb : c ≠ '\\') (hq : c ≠ '"') :
    seek (.string false) (charIndices n (c :: s)) =
      seek (.string false) (charIndices (n + c.utf8Size) s) := by
  simp [charIndices, seek, Mode.shouldTerminate, hb, hq]

/-- **A string that is closed** ends with its quote. -/
theorem seek_closed (hs : '\n' ∉ s) (h : splitQuoted s = some (text, rest)) :
    ∃ quote, seek (.string false) (charIndices n s) =
      some (.ok .advanceOne, quote :: charIndices (n + byteLength text) rest) := by
  fun_induction splitQuoted s generalizing n text rest with
  | case1 => cases h
  | case2 s =>
    cases h
    exact ⟨_, seek_quote⟩
  | case3 c s ih =>
    obtain ⟨⟨body, rest'⟩, hsplit, htext⟩ := Option.map_eq_some_iff.mp h
    cases htext
    obtain ⟨hbackslash, hc, hs⟩ : '\n' ≠ '\\' ∧ '\n' ≠ c ∧ '\n' ∉ s := by simpa using hs
    obtain ⟨quote, hseek⟩ := ih (n := n + '\\'.utf8Size + c.utf8Size) hs hsplit
    refine ⟨quote, ?_⟩
    rw [seek_backslash, seek_escaped hc.symm, hseek, byteLength_cons, byteLength_cons]
    simp only [Nat.add_assoc]
  | case4 c s hq hb ih =>
    obtain ⟨⟨body, rest'⟩, hsplit, htext⟩ := Option.map_eq_some_iff.mp h
    cases htext
    obtain ⟨hc, hs⟩ := List.ne_and_not_mem_of_not_mem_cons hs
    have hbackslash : c ≠ '\\' := by
      -- nothing is behind a backslash here, not even a quote
      rintro rfl
      cases s with
      | nil => cases hsplit
      | cons d s => exact hb d s rfl rfl
    obtain ⟨quote, hseek⟩ := ih (n := n + c.utf8Size) hs hsplit
    refine ⟨quote, ?_⟩
    rw [seek_plain hc.symm hbackslash hq, hseek, byteLength_cons, Nat.add_assoc]

/-- **A string that is not closed** fails at the end of the line. -/
theorem seek_open (hs : '\n' ∉ s) (h : splitQuoted s = none) :
    seek (.string false) (charIndices n s) = some (.error .unterminatedString, []) := by
  fun_induction splitQuoted s generalizing n with
  | case1 => rfl
  | case2 s => cases h
  | case3 c s ih =>
    obtain ⟨hbackslash, hc, hs⟩ : '\n' ≠ '\\' ∧ '\n' ≠ c ∧ '\n' ∉ s := by simpa using hs
    rw [seek_backslash, seek_escaped hc.symm, ih hs (Option.map_eq_none_iff.mp h)]
  | case4 c s hq hb ih =>
    obtain ⟨hc, hs⟩ := List.ne_and_not_mem_of_not_mem_cons hs
    by_cases hbackslash : c = '\\'
    · subst hbackslash
      cases s with
      | nil => rfl
      | cons d s => exact absurd rfl (hb d s rfl)
    · rw [seek_plain hc.symm hbackslash hq, ih hs (Option.map_eq_none_iff.mp h)]

/-! ## Steps -/

/-- The token of a step is the text the step has passed over. -/
theorem tokenBefore_append (number : ℕ) (before : List Char) (htext : text ≠ [])
    (rest : List Char) :
    tokenBefore number (before ++ text ++ rest) (byteLength before)
        (charIndices (byteLength (before ++ text)) rest) =
      some (.value ⟨some ⟨number, byteLength before + 1⟩, String.ofList text⟩) := by
  have hlength :
      byteLength (before ++ text ++ rest) = byteLength (before ++ text) + byteLength rest :=
    byteLength_append _ _
  have hlater : byteLength (before ++ text) ≠ byteLength before := by
    have := byteLength_pos htext
    rw [byteLength_append]
    omega
  rw [tokenBefore, hlength, byte_charIndices, if_neg hlater, slice_append]
  rfl

/-- A comment is the end of the stream. -/
theorem consumeOne_comment (number : ℕ) (before s : List Char) :
    ∃ left, consumeOne number (before ++ ';' :: s) (charIndices (byteLength before) (';' :: s)) =
      some (.ok .endOfStream, left) := by
  cases s with
  | nil => exact ⟨_, rfl⟩
  | cons c s => exact ⟨_, rfl⟩

theorem ofChar_blank (hc : isBlank c = true) : Mode.ofChar c = .blank := by
  rw [Mode.ofChar, if_neg (ne_of_isBlank hc (by decide)), if_neg (ne_of_isBlank hc (by decide)),
    if_pos hc]

/-- A run of blanks yields nothing. -/
theorem consumeOne_blank (number : ℕ) (before : List Char) (hc : isBlank c = true)
    (hs : '\n' ∉ s) :
    consumeOne number (before ++ c :: s) (charIndices (byteLength before) (c :: s)) =
      some (.ok .nothing, charIndices (byteLength (before ++ (c :: s).takeWhile isBlank))
        ((c :: s).dropWhile isBlank)) := by
  rw [List.takeWhile_cons_of_pos hc, List.dropWhile_cons_of_pos hc, charIndices, consumeOne,
    ofChar_blank hc, seek_blank hs, byteLength_append, byteLength_cons, Nat.add_assoc]
  rfl

/-- A string that is not closed is reported where it opens. -/
theorem consumeOne_open (number : ℕ) (before : List Char) (h : splitQuoted s = none)
    (hs : '\n' ∉ s) :
    consumeOne number (before ++ '"' :: s) (charIndices (byteLength before) ('"' :: s)) =
      some (.error ⟨some ⟨number, byteLength before + 1⟩, .unterminatedString⟩, []) := by
  have hmode : Mode.ofChar '"' = .string false := by decide
  rw [charIndices, consumeOne, hmode, seek_open hs h]
  rfl

/-- **A mode that ends with a token** yields the text it has passed over. -/
theorem consumeOne_token {before : List Char} {stop : Stop} {left : Chars}
    (hstop : stop = .current ∨ stop = .advanceOne)
    (hseek : seek (Mode.ofChar c) (charIndices (byteLength before + c.utf8Size) s) =
      some (.ok stop, left))
    (hleft : stop.advance left = charIndices (byteLength (before ++ c :: text)) rest)
    (hs : text ++ rest = s) :
    consumeOne number (before ++ c :: s) (charIndices (byteLength before) (c :: s)) =
      some (.ok (.value ⟨some ⟨number, byteLength before + 1⟩, String.ofList (c :: text)⟩),
        charIndices (byteLength (before ++ c :: text)) rest) := by
  have htoken := tokenBefore_append number before (List.cons_ne_nil c text) rest
  rw [List.append_assoc, List.cons_append, hs] at htoken
  have hraw : stop.rawToken number (before ++ c :: s) (byteLength before) (stop.advance left) =
      some (.value ⟨some ⟨number, byteLength before + 1⟩, String.ofList (c :: text)⟩) := by
    rw [hleft]
    rcases hstop with rfl | rfl <;> exact htoken
  rw [charIndices, consumeOne, hseek, Option.bind_some]
  dsimp only
  rw [hraw, hleft]
  rfl

theorem consumeOne_closed (number : ℕ) (before : List Char)
    (h : splitQuoted s = some (text, rest)) (hs : '\n' ∉ s) :
    consumeOne number (before ++ '"' :: s) (charIndices (byteLength before) ('"' :: s)) =
      some (.ok (.value ⟨some ⟨number, byteLength before + 1⟩, String.ofList ('"' :: text)⟩),
        charIndices (byteLength (before ++ '"' :: text)) rest) := by
  have hmode : Mode.ofChar '"' = .string false := by decide
  obtain ⟨quote, hseek⟩ := seek_closed (n := byteLength before + '"'.utf8Size) hs h
  rw [← hmode] at hseek
  refine consumeOne_token (.inr rfl) hseek ?_ (append_splitQuoted h)
  rw [Stop.advance, List.tail_cons, byteLength_append, byteLength_cons, Nat.add_assoc]

theorem consumeOne_word (number : ℕ) (before : List Char) (hsemi : c ≠ ';') (hquote : c ≠ '"')
    (hblank : ¬isBlank c = true) :
    consumeOne number (before ++ c :: s) (charIndices (byteLength before) (c :: s)) =
      some (.ok (.value ⟨some ⟨number, byteLength before + 1⟩,
          String.ofList (c :: s.takeWhile isWordChar)⟩),
        charIndices (byteLength (before ++ c :: s.takeWhile isWordChar))
          (s.dropWhile isWordChar)) := by
  have hmode : Mode.ofChar c = .word := by
    rw [Mode.ofChar, if_neg hsemi, if_neg hquote, if_neg hblank]
  have hseek := seek_word (n := byteLength before + c.utf8Size) (s := s)
  rw [← hmode] at hseek
  refine consumeOne_token (.inl rfl) hseek ?_ List.takeWhile_append_dropWhile
  rw [Stop.advance, byteLength_append, byteLength_cons, Nat.add_assoc]

/-- What a line yields is what a step yields, and what is yielded by what the step leaves. -/
theorem items_eq {chars left : Chars} {outcome : Except (Located Error) RawToken} :
    consumeOne number line chars = some (outcome, left) →
      items number line chars =
        match outcome with
        | .error e => (items number line left).map (.error e :: ·)
        | .ok .endOfStream => some []
        | .ok .nothing => items number line left
        | .ok (.value token) => (items number line left).map (.ok token :: ·) := by
  intro h
  rw [items]
  split <;> rename_i heq <;> rw [h] at heq <;> cases heq <;> rfl

/-! ## Lines -/

theorem items_nil : items number line [] = some [] := by
  rw [items_eq rfl]

/-- Blanks yield nothing, one by one or at once. -/
theorem lineItems_blanks (line column : ℕ) (s : List Char) :
    lineItems line (column + byteLength (s.takeWhile isBlank)) (s.dropWhile isBlank) =
      lineItems line column s := by
  induction s generalizing column with
  | nil => rfl
  | cons c s ih =>
    by_cases hc : isBlank c = true
    · rw [List.takeWhile_cons_of_pos hc, List.dropWhile_cons_of_pos hc, byteLength_cons,
        ← Nat.add_assoc, ih, lineItems, if_neg (ne_of_isBlank hc (by decide)), if_pos hc]
    · rw [List.takeWhile_cons_of_neg hc, List.dropWhile_cons_of_neg hc]
      rfl

/-- **What is left of a line** yields its tokens, and its failure. -/
theorem items_charIndices (before : List Char) (hs : '\n' ∉ s) :
    items number (before ++ s) (charIndices (byteLength before) s) =
      some (lineItems number (byteLength before + 1) s) := by
  induction hlength : s.length using Nat.strong_induction_on generalizing before s with
  | _ length ih
  subst hlength
  -- what is left when a text has been passed over
  have hskip : ∀ text rest, text ++ rest = s → text ≠ [] →
      items number (before ++ s) (charIndices (byteLength (before ++ text)) rest) =
        some (lineItems number (byteLength before + 1 + byteLength text) rest) := by
    rintro text rest rfl htext
    have hshort : rest.length < (text ++ rest).length := by
      rw [List.length_append]
      have := List.length_pos_of_ne_nil htext
      omega
    have hrest := ih _ hshort (before ++ text) (fun h => hs (List.mem_append_right text h)) rfl
    rwa [List.append_assoc, byteLength_append before, Nat.add_right_comm,
      ← byteLength_append before] at hrest
  cases s with
  | nil => rw [charIndices, items_nil, lineItems]
  | cons c s =>
    obtain ⟨-, hs'⟩ := List.ne_and_not_mem_of_not_mem_cons hs
    by_cases hsemi : c = ';'
    · subst hsemi
      obtain ⟨left, hstep⟩ := consumeOne_comment number before s
      rw [items_eq hstep, lineItems, if_pos rfl]
    by_cases hblank : isBlank c = true
    · have hne : (c :: s).takeWhile isBlank ≠ [] := by
        rw [List.takeWhile_cons_of_pos hblank]
        exact List.cons_ne_nil _ _
      rw [items_eq (consumeOne_blank number before hblank hs'),
        hskip _ _ List.takeWhile_append_dropWhile hne, lineItems_blanks]
    by_cases hquote : c = '"'
    · subst hquote
      cases hsplit : splitQuoted s with
      | none =>
        rw [items_eq (consumeOne_open number before hsplit hs'), lineItems_open hsplit,
          items_nil]
        rfl
      | some p =>
        have hcut : '"' :: p.1 ++ p.2 = '"' :: s := congrArg _ (append_splitQuoted hsplit)
        rw [items_eq (consumeOne_closed number before hsplit hs'), lineItems_closed hsplit,
          hskip _ _ hcut (List.cons_ne_nil _ _)]
        rfl
    · have hcut : c :: s.takeWhile isWordChar ++ s.dropWhile isWordChar = c :: s :=
        congrArg _ List.takeWhile_append_dropWhile
      rw [items_eq (consumeOne_word number before hsemi hquote hblank), lineItems, if_neg hsemi,
        if_neg hblank, if_neg hquote, hskip _ _ hcut (List.cons_ne_nil _ _)]
      rfl

/-- **The machine cuts a line** into its tokens, and stops. -/
theorem items_eq_lineItems (h : '\n' ∉ text) :
    items number text (charIndices 0 text) = some (lineItems number 1 text) :=
  items_charIndices [] h

/-! ## Sources -/

theorem linesItems_eq {texts : List (List Char)} (h : ∀ text ∈ texts, '\n' ∉ text) :
    linesItems number texts = some (itemsFrom number texts) := by
  induction texts generalizing number with
  | nil => rfl
  | cons text texts ih =>
    obtain ⟨htext, htexts⟩ := List.forall_mem_cons.mp h
    rw [linesItems, items_eq_lineItems htext, ih htexts, itemsFrom_cons]
    rfl

/-- **The tokens of a source, by the machine**: it yields them from the lines of the source without
their endings, at the same places, in the same groups, and with the same failure. -/
theorem tokenize_machine (source : String) :
    ∃ items, linesItems 1 (endedLines source) = some items ∧
      collect items.flatten = tokenize source ∧
      collect ((items.map collect).filter isGroup) = tokenizeLines source :=
  ⟨_, linesItems_eq (newline_not_mem_endedLines source), tokenize_endedLines source,
    tokenizeLines_endedLines source⟩

end LiteralCodec.Token.Machine
