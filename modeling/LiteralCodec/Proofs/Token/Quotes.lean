import LiteralCodec.Proofs.Token.Lines
import Mathlib.Data.List.Induction

/-!
# Quotes that nothing closes

A character of a line stands between tokens, in a word, in a quoted token or in a comment. Which of
these it is follows from the characters in front of it, taken one by one, and needs no token to be
cut off. A quote between tokens opens a quoted token. In a word or in a comment it is a character
like any other, and in a quoted token it is the end, unless a backslash escapes it. A source has no
tokens just if some line has a quote which opens a token and which no quote behind it in that line
closes, and the first line that has one is reported. What stands behind that quote makes no
difference, as long as it does not close it.

Results:
* `IsOpen.context_append`: where the characters behind an open quote stand.
* `Scans.exists_context`: where a scanner gets to.
* `scanLine_eq_error_iff`: a line fails at its open quote.
* `tokenize_unterminated`: a source fails at its first open quote.
-/

namespace LiteralCodec.Token

/-! ## Characters in a line -/

/-- Where a character of a line stands. -/
inductive Context
  /-- Where a token may start. -/
  | between
  | word
  | quoted
  /-- In a quoted token, behind a backslash that escapes. -/
  | escaped
  | comment
  deriving DecidableEq, Repr

/-- Where the next character stands, behind a character. -/
def Context.next : Context → Char → Context
  | between, c =>
    if c = ';' then comment else if isBlank c then between else if c = '"' then quoted else word
  | word, c => if c = ';' then comment else if isBlank c then between else word
  | quoted, c => if c = '"' then between else if c = '\\' then escaped else quoted
  | escaped, _ => quoted
  | comment, _ => comment

/-- Where the next character stands, behind the beginning of a line. -/
def context (s : List Char) : Context := s.foldl Context.next .between

/-- The beginning of a line and the end of it, with a quote between them that opens a token and that
no quote behind it closes. -/
structure IsOpen (before rest : List Char) : Prop where
  opens : context before = .between
  unclosed : ∀ inner after, rest = inner ++ '"' :: after → escapes inner = true

/-- Such a quote stands in a source, at a location. -/
structure OpenAt (source : String) (loc : Location) : Prop where
  line_pos : 0 < loc.line
  exists_line : ∃ before rest, IsOpen before rest ∧
    (sourceLines source)[loc.line - 1]? = some (before ++ '"' :: rest) ∧
      loc.column = byteLength before + 1

/-- It is the first one of the source, and no other one stands in its line. -/
structure IsFirstOpen (source : String) (loc : Location) : Prop where
  openAt : OpenAt source loc
  first : ∀ loc', OpenAt source loc' → loc' = loc ∨ loc.line < loc'.line

/-! ## Quoted tokens -/

variable {line column column' : ℕ} {s before rest text : List Char} {tokens : List Token}

theorem escapes_append_singleton (s : List Char) (c : Char) :
    escapes (s ++ [c]) = (!escapes s && c == '\\') := by
  simp only [escapes, List.foldl_append, List.foldl_cons, List.foldl_nil]

/-- As long as all quotes are escaped, a quoted token goes on. -/
theorem foldl_next_quoted (h : ∀ inner after, s = inner ++ '"' :: after → escapes inner = true) :
    s.foldl Context.next .quoted = if escapes s then .escaped else .quoted := by
  induction s using List.reverseRecOn with
  | nil => rfl
  | append_singleton s c ih =>
    have hs := ih fun inner after he => h inner (after ++ [c]) (by rw [he]; simp)
    rw [List.foldl_append, List.foldl_cons, List.foldl_nil, hs, escapes_append_singleton]
    cases he : escapes s with
    | true => rfl
    | false =>
      have hquote : c ≠ '"' := by
        rintro rfl
        rw [h s [] rfl] at he
        cases he
      by_cases hb : c = '\\'
      · subst hb
        rfl
      · simp [Context.next, hquote, hb]

/-- **Behind an open quote** all characters of the line belong to it. -/
theorem IsOpen.context_append {inner after : List Char} (h : IsOpen before (inner ++ after)) :
    context (before ++ '"' :: inner) = .quoted ∨ context (before ++ '"' :: inner) = .escaped := by
  have hinner : ∀ start tail, inner = start ++ '"' :: tail → escapes start = true :=
    fun start tail he => h.unclosed start (tail ++ after) (by rw [he]; simp)
  have hnext : Context.next .between '"' = .quoted := rfl
  rw [context, List.foldl_append, ← context, h.opens, List.foldl_cons, hnext,
    foldl_next_quoted hinner]
  split_ifs
  · exact .inr rfl
  · exact .inl rfl

/-- A line has one open quote at most. -/
theorem IsOpen.unique {before' rest' : List Char} (h : IsOpen before rest)
    (h' : IsOpen before' rest') (he : before ++ '"' :: rest = before' ++ '"' :: rest') :
    before = before' := by
  -- of two open quotes the second would stand in the token that the first one opens
  have hbehind : ∀ {b r b' : List Char} {gap tail}, IsOpen b r → r = gap ++ tail →
      b' = b ++ '"' :: gap → ¬context b' = .between := by
    rintro b r b' gap tail hopen rfl rfl hcontext
    rcases hopen.context_append with hc | hc <;> rw [hc] at hcontext <;> cases hcontext
  rcases append_eq_append_cons he with ⟨gap, hbefore, hrest⟩ | ⟨gap, hbefore⟩
  · cases gap with
    | nil => rw [hbefore, List.append_nil]
    | cons c gap =>
      obtain ⟨rfl, htail⟩ := List.cons.inj hrest
      exact absurd h'.opens (hbehind h htail hbefore)
  · have hrest : rest' = gap ++ '"' :: rest := by
      rw [hbefore, List.append_assoc, List.append_cancel_left_eq, List.cons_append] at he
      exact (List.cons.inj he).2.symm
    exact absurd h.opens (hbehind h' hrest hbefore)

/-- A quote is closed by the first quote behind it that is not escaped. -/
theorem exists_closes {inner : List Char} (h : escapes inner = false) (after : List Char) :
    ∃ body tail, Closes body ∧ inner ++ '"' :: after = body ++ '"' :: tail := by
  induction hn : inner.length using Nat.strong_induction_on generalizing inner after with
  | _ n ih =>
    by_cases hclosed : ∀ start tail, inner = start ++ '"' :: tail → escapes start = true
    · exact ⟨inner, after, ⟨h, hclosed⟩, rfl⟩
    · simp only [not_forall] at hclosed
      obtain ⟨start, tail, rfl, hstart⟩ := hclosed
      rw [List.length_append, List.length_cons] at hn
      obtain ⟨body, tail', hbody, he⟩ :=
        ih start.length (by omega) (by simpa using hstart) (tail ++ '"' :: after) rfl
      exact ⟨body, tail', hbody, by rw [← he]; simp⟩

/-- What is not cut off holds no quote that closes it. -/
theorem splitQuoted_eq_none :
    splitQuoted s = none ↔ ∀ inner after, s = inner ++ '"' :: after → escapes inner = true := by
  constructor
  · rintro h inner after rfl
    by_contra hinner
    obtain ⟨body, tail, hbody, he⟩ := exists_closes (by simpa using hinner) after
    have hsome : splitQuoted (inner ++ '"' :: after) = some (body ++ ['"'], tail) :=
      splitQuoted_eq_some.mpr ⟨body, hbody, rfl, by rw [he]; simp⟩
    rw [h] at hsome
    cases hsome
  · intro h
    cases hsplit : splitQuoted s with
    | none => rfl
    | some parts =>
      obtain ⟨text, rest⟩ := parts
      obtain ⟨body, hbody, rfl, hs⟩ := splitQuoted_eq_some.mp hsplit
      have hescapes := h body rest (by rw [hs]; simp)
      rw [hbody.unescaped] at hescapes
      cases hescapes

/-! ## Scanning a line -/

theorem foldl_next_comment (s : List Char) : s.foldl Context.next .comment = .comment := by
  induction s with
  | nil => rfl
  | cons c s ih => exact ih

theorem next_between_of_isBlank {c : Char} (h : isBlank c = true) :
    Context.next .between c = .between := by
  have hc : c ≠ ';' := by
    rintro rfl
    cases h
  simp [Context.next, hc, h]

/-- Where a word stops, it is as if there had been none. -/
theorem next_word_of_ended {c : Char} (h : isBlank c = true ∨ c = ';') :
    Context.next .word c = Context.next .between c := by
  rcases h with h | rfl
  · simp [Context.next, h]
  · rfl

theorem IsWord.foldl_next (h : IsWord text rest) : text.foldl Context.next .between = .word := by
  obtain ⟨c, text, rfl⟩ := List.exists_cons_of_ne_nil h.ne_nil
  have hc : Context.next .between c = .word := by
    obtain ⟨hblank, hsemi⟩ := h.wordChar c List.mem_cons_self
    have hquote : c ≠ '"' := fun e => h.head_ne (congrArg some e)
    simp [Context.next, hblank, hsemi, hquote]
  have hword : ∀ s : List Char, (∀ d ∈ s, isBlank d = false ∧ d ≠ ';') →
      s.foldl Context.next .word = .word := by
    intro s hs
    induction s with
    | nil => rfl
    | cons d s ih =>
      obtain ⟨⟨hblank, hsemi⟩, hs⟩ := List.forall_mem_cons.mp hs
      have hd : Context.next .word d = .word := by simp [Context.next, hblank, hsemi]
      rw [List.foldl_cons, hd, ih hs]
  rw [List.foldl_cons, hc]
  exact hword text fun d hd => h.wordChar d (List.mem_cons_of_mem c hd)

theorem IsQuoted.foldl_next (h : IsQuoted text) : text.foldl Context.next .between = .between := by
  obtain ⟨body, hbody, rfl⟩ := h
  have hopens : Context.next .between '"' = .quoted := rfl
  have hcloses : Context.next .quoted '"' = .between := rfl
  rw [List.foldl_cons, List.foldl_append, hopens, foldl_next_quoted hbody.escaped, hbody.unescaped,
    if_neg Bool.false_ne_true, List.foldl_cons, List.foldl_nil, hcloses]

/-- **A scanner gets to a place between tokens**, or to the end of a word. -/
theorem Scans.exists_context (h : Scans line column s tokens column' rest) :
    ∃ body, s = body ++ rest ∧ column' = column + byteLength body ∧
      (context body = .between ∨
        context body = .word ∧ ∀ c ∈ rest.head?, isBlank c = true ∨ c = ';') := by
  induction h with
  | refl => exact ⟨[], rfl, rfl, .inl rfl⟩
  | @blank column column' c s rest tokens hc _ ih =>
    obtain ⟨body, rfl, rfl, hbody⟩ := ih
    refine ⟨c :: body, rfl, by rw [byteLength_cons, Nat.add_assoc], ?_⟩
    rwa [context, List.foldl_cons, next_between_of_isBlank hc]
  | @lexeme column column' text s rest tokens hlexeme _ ih =>
    obtain ⟨body, rfl, rfl, hbody⟩ := ih
    refine ⟨text ++ body, by simp, by rw [byteLength_append, Nat.add_assoc], ?_⟩
    rw [context, List.foldl_append]
    rcases hlexeme with hword | hquoted
    · rw [hword.foldl_next]
      cases body with
      | nil => exact .inr ⟨rfl, hword.ended⟩
      | cons c body =>
        rw [List.foldl_cons, next_word_of_ended (hword.ended c rfl)]
        exact hbody
    · rw [hquoted.foldl_next]
      exact hbody

/-- Where a scanner is stopped by a quote, the quote is open. -/
theorem Scans.exists_isOpen (h : Scans line column s tokens column' rest)
    (hrest : Unterminated rest) :
    ∃ before after, IsOpen before after ∧ s = before ++ '"' :: after ∧
      column' = column + byteLength before := by
  obtain ⟨after, rfl, hnone⟩ := hrest
  obtain ⟨before, hs, hcolumn, hcontext | ⟨-, hended⟩⟩ := h.exists_context
  · exact ⟨before, after, ⟨hcontext, splitQuoted_eq_none.mp hnone⟩, hs, hcolumn⟩
  · rcases hended '"' rfl with hblank | hsemi
    · cases hblank
    · cases hsemi

/-- Where a scanner gets to the end of a line, no quote is open. -/
theorem Scans.not_isOpen (h : Scans line column (before ++ '"' :: rest) tokens column' text)
    (hend : AtEnd text) : ¬IsOpen before rest := by
  intro hopen
  obtain ⟨body, hs, -, hbody⟩ := h.exists_context
  have hquoted := IsOpen.context_append (by rwa [List.append_nil] : IsOpen before (rest ++ []))
  rw [hs, context, List.foldl_append] at hquoted
  cases text with
  | nil =>
    rcases hbody with hc | ⟨hc, -⟩ <;> rw [← context, hc] at hquoted <;> simp at hquoted
  | cons c text =>
    obtain rfl := hend c rfl
    have hcomment : Context.next (body.foldl Context.next .between) ';' = .comment := by
      rcases hbody with hc | ⟨hc, -⟩ <;> rw [← context, hc] <;> rfl
    rw [List.foldl_cons, hcomment, foldl_next_comment] at hquoted
    simp at hquoted

/-- **A line fails at its open quote**, if it has one. -/
theorem scanLine_eq_error_iff {e : Located Error} :
    scanLine line 1 s = .error e ↔ ∃ before rest, IsOpen before rest ∧ s = before ++ '"' :: rest ∧
      e = ⟨some ⟨line, byteLength before + 1⟩, .unterminatedString⟩ := by
  rw [scanLine_eq_error]
  constructor
  · rintro ⟨tokens, column', rest, hscan, hquote, rfl⟩
    obtain ⟨before, after, hopen, hs, rfl⟩ := hscan.exists_isOpen hquote
    exact ⟨before, after, hopen, hs, by rw [Nat.add_comm]⟩
  · rintro ⟨before, rest, hopen, rfl, rfl⟩
    obtain ⟨tokens, column', rest', hscan, hend | hquote⟩ :=
      exists_scans line 1 (before ++ '"' :: rest)
    · exact absurd hopen (hscan.not_isOpen hend)
    · obtain ⟨before', after', hopen', hs, rfl⟩ := hscan.exists_isOpen hquote
      obtain rfl := hopen.unique hopen' hs
      exact ⟨tokens, _, rest', hscan, hquote, by rw [Nat.add_comm]⟩

/-! ## Scanning a source -/

variable {source : String} {loc loc' : Location}

/-- A source has an open quote where a line of it fails. -/
theorem openAt_iff :
    OpenAt source loc ↔ 0 < loc.line ∧ ∃ text, (sourceLines source)[loc.line - 1]? = some text ∧
      scanLine loc.line 1 text = .error ⟨some loc, .unterminatedString⟩ := by
  constructor
  · rintro ⟨hpos, before, rest, hopen, hline, hcolumn⟩
    refine ⟨hpos, _, hline, scanLine_eq_error_iff.mpr ⟨before, rest, hopen, rfl, ?_⟩⟩
    rw [← hcolumn]
  · rintro ⟨hpos, text, hline, herror⟩
    obtain ⟨before, rest, hopen, rfl, he⟩ := scanLine_eq_error_iff.mp herror
    exact ⟨hpos, before, rest, hopen, hline, congrArg Location.column
      (Option.some.inj (congrArg Located.loc he))⟩

theorem tokenize_eq_error {e : Located Error} :
    tokenize source = .error e ↔ scanLines 1 (sourceLines source) = .error e := by
  rw [tokenize_eq_scanLines, map_eq_error]

/-- An open quote leaves a source without tokens. -/
theorem OpenAt.exists_error (h : OpenAt source loc) : ∃ e, tokenize source = .error e := by
  cases htokens : tokenize source with
  | error e => exact ⟨e, rfl⟩
  | ok tokens =>
    obtain ⟨hpos, text, hline, herror⟩ := openAt_iff.mp h
    obtain ⟨lines, hlines, -⟩ := tokenize_eq_ok.mp htokens
    obtain ⟨_, -, hscan⟩ := exists_scanLine hlines hline
    rw [Nat.add_sub_cancel' hpos, herror] at hscan
    cases hscan

/-- **A source without tokens** has its first open quote where the failure is reported. -/
theorem exists_isFirstOpen {e : Located Error} (h : tokenize source = .error e) :
    ∃ loc, IsFirstOpen source loc ∧ e = ⟨some loc, .unterminatedString⟩ := by
  obtain ⟨before, text, after, lines, hsource, hlines, herror⟩ :=
    scanLines_eq_error.mp (tokenize_eq_error.mp h)
  obtain ⟨start, rest, hopen, htext, rfl⟩ := scanLine_eq_error_iff.mp herror
  refine ⟨_, ⟨openAt_iff.mpr ⟨Nat.add_pos_left Nat.one_pos _, text, ?_, herror⟩,
    fun loc' hloc' => ?_⟩, rfl⟩
  · rw [hsource, Nat.add_sub_cancel_left, List.getElem?_append_right le_rfl, Nat.sub_self]
    rfl
  · obtain ⟨hpos, text', hline, herror'⟩ := openAt_iff.mp hloc'
    rcases lt_trichotomy (loc'.line - 1) before.length with hlt | heq | hgt
    · -- the lines above have been scanned
      rw [hsource, List.getElem?_append_left hlt] at hline
      obtain ⟨_, -, hscan⟩ := exists_scanLine hlines hline
      rw [Nat.add_sub_cancel' hpos, herror'] at hscan
      cases hscan
    · rw [hsource, heq, List.getElem?_append_right le_rfl, Nat.sub_self] at hline
      obtain rfl := Option.some.inj hline
      have hloc : loc'.line = 1 + before.length := by omega
      rw [hloc, herror] at herror'
      exact .inl (Option.some.inj (congrArg Located.loc (Except.error.inj herror'))).symm
    · exact .inr (by simp only; omega)

/-- There is one first open quote at most. -/
theorem IsFirstOpen.unique (h : IsFirstOpen source loc) (h' : IsFirstOpen source loc') :
    loc = loc' := by
  rcases h.first loc' h'.openAt with heq | hlt
  · exact heq.symm
  · rcases h'.first loc h.openAt with heq | hgt
    · exact heq
    · omega

theorem tokenize_eq_error_iff {e : Located Error} :
    tokenize source = .error e ↔
      ∃ loc, IsFirstOpen source loc ∧ e = ⟨some loc, .unterminatedString⟩ := by
  constructor
  · exact exists_isFirstOpen
  · rintro ⟨loc, hfirst, rfl⟩
    obtain ⟨e, he⟩ := hfirst.openAt.exists_error
    obtain ⟨loc', hfirst', rfl⟩ := exists_isFirstOpen he
    rwa [hfirst.unique hfirst']

/-- What is open depends on the line alone. -/
theorem OpenAt.of_take {source' : String} {n : ℕ} (h : OpenAt source' loc) (hn : loc.line ≤ n)
    (htake : (sourceLines source').take n = (sourceLines source).take n) : OpenAt source loc := by
  obtain ⟨hpos, before, rest, hopen, hline, hcolumn⟩ := h
  refine ⟨hpos, before, rest, hopen, ?_, hcolumn⟩
  have hlt : loc.line - 1 < n := by omega
  rw [← List.getElem?_take_of_lt hlt, ← htake, List.getElem?_take_of_lt hlt, hline]

/-- A first open quote stays the first one, whatever stands behind it, as long as it is open. -/
theorem IsFirstOpen.of_take {source' : String} (h : IsFirstOpen source loc)
    (htake : (sourceLines source').take (loc.line - 1) = (sourceLines source).take (loc.line - 1))
    (hopen : OpenAt source' loc) : IsFirstOpen source' loc := by
  obtain ⟨e, he⟩ := hopen.exists_error
  obtain ⟨loc', hfirst', -⟩ := exists_isFirstOpen he
  rcases hfirst'.first loc hopen with heq | hlt
  · rwa [heq]
  · rcases h.first loc' (hfirst'.openAt.of_take (by omega) htake) with heq | hgt
    · rwa [← heq]
    · omega

/-- **A source fails exactly at its first open quote.** It has no tokens just if some line has a
quote that opens a token and that no quote behind it in the line closes. The failure has the line
and the column of the first such quote, and it is the same for every source with the same lines
above that has an open quote there. -/
theorem tokenize_unterminated (source : String) :
    ((∃ e, tokenize source = .error e) ↔ ∃ loc, OpenAt source loc) ∧
    (∀ e, tokenize source = .error e ↔
      ∃ loc, IsFirstOpen source loc ∧ e = ⟨some loc, .unterminatedString⟩) ∧
    ∀ loc, IsFirstOpen source loc → ∀ source',
      (sourceLines source').take (loc.line - 1) = (sourceLines source).take (loc.line - 1) →
        OpenAt source' loc → tokenize source' = .error ⟨some loc, .unterminatedString⟩ := by
  refine ⟨⟨fun ⟨e, he⟩ => ?_, fun ⟨loc, hopen⟩ => hopen.exists_error⟩,
    fun e => tokenize_eq_error_iff, fun loc hfirst source' htake hopen => ?_⟩
  · obtain ⟨loc, hfirst, -⟩ := exists_isFirstOpen he
    exact ⟨loc, hfirst.openAt⟩
  · exact tokenize_eq_error_iff.mpr ⟨loc, hfirst.of_take htake hopen, rfl⟩

/-- A quote in a word and one in a comment, a closed token, and an open one with an escaped quote;
then more of the line and of the source behind it. -/
theorem tokenize_unterminated_escaped :
    IsFirstOpen "a\" ;\"\n \"b\\\\\" \"c\\\"" ⟨2, 8⟩ ∧
      tokenize "a\" ;\"\n \"b\\\\\" \"c\\\"d ;\n\"" =
        .error ⟨some ⟨2, 8⟩, .unterminatedString⟩ := by
  have herror : tokenize "a\" ;\"\n \"b\\\\\" \"c\\\"" =
      .error ⟨some ⟨2, 8⟩, .unterminatedString⟩ := by decide +kernel
  obtain ⟨-, hfails, hmore⟩ := tokenize_unterminated "a\" ;\"\n \"b\\\\\" \"c\\\""
  obtain ⟨loc, hfirst, he⟩ := (hfails _).mp herror
  obtain rfl : ⟨2, 8⟩ = loc := Option.some.inj (congrArg Located.loc he)
  have hopen : IsOpen " \"b\\\\\" ".toList "c\\\"d ;".toList :=
    ⟨by decide, splitQuoted_eq_none.mp (by decide)⟩
  exact ⟨hfirst, hmore _ hfirst _ (by decide) ⟨by decide, _, _, hopen, by decide, by decide⟩⟩

end LiteralCodec.Token
