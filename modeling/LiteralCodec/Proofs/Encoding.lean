import LiteralCodec.Codec
import LiteralCodec.Proofs.Token.Position
import LiteralCodec.Proofs.Verdict

/-!
# Encoding, token by token

A source that is cut into tokens is encoded if each of them is a literal of the type, and the words
are those of one literal after the other. Otherwise the tokens are read up to the first that is no
literal, and what is reported is that token and its place. The tokens behind it are not looked at;
but the source is cut to its end before the first of them is read.

Results:
* `readAll_eq_ok`, `readAll_eq_error`: the words of all tokens, or the failure of the first.
* `encode_eq_ok`, `encode_eq_error`: what encoding makes of a source.
* `encode_blames`: which token is reported, and where it stands.
-/

namespace LiteralCodec

variable {ty : NumericType} {reporter : Reporter} {token : Token} {tokens : List Token}
  {words : List Word} {source : String}

/-! ## Texts that are literals -/

namespace Literal

/-- A text that is read as a literal of a type. -/
def Valid (ty : NumericType) (text : String) : Prop :=
  ∃ words, read ty ⟨"", .soft⟩ ⟨none, text⟩ = .ok words

/-- It is a literal for all reporters, wherever it stands. -/
theorem valid_iff (reporter : Reporter) :
    Valid ty token.item ↔ ∃ words, read ty reporter token = .ok words := by
  simp only [Valid, read_ok_iff]

/-- A hard reporter has something to say of all other texts. -/
theorem exists_diagnostic (h : ¬Valid ty token.item) (lead : String) :
    ∃ d, read ty ⟨lead, .hard⟩ token = .error (.invalid d) := by
  cases hread : read ty ⟨lead, .hard⟩ token with
  | ok words => exact absurd ((valid_iff _).mpr ⟨words, hread⟩) h
  | error e =>
    cases e with
    | invalid d => exact ⟨d, rfl⟩
    | noMatch =>
      obtain ⟨cause, -, hrefusal⟩ := readIn_eq_error.mp hread
      cases (refusal_eq_noMatch.mp hrefusal).2

end Literal

/-! ## All tokens -/

/-- **The words of all tokens** are those of each token, one after the other. -/
theorem readAll_eq_ok :
    readAll ty reporter tokens = .ok words ↔
      ∃ pieces, List.Forall₂ (fun token piece => Literal.read ty reporter token = .ok piece)
        tokens pieces ∧ pieces.flatten = words := by
  induction tokens generalizing words with
  | nil =>
    constructor
    · intro h
      exact ⟨[], .nil, Except.ok.inj h⟩
    · rintro ⟨pieces, hpieces, rfl⟩
      cases hpieces
      rfl
  | cons token tokens ih =>
    rw [readAll, bind_eq_ok]
    constructor
    · rintro ⟨piece, hread, h⟩
      obtain ⟨more, hmore, hwords⟩ := bind_eq_ok.mp h
      obtain ⟨pieces, hpieces, rfl⟩ := ih.mp hmore
      exact ⟨piece :: pieces, .cons hread hpieces, Except.ok.inj hwords⟩
    · rintro ⟨pieces, hpieces, rfl⟩
      cases hpieces with
      | cons hread hpieces =>
        exact ⟨_, hread, bind_eq_ok.mpr ⟨_, ih.mpr ⟨_, hpieces, rfl⟩, rfl⟩⟩

/-- **The failure of all tokens** is that of the first one that fails. -/
theorem readAll_eq_error {e : LiteralError} :
    readAll ty reporter tokens = .error e ↔
      ∃ before token after, tokens = before ++ token :: after ∧
      (∀ t ∈ before, Literal.Valid ty t.item) ∧ Literal.read ty reporter token = .error e := by
  induction tokens with
  | nil =>
    constructor
    · intro h
      cases h
    · rintro ⟨before, token, after, h, -⟩
      cases before <;> cases h
  | cons token tokens ih =>
    rw [readAll, bind_eq_error]
    constructor
    · rintro (hread | ⟨piece, hread, h⟩)
      · exact ⟨[], token, tokens, rfl, List.forall_mem_nil _, hread⟩
      · rcases bind_eq_error.mp h with hmore | ⟨more, -, h⟩
        · obtain ⟨before, token', after, rfl, hbefore, htoken'⟩ := ih.mp hmore
          have hvalid := (Literal.valid_iff reporter).mpr ⟨piece, hread⟩
          exact ⟨token :: before, token', after, rfl, List.forall_mem_cons.mpr ⟨hvalid, hbefore⟩,
            htoken'⟩
        · cases h
    · rintro ⟨before, token', after, htokens, hbefore, htoken'⟩
      cases before with
      | nil =>
        obtain ⟨rfl, -⟩ := List.cons.inj htokens
        exact .inl htoken'
      | cons first before =>
        obtain ⟨rfl, rfl⟩ := List.cons.inj htokens
        obtain ⟨hfirst, hbefore⟩ := List.forall_mem_cons.mp hbefore
        obtain ⟨piece, hread⟩ := (Literal.valid_iff reporter).mp hfirst
        exact .inr ⟨piece, hread,
          bind_eq_error.mpr (.inl (ih.mpr ⟨before, token', after, rfl, hbefore, htoken'⟩))⟩

theorem valid_of_readAll (h : readAll ty reporter tokens = .ok words) :
    ∀ token ∈ tokens, Literal.Valid ty token.item := by
  obtain ⟨pieces, hpieces, -⟩ := readAll_eq_ok.mp h
  have hvalid := hpieces.imp fun token piece hread =>
    And.intro ((Literal.valid_iff reporter).mpr ⟨piece, hread⟩) hread
  exact ((List.forall₂_and_left _ _).mp hvalid).1

/-! ## Sources -/

/-- **What is encoded** are the words of the tokens. -/
theorem encode_eq_ok :
    encode ty source = .ok words ↔
      ∃ tokens, Token.tokenize source = .ok tokens ∧
        readAll ty (encodeReporter ty) tokens = .ok words := by
  rw [encode, bind_eq_ok]
  simp only [mapError_eq_ok]

/-- **What is not encoded** cannot be cut into tokens, or has a token that is no literal. -/
theorem encode_eq_error {e : CodecError} :
    encode ty source = .error e ↔
      (∃ f, Token.tokenize source = .error f ∧ .tokenize f = e) ∨
        ∃ tokens, Token.tokenize source = .ok tokens ∧
          ∃ f, readAll ty (encodeReporter ty) tokens = .error f ∧ .ofLiteral f = e := by
  rw [encode, bind_eq_error]
  simp only [mapError_eq_ok, mapError_eq_error]

/-- A failure to cut a source into tokens comes before all others. -/
theorem encode_eq_tokenize {f : Located Token.Error} :
    encode ty source = .error (.tokenize f) ↔ Token.tokenize source = .error f := by
  constructor
  · intro h
    rcases encode_eq_error.mp h with ⟨f', hf, he⟩ | ⟨_, _, f', _, he⟩
    · cases he
      exact hf
    · cases f' <;> cases he
  · intro h
    exact encode_eq_error.mpr (.inl ⟨f, h, rfl⟩)

/-- The first token that is no literal is reported, whatever stands behind it. -/
theorem encode_of_first {before after : List Token} {d : Diagnostic}
    (htokens : Token.tokenize source = .ok (before ++ token :: after))
    (hbefore : ∀ t ∈ before, Literal.Valid ty t.item)
    (hread : Literal.read ty (encodeReporter ty) token = .error (.invalid d)) :
    encode ty source = .error (.diagnostic d) :=
  encode_eq_error.mpr (.inr ⟨_, htokens, .invalid d,
    readAll_eq_error.mpr ⟨before, token, after, rfl, hbefore, hread⟩, rfl⟩)

/-- A source that is cut into tokens, but not encoded, has a first token that is no literal. -/
theorem exists_first {e : CodecError} (htokens : Token.tokenize source = .ok tokens)
    (h : encode ty source = .error e) :
    ∃ before token after d, tokens = before ++ token :: after ∧
      (∀ t ∈ before, Literal.Valid ty t.item) ∧ ¬Literal.Valid ty token.item ∧
      Literal.read ty (encodeReporter ty) token = .error (.invalid d) ∧ e = .diagnostic d := by
  rcases encode_eq_error.mp h with ⟨f, hf, -⟩ | ⟨tokens', htokens', f, hf, rfl⟩
  · rw [htokens] at hf
    cases hf
  · obtain rfl : tokens = tokens' := Except.ok.inj (htokens.symm.trans htokens')
    obtain ⟨before, token, after, rfl, hbefore, hread⟩ := readAll_eq_error.mp hf
    have hvalid : ¬Literal.Valid ty token.item := fun hv => by
      obtain ⟨words, hwords⟩ := (Literal.valid_iff (encodeReporter ty)).mp hv
      rw [hread] at hwords
      cases hwords
    obtain ⟨d, hd⟩ := Literal.exists_diagnostic hvalid (encodeReporter ty).lead
    obtain rfl : f = .invalid d := Except.error.inj (hread.symm.trans hd)
    exact ⟨before, token, after, d, rfl, hbefore, hvalid, hread, rfl⟩

/-- A source is encoded if all its tokens are literals, and only then. -/
theorem encode_fails_iff (htokens : Token.tokenize source = .ok tokens) :
    (∃ e, encode ty source = .error e) ↔ ∃ token ∈ tokens, ¬Literal.Valid ty token.item := by
  constructor
  · rintro ⟨e, h⟩
    obtain ⟨before, token, after, d, rfl, -, hvalid, -⟩ := exists_first htokens h
    exact ⟨token, List.mem_append_right before List.mem_cons_self, hvalid⟩
  · rintro ⟨token, hm, hvalid⟩
    cases h : encode ty source with
    | error e => exact ⟨e, rfl⟩
    | ok words =>
      obtain ⟨tokens', htokens', hread⟩ := encode_eq_ok.mp h
      obtain rfl : tokens = tokens' := Except.ok.inj (htokens.symm.trans htokens')
      exact absurd (valid_of_readAll hread token hm) hvalid

/-- Encoding fails in two ways only. -/
theorem encode_error_cases {e : CodecError} (h : encode ty source = .error e) :
    (∃ f, e = .tokenize f) ∨ ∃ d, e = .diagnostic d := by
  cases htokens : Token.tokenize source with
  | error f => exact .inl ⟨f, Except.error.inj (h.symm.trans (encode_eq_tokenize.mpr htokens))⟩
  | ok tokens =>
    obtain ⟨_, _, _, d, -, -, -, -, rfl⟩ := exists_first htokens h
    exact .inr ⟨d, rfl⟩

/-- **The right token is blamed.** Encoding fails because the source cannot be cut into tokens, with
the failure of that, or because some token is no literal of the type. Then the first such token is
reported: its text is in the message, its place is the place where it stands in the source, and what
is behind it makes no difference. -/
theorem encode_blames (ty : NumericType) (source : String) :
    (∀ e, encode ty source = .error e → (∃ f, e = .tokenize f) ∨ ∃ d, e = .diagnostic d) ∧
    (∀ f, encode ty source = .error (.tokenize f) ↔ Token.tokenize source = .error f) ∧
    ∀ tokens, Token.tokenize source = .ok tokens →
      ((∃ e, encode ty source = .error e) ↔ ∃ token ∈ tokens, ¬Literal.Valid ty token.item) ∧
      ∀ e, encode ty source = .error e → ∃ before token after d loc left right,
        tokens = before ++ token :: after ∧
        (∀ t ∈ before, Literal.Valid ty t.item) ∧ ¬Literal.Valid ty token.item ∧
        e = .diagnostic d ∧ Literal.read ty (encodeReporter ty) token = .error (.invalid d) ∧
        d.message = "Invalid " ++ ty.text ++ " literal: " ++ token.item ∧
        d.loc = some loc ∧ Token.Stands source token loc left right ∧
        ∀ source' after', Token.tokenize source' = .ok (before ++ token :: after') →
          encode ty source' = .error e := by
  refine ⟨fun e => encode_error_cases, fun f => encode_eq_tokenize,
    fun tokens htokens => ⟨encode_fails_iff htokens, fun e h => ?_⟩⟩
  obtain ⟨before, token, after, d, rfl, hbefore, hvalid, hread, rfl⟩ := exists_first htokens h
  have hm : token ∈ before ++ token :: after := List.mem_append_right before List.mem_cons_self
  obtain ⟨loc, left, right, hstands, -⟩ := Token.exists_stands htokens hm
  obtain ⟨hmessage, hloc, -⟩ := Literal.read_eq_invalid hread
  exact ⟨before, token, after, d, loc, left, right, rfl, hbefore, hvalid, rfl, hread, hmessage,
    hloc.trans hstands.loc_eq, hstands,
    fun source' after' htokens' => encode_of_first htokens' hbefore hread⟩

example :
    encode (.int false 16 (by decide) (by decide)) "1 2\n 3 65536" =
      .error (.diagnostic ⟨.outOfRange, "Invalid u16 literal: 65536", some ⟨2, 4⟩⟩) := by
  decide +kernel

/-- A string without an end is blamed before a word that is no number. Where all strings end, the
first number that is too large is blamed behind one that is not, where it stands in its line. -/
theorem encode_blames_unterminated :
    (∃ f, encode (.int false 16 (by decide) (by decide)) "x \"" = .error (.tokenize f)) ∧
      ∃ token left right, token.item = "65536" ∧
        ¬Literal.Valid (.int false 16 (by decide) (by decide)) token.item ∧
        Token.Stands "1\n ; x\n 2 65536 x" token ⟨3, 4⟩ left right ∧
        encode (.int false 16 (by decide) (by decide)) "1\n ; x\n 2 65536 x" =
          .error (.diagnostic ⟨.outOfRange, "Invalid u16 literal: 65536", some ⟨3, 4⟩⟩) := by
  constructor
  · obtain ⟨-, htokenize, -⟩ := encode_blames (.int false 16 (by decide) (by decide)) "x \""
    exact ⟨⟨some ⟨1, 3⟩, .unterminatedString⟩, (htokenize _).mpr (by decide +kernel)⟩
  · obtain ⟨-, -, hblames⟩ :=
      encode_blames (.int false 16 (by decide) (by decide)) "1\n ; x\n 2 65536 x"
    have htokens : Token.tokenize "1\n ; x\n 2 65536 x" =
        .ok [⟨some ⟨1, 1⟩, "1"⟩, ⟨some ⟨3, 2⟩, "2"⟩, ⟨some ⟨3, 4⟩, "65536"⟩,
          ⟨some ⟨3, 10⟩, "x"⟩] := by
      decide +kernel
    have hfails : encode (.int false 16 (by decide) (by decide)) "1\n ; x\n 2 65536 x" =
        .error (.diagnostic ⟨.outOfRange, "Invalid u16 literal: 65536", some ⟨3, 4⟩⟩) := by
      decide +kernel
    obtain ⟨_, token, _, d, loc, left, right, -, -, hvalid, hd, -, hmessage, hloc, hstands, -⟩ :=
      (hblames _ htokens).2 _ hfails
    cases hd
    cases hloc
    exact ⟨token, left, right, (String.append_right_inj _).mp hmessage.symm, hvalid, hstands,
      hfails⟩

end LiteralCodec
