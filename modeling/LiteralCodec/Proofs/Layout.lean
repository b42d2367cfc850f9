import LiteralCodec.Proofs.Encoding
import LiteralCodec.Proofs.Token.Layout

/-!
# Layout does not matter

What a token is read as depends on its text, and on its place only where it is reported. So tokens
with the same texts in the same order have the same words, or the same one of them is reported, for
the same reason. A source whose tokens are laid out again has these texts as its tokens, wherever
they stand now.

Results:
* `Literal.read_item`: what a text is read as in two places.
* `readAll_items`: what texts are read as in two lists of places.
* `encode_layout`: what is encoded when the tokens of a source are laid out again.
-/

namespace LiteralCodec

variable {ty : NumericType}

/-- A hard reporter names the cause of a refusal, or that no literal was recognised. -/
theorem Reporter.refusal_hard (lead : String) (token : Token) (cause : Option DiagnosticKind) :
    Reporter.refusal ⟨lead, .hard⟩ token cause =
      .invalid ⟨cause.getD .unrecognized, lead ++ token.item, token.loc⟩ := by
  cases cause <;> rfl

/-- **A text in two places** gives the same words, or is reported in the same way. -/
theorem Literal.read_item {token token' : Token} (h : token.item = token'.item) (lead : String) :
    (∃ words, read ty ⟨lead, .hard⟩ token = .ok words ∧ read ty ⟨lead, .hard⟩ token' = .ok words) ∨
      ∃ d d', read ty ⟨lead, .hard⟩ token = .error (.invalid d) ∧
        read ty ⟨lead, .hard⟩ token' = .error (.invalid d') ∧ d.kind = d'.kind ∧
        d.message = d'.message := by
  cases hv : verdict Form.all ty token.item.toList with
  | ok value =>
    obtain ⟨words, hpack⟩ := exists_pack_of_verdict hv
    exact .inl ⟨words, readIn_eq_ok.mpr ⟨value, hv, hpack⟩,
      readIn_eq_ok.mpr ⟨value, by rw [← h, hv], hpack⟩⟩
  | error cause =>
    refine .inr ⟨_, _, readIn_eq_error.mpr ⟨cause, hv, Reporter.refusal_hard lead token cause⟩,
      readIn_eq_error.mpr ⟨cause, by rw [← h, hv], Reporter.refusal_hard lead token' cause⟩, rfl,
      ?_⟩
    exact congrArg (lead ++ ·) h

/-- **The same texts in other places** give the same words, or the same one of them is reported. -/
theorem readAll_items {tokens tokens' : List Token}
    (h : tokens'.map (·.item) = tokens.map (·.item)) (lead : String) :
    (∃ words, readAll ty ⟨lead, .hard⟩ tokens = .ok words ∧
        readAll ty ⟨lead, .hard⟩ tokens' = .ok words) ∨
      ∃ d d', readAll ty ⟨lead, .hard⟩ tokens = .error (.invalid d) ∧
        readAll ty ⟨lead, .hard⟩ tokens' = .error (.invalid d') ∧ d.kind = d'.kind ∧
        d.message = d'.message := by
  induction tokens generalizing tokens' with
  | nil =>
    obtain rfl : tokens' = [] := List.map_eq_nil_iff.mp h
    exact .inl ⟨[], rfl, rfl⟩
  | cons token tokens ih =>
    obtain ⟨token', more, rfl, hitem, hmore⟩ := List.map_eq_cons_iff.mp h
    rcases Literal.read_item hitem.symm lead with
      ⟨piece, hread, hread'⟩ | ⟨d, d', hread, hread', hkind, hmessage⟩
    · rcases ih hmore with ⟨words, hall, hall'⟩ | ⟨d, d', hall, hall', hkind, hmessage⟩
      · exact .inl ⟨piece ++ words, by rw [readAll, hread, hall]; rfl,
          by rw [readAll, hread', hall']; rfl⟩
      · exact .inr ⟨d, d', by rw [readAll, hread, hall]; rfl, by rw [readAll, hread', hall']; rfl,
          hkind, hmessage⟩
    · exact .inr ⟨d, d', by rw [readAll, hread]; rfl, by rw [readAll, hread']; rfl, hkind, hmessage⟩

/-- **Layout does not matter.** However the tokens of a source are laid out again, with gaps between
them and what gaps are at both ends, the new source is cut into tokens with the same texts. It is
encoded as the same words for every type, or the failure has the same kind and the same message. -/
theorem encode_layout {source source' : String} {tokens : List Token}
    (htokens : Token.tokenize source = .ok tokens)
    (hlayout : Token.IsLayout (tokens.map (·.item)) source') :
    (∃ tokens', Token.tokenize source' = .ok tokens' ∧
      tokens'.map (·.item) = tokens.map (·.item)) ∧
    ∀ ty, (∃ words, encode ty source = .ok words ∧ encode ty source' = .ok words) ∨
      ∃ d d', encode ty source = .error (.diagnostic d) ∧
        encode ty source' = .error (.diagnostic d') ∧ d.kind = d'.kind ∧
          d.message = d'.message := by
  have hitem : ∀ text ∈ tokens.map (·.item), Token.IsItem text.toList :=
    List.forall_mem_map.mpr fun _ => Token.isItem_of_tokenize htokens
  obtain ⟨tokens', htokens', hitems⟩ := Token.tokenize_layout hlayout hitem
  refine ⟨⟨tokens', htokens', hitems⟩, fun ty => ?_⟩
  rcases readAll_items hitems (encodeReporter ty).lead with
    ⟨words, hall, hall'⟩ | ⟨d, d', hall, hall', hkind, hmessage⟩
  · exact .inl ⟨words, encode_eq_ok.mpr ⟨tokens, htokens, hall⟩,
      encode_eq_ok.mpr ⟨tokens', htokens', hall'⟩⟩
  · exact .inr ⟨d, d', encode_eq_error.mpr (.inr ⟨tokens, htokens, _, hall, rfl⟩),
      encode_eq_error.mpr (.inr ⟨tokens', htokens', _, hall', rfl⟩), hkind, hmessage⟩

/-- A string and a word that touch, with lines of comments between them. -/
theorem encode_layout_touching :
    ∃ tokens, Token.tokenize "\t\"a;\\\" b\";\"\n 1;\n;" = .ok tokens ∧
      tokens.map (·.item) = ["\"a;\\\" b\"", "1"] := by
  have htokens : Token.tokenize "\"a;\\\" b\"1" =
      .ok [⟨some ⟨1, 1⟩, "\"a;\\\" b\""⟩, ⟨some ⟨1, 9⟩, "1"⟩] := by decide +kernel
  have hgap : Token.IsGap (';' :: (['"'] ++ '\n' :: [' '])) :=
    .comment (by decide) (.blank (by decide) .nil)
  have hempty : Token.IsGap (';' :: ([] ++ '\n' :: [])) := .comment (by decide) .nil
  have htrailer : Token.IsTrailer [';', '\n', ';'] := ⟨_, hempty, .inr ⟨[], by decide, rfl⟩⟩
  have hlayout : Token.IsLayout ["\"a;\\\" b\"", "1"] "\t\"a;\\\" b\";\"\n 1;\n;" :=
    ⟨['\t'], _, .blank (by decide) .nil, .cons hgap (by decide) (.last htrailer), by decide⟩
  exact (encode_layout htokens hlayout).1

end LiteralCodec
