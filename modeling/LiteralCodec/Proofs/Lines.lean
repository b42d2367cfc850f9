import LiteralCodec.Proofs.Layout
import LiteralCodec.Proofs.Token.Lines

/-!
# Lines are independent

What stands in one line has no bearing on another: no comment and no quote goes on behind a newline,
and a literal is read by its text alone. So two texts with a newline between them have the tokens of
both, those of the second as many lines further down as the first text has, and they are encoded if
both are, as the words of both. A failure to cut either text into tokens comes before any token is
read.

Results:
* `readAll_down`: tokens further down have the same words.
* `encode_append_newline`: two texts with a newline between them.
-/

namespace LiteralCodec

variable {ty : NumericType}

/-- **Tokens further down have the same words.** -/
theorem readAll_down {tokens : List Token} {words : List Word} (lead : String) (n : ℕ) :
    readAll ty ⟨lead, .hard⟩ (tokens.map (Located.down n)) = .ok words ↔
      readAll ty ⟨lead, .hard⟩ tokens = .ok words := by
  have hitems : (tokens.map (Located.down n)).map (·.item) = tokens.map (·.item) := by
    rw [List.map_map]
    rfl
  rcases @readAll_items ty _ _ hitems lead with
    ⟨words', hall, hall'⟩ | ⟨d, d', hall, hall', -⟩ <;> rw [hall, hall']
  exact ⟨nofun, nofun⟩

/-- The tokens of two texts, when both have them. -/
theorem tokenize_append_newline_eq_ok {a b : String} {tokens : List Token} :
    Token.tokenize (a ++ "\n" ++ b) = .ok tokens ↔ ∃ first second,
      Token.tokenize a = .ok first ∧ Token.tokenize b = .ok second ∧
        first ++ second.map (Located.down (a.toList.count '\n' + 1)) = tokens := by
  rw [Token.tokenize_append_newline, bind_eq_ok]
  simp only [bind_eq_ok, mapError_eq_ok, pure, Except.pure, Except.ok.injEq]
  constructor
  · rintro ⟨first, hfirst, second, hsecond, h⟩
    exact ⟨first, second, hfirst, hsecond, h⟩
  · rintro ⟨first, second, hfirst, hsecond, h⟩
    exact ⟨first, hfirst, second, hsecond, h⟩

/-- **Lines are independent.** Two texts with a newline between them are cut into the tokens of the
first and those of the second, with every line raised by the lines of the first and every column
unchanged; so is the failure of the second, and a failure of the first is that of the whole. For
every type they are encoded just if both are, as the words of the first and then of the second. -/
theorem encode_append_newline (a b : String) :
    (Token.tokenize (a ++ "\n" ++ b) =
      match Token.tokenize a, Token.tokenize b with
      | .error e, _ => .error e
      | .ok _, .error e => .error (e.down (a.toList.count '\n' + 1))
      | .ok first, .ok second =>
        .ok (first ++ second.map (Located.down (a.toList.count '\n' + 1)))) ∧
    ∀ ty words, encode ty (a ++ "\n" ++ b) = .ok words ↔
      ∃ u v, encode ty a = .ok u ∧ encode ty b = .ok v ∧ words = u ++ v := by
  constructor
  · rw [Token.tokenize_append_newline]
    cases Token.tokenize a with
    | error e => rfl
    | ok first => cases Token.tokenize b <;> rfl
  · intro ty words
    simp only [encode_eq_ok, tokenize_append_newline_eq_ok]
    constructor
    · rintro ⟨_, ⟨first, second, hfirst, hsecond, rfl⟩, hread⟩
      rw [readAll_append] at hread
      obtain ⟨u, hu, hread⟩ := bind_eq_ok.mp hread
      obtain ⟨v, hv, hwords⟩ := bind_eq_ok.mp hread
      exact ⟨u, v, ⟨first, hfirst, hu⟩, ⟨second, hsecond, (readAll_down _ _).mp hv⟩,
        (Except.ok.inj hwords).symm⟩
    · rintro ⟨u, v, ⟨first, hfirst, hu⟩, ⟨second, hsecond, hv⟩, rfl⟩
      refine ⟨_, ⟨first, second, hfirst, hsecond, rfl⟩, ?_⟩
      rw [readAll_append]
      exact bind_eq_ok.mpr ⟨u, hu, bind_eq_ok.mpr ⟨v, (readAll_down _ _).mpr hv, rfl⟩⟩

/-- A comment with a quote in it ends with its line, and the string that nothing closes is found two
lines further down. The words of the numbers on either side are those of both. -/
theorem encode_append_newline_raised :
    Token.tokenize ("1 ; \"\n" ++ "\n" ++ "2 \"x") = .error ⟨some ⟨3, 3⟩, .unterminatedString⟩ ∧
      encode (.int false 8 (by decide) (by decide)) ("1 ; \"\n" ++ "\n" ++ "2 0xFF") =
        .ok [1, 2, 255] := by
  obtain ⟨htokens, -⟩ := encode_append_newline "1 ; \"\n" "2 \"x"
  obtain ⟨-, hwords⟩ := encode_append_newline "1 ; \"\n" "2 0xFF"
  have hfirst : Token.tokenize "1 ; \"\n" = .ok [⟨some ⟨1, 1⟩, "1"⟩] := by decide +kernel
  have hsecond : Token.tokenize "2 \"x" = .error ⟨some ⟨1, 3⟩, .unterminatedString⟩ := by
    decide +kernel
  constructor
  · rw [htokens, hfirst, hsecond]
    rfl
  · exact (hwords _ _).mpr ⟨[1], [2, 255], by decide +kernel, by decide +kernel, rfl⟩

end LiteralCodec
