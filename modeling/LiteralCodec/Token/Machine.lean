import LiteralCodec.Token

/-!
# A machine that cuts a line into tokens

The machine walks over the characters of a line, each with the byte it starts at. One step takes a
character, which decides on a **mode**, and goes on until the mode ends. It looks at the next
character before it takes it, and so leaves the one that ends a mode where it is. A token is the
slice of the line from the byte the step started at up to the byte the machine has come to.

Three things the machine does not rule out by itself are `none` here: a slice that cuts through a
character, a slice that ends before it starts, and a mode that does not end with the line. They do
not happen (`Machine.items_eq_lineItems`).

Operations: `from_char` (`Mode.ofChar`, `Terminator.ofChar?`), `should_terminate`
(`Mode.shouldTerminate`), `build_raw_token` (`Stop.rawToken`), `consume_one` (`consumeOne`),
`line_to_iter` (`items`), `source_to_iters` (`linesItems`).

## Results

* `Machine.length_consumeOne`: a step takes a character, unless the stream ends.
-/

namespace LiteralCodec.Token.Machine

/-! ## Bytes -/

/-- What is left of a line: characters, each with the byte it starts at. -/
abbrev Chars := List (Nat × Char)

/-- The characters of a text that starts at a byte. -/
def charIndices (start : Nat) : List Char → Chars
  | [] => []
  | c :: rest => (start, c) :: charIndices (start + c.utf8Size) rest

/-- The text before a byte and the text from there on; `none` inside a character and behind the
text. -/
def splitAtByte : Nat → List Char → Option (List Char × List Char)
  | 0, text => some ([], text)
  | _ + 1, [] => none
  | byte + 1, c :: rest =>
    if c.utf8Size ≤ byte + 1 then
      (splitAtByte (byte + 1 - c.utf8Size) rest).map fun (before, rest) => (c :: before, rest)
    else none

/-- The text between two bytes. -/
def slice (text : List Char) (start stop : Nat) : Option (List Char) := do
  let (before, _) ← splitAtByte stop text
  let (_, between) ← splitAtByte start before
  return between

/-! ## Modes -/

/-- What a step has found, by its first character. -/
inductive Mode
  | comment
  | blank
  | string (escaped : Bool)
  | word
  deriving DecidableEq, Repr

/-- The mode of a step that starts with a character. -/
def Mode.ofChar (c : Char) : Mode :=
  if c = ';' then .comment
  else if c = '"' then .string false
  else if isBlank c then .blank
  else .word

/-- What ends a word: a blank, or harder. -/
inductive Terminator
  | hard
  | blank
  deriving DecidableEq, Repr

/-- How the next character ends a word, if it does; behind the last one there is none. -/
def Terminator.ofChar? : Option Char → Option Terminator
  | none => some .hard
  | some c =>
    if c = ';' ∨ c = '\n' then some .hard else if isBlank c then some .blank else none

/-- How a mode ends: in front of the next character, behind it, with the rest of the line, or
without a token. -/
inductive Stop
  | current
  | advanceOne
  | skipEverything
  | skip
  deriving DecidableEq, Repr

/-- Whether the next character ends a mode, and what the mode is if it goes on. -/
def Mode.shouldTerminate (mode : Mode) (next : Option Char) : Except Error (Mode ⊕ Stop) :=
  match mode, Terminator.ofChar? next with
  | .comment, _ => .ok (.inr .skipEverything)
  | .blank, some .blank => .ok (.inl mode)
  | .blank, _ => .ok (.inr .skip)
  | .string escaped, _ =>
    match next with
    | none | some '\n' => .error .unterminatedString
    | some c =>
      if escaped then .ok (.inl (.string false))
      else if c = '\\' then .ok (.inl (.string true))
      else if c = '"' then .ok (.inr .advanceOne)
      else .ok (.inl mode)
  | .word, some _ => .ok (.inr .current)
  | .word, none => .ok (.inl mode)

/-! ## Steps -/

/-- Goes on until a mode ends; `none` if it never does. -/
def seek (mode : Mode) : Chars → Option (Except Error Stop × Chars)
  | [] =>
    match mode.shouldTerminate none with
    | .error e => some (.error e, [])
    | .ok (.inl _) => none
    | .ok (.inr stop) => some (.ok stop, [])
  | (byte, c) :: rest =>
    match mode.shouldTerminate (some c) with
    | .error e => some (.error e, (byte, c) :: rest)
    | .ok (.inl mode) => seek mode rest
    | .ok (.inr stop) => some (.ok stop, (byte, c) :: rest)

/-- What a step yields. -/
inductive RawToken
  | value (token : Token)
  | nothing
  | endOfStream
  deriving DecidableEq, Repr

/-- What is left when a mode has ended. -/
def Stop.advance : Stop → Chars → Chars
  | .advanceOne, chars => chars.tail
  | .current, chars | .skipEverything, chars | .skip, chars => chars

/-- The token up to the next character, or up to the end of the line. -/
def tokenBefore (number : Nat) (line : List Char) (start : Nat) (chars : Chars) :
    Option RawToken :=
  let stop := (chars.head?.map Prod.fst).getD (byteLength line)
  if stop = start then some .nothing
  else (slice line start stop).map fun text =>
    .value ⟨some ⟨number, start + 1⟩, String.ofList text⟩

/-- What a mode yields when it has ended. -/
def Stop.rawToken (stop : Stop) (number : Nat) (line : List Char) (start : Nat) (chars : Chars) :
    Option RawToken :=
  match stop with
  | .skipEverything => some .endOfStream
  | .skip => some .nothing
  | .current | .advanceOne => tokenBefore number line start chars

/-- One step of the machine, on a line with a number, and what it leaves. -/
def consumeOne (number : Nat) (line : List Char) :
    Chars → Option (Except (Located Error) RawToken × Chars)
  | [] => some (.ok .endOfStream, [])
  | (start, c) :: chars =>
    (seek (Mode.ofChar c) chars).bind fun
      | (.error e, rest) => some (.error ⟨some ⟨number, start + 1⟩, e⟩, rest)
      | (.ok stop, rest) =>
        let rest := stop.advance rest
        (stop.rawToken number line start rest).map (.ok ·, rest)

/-! ## Progress -/

theorem length_seek {mode : Mode} {chars rest : Chars} {outcome : Except Error Stop}
    (h : seek mode chars = some (outcome, rest)) : rest.length ≤ chars.length := by
  fun_induction seek mode chars <;> grind

theorem Stop.length_advance (stop : Stop) (chars : Chars) :
    (stop.advance chars).length ≤ chars.length := by
  cases stop with
  | advanceOne => exact Nat.le_trans (Nat.le_of_eq List.length_tail) (Nat.sub_le _ _)
  | current | skipEverything | skip => exact Nat.le_refl _

theorem length_consumeOne {number : Nat} {line : List Char} {chars rest : Chars}
    {outcome : Except (Located Error) RawToken}
    (h : consumeOne number line chars = some (outcome, rest)) (hne : outcome ≠ .ok .endOfStream) :
    rest.length < chars.length := by
  cases chars with
  | nil =>
    cases h
    exact absurd rfl hne
  | cons c chars =>
    obtain ⟨⟨stop, rest'⟩, hseek, hstop⟩ := Option.bind_eq_some_iff.mp h
    have hle := length_seek hseek
    cases stop with
    | error e =>
      cases hstop
      exact Nat.lt_succ_of_le hle
    | ok stop =>
      obtain ⟨raw, -, hraw⟩ := Option.map_eq_some_iff.mp hstop
      cases hraw
      exact Nat.lt_succ_of_le (Nat.le_trans (stop.length_advance rest') hle)

/-! ## Lines -/

/-- What is left of a line yields, step after step, up to the end of the stream. -/
def items (number : Nat) (line : List Char) (chars : Chars) :
    Option (List (Except (Located Error) Token)) :=
  match _ : consumeOne number line chars with
  | none => none
  | some (.error e, rest) => (items number line rest).map (.error e :: ·)
  | some (.ok .endOfStream, _) => some []
  | some (.ok .nothing, rest) => items number line rest
  | some (.ok (.value token), rest) => (items number line rest).map (.ok token :: ·)
termination_by chars.length
decreasing_by all_goals exact length_consumeOne ‹_› (by simp)

/-- What lines yield, the first of which has a number. -/
def linesItems (number : Nat) :
    List (List Char) → Option (List (List (Except (Located Error) Token)))
  | [] => some []
  | text :: more => do
    let first ← items number text (charIndices 0 text)
    let others ← linesItems (number + 1) more
    return first :: others

end LiteralCodec.Token.Machine
