import LiteralCodec.Blank
import LiteralCodec.Location

/-!
# Tokens of a source

A source is a list of lines, and each line is cut into tokens on its own. A semicolon outside a
token starts a comment, which runs to the end of the line. A token that starts with a quote runs to
the next quote that no backslash escapes, on the same line; it holds its quotes, and anything may
stand between them. Any other token is a word, which runs to the next blank or semicolon. Nothing
has to separate a quoted token from what follows it. The tokens of all lines are collected one
behind the other, or in groups, one for each line that has any; the first failure is the answer
either way.

Operations: `tokenize`, `tokenize_lines`; `line_to_iter`, which `Token.Machine` has step by step
(`lineItems`).

## Results

* `Token.append_splitQuoted`: a quoted token and what follows it are the text they were cut from.
* `Token.length_splitQuoted`: something is always taken off.
-/

namespace LiteralCodec

namespace Token

/-- Why a source has no tokens. -/
inductive Error
  | unterminatedString
  deriving DecidableEq, Repr

/-- The text of a failure. -/
def Error.message : Error → String
  | unterminatedString => "Encountered unterminated string literal"

/-- The text of a failure behind its location. -/
def failureText (e : Located Error) : String := Location.label e.loc e.item.message

/-! ## Words and quotes -/

/-- Whether a character goes on with a word. -/
def isWordChar (c : Char) : Bool := !isBlank c && c != ';'

/-- The size of a text in UTF-8 bytes. -/
def byteLength (s : List Char) : Nat := (String.ofList s).utf8ByteSize

/-- Cuts a text behind its first quote that no backslash escapes. -/
def splitQuoted : List Char → Option (List Char × List Char)
  | [] => none
  | '"' :: rest => some (['"'], rest)
  | '\\' :: c :: rest => (splitQuoted rest).map fun (body, rest) => ('\\' :: c :: body, rest)
  | c :: rest => (splitQuoted rest).map fun (body, rest) => (c :: body, rest)

theorem append_splitQuoted {s body rest : List Char} (h : splitQuoted s = some (body, rest)) :
    body ++ rest = s := by
  fun_induction splitQuoted s generalizing body rest with
  | case1 => simp at h
  | case2 rest =>
    simp only [Option.some.injEq, Prod.mk.injEq] at h
    rw [← h.1, ← h.2]
    rfl
  | case3 c s ih =>
    obtain ⟨⟨b, r⟩, hb, hr⟩ := Option.map_eq_some_iff.1 h
    simp only [Prod.mk.injEq] at hr
    rw [← hr.1, ← hr.2, List.cons_append, List.cons_append, ih hb]
  | case4 c s _ _ ih =>
    obtain ⟨⟨b, r⟩, hb, hr⟩ := Option.map_eq_some_iff.1 h
    simp only [Prod.mk.injEq] at hr
    rw [← hr.1, ← hr.2, List.cons_append, ih hb]

theorem length_splitQuoted {s body rest : List Char} (h : splitQuoted s = some (body, rest)) :
    rest.length ≤ s.length := by
  rw [← append_splitQuoted h, List.length_append]
  exact Nat.le_add_left _ _

theorem length_dropWhile (p : Char → Bool) (s : List Char) : (s.dropWhile p).length ≤ s.length :=
  (List.dropWhile_suffix p).length_le

/-! ## Lines and sources -/

/-- What is left of a line yields its tokens one by one, from a column on, and at the end its
failure if it has one. -/
def lineItems (line column : Nat) : List Char → List (Except (Located Error) Token)
  | [] => []
  | c :: rest =>
    if c = ';' then []
    else if isBlank c then lineItems line (column + c.utf8Size) rest
    else if c = '"' then
      match _ : splitQuoted rest with
      | none => [.error ⟨some ⟨line, column⟩, .unterminatedString⟩]
      | some (body, rest) =>
        let text := c :: body
        .ok ⟨some ⟨line, column⟩, String.ofList text⟩ ::
          lineItems line (column + byteLength text) rest
    else
      let text := c :: rest.takeWhile isWordChar
      .ok ⟨some ⟨line, column⟩, String.ofList text⟩ ::
        lineItems line (column + byteLength text) (rest.dropWhile isWordChar)
termination_by s => s.length
decreasing_by
  · simp
  · have := length_splitQuoted ‹_›
    simp only [List.length_cons]
    omega
  · have := length_dropWhile isWordChar rest
    simp only [List.length_cons]
    omega

/-- The lines of a source. -/
def sourceLines (source : String) : List (List Char) := source.toList.splitOn '\n'

/-- What the lines of a source yield. -/
def sourceItems (source : String) : List (List (Except (Located Error) Token)) :=
  (sourceLines source).mapIdx fun i text => lineItems (i + 1) 1 text

/-- What is yielded, up to the first failure. -/
def collect {α : Type} (items : List (Except (Located Error) α)) :
    Except (Located Error) (List α) :=
  items.mapM id

/-- Whether a line is kept as a group: a line without tokens is not, a line that fails is. -/
def isGroup : Except (Located Error) (List Token) → Bool
  | .ok tokens => !tokens.isEmpty
  | .error _ => true

/-- The tokens of a source, a group for each line that is kept. -/
def tokenizeLines (source : String) : Except (Located Error) (List (List Token)) :=
  collect (((sourceItems source).map collect).filter isGroup)

/-- The tokens of a source. -/
def tokenize (source : String) : Except (Located Error) (List Token) :=
  collect (sourceItems source).flatten

end Token

end LiteralCodec
