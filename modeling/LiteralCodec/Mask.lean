import LiteralCodec.Enumerant

/-!
# Masks

The text of a mask is a list of names with bars between them, and its value is the union of the bits
of all names. Order and repetition do not matter, but a bar needs a name on either side. Written
out, a mask is the list of the names of its bits in the order of the table, and the name of no bits
if it is empty; a mask with a bit that has no name cannot be written.

Operations: `parse_mask` (`parse`), `format_mask` (`format`), `resolve_mask` (`resolve`). Out of
scope: traces and logs.

## Results

* `Mask.parse_empty`: the empty text is refused.
* `Mask.named_subset`: the named bits of a mask are bits of the mask.
-/

namespace LiteralCodec

/-- Why a mask is refused. -/
inductive MaskError
  | emptyExpression (category : MaskCategory)
  /-- A name is missing next to a bar; the whole text is kept. -/
  | emptyComponent (category : MaskCategory) (expression : String)
  | unknownName (category : MaskCategory) (name : String)
  | unnamedBits (category : MaskCategory) (bits : Word)
  deriving DecidableEq, Repr

namespace MaskError

/-- The text of a failure. -/
def message : MaskError → String
  | emptyExpression category => "Invalid " ++ category.text ++ " operand ''."
  | emptyComponent category expression =>
    "Invalid " ++ category.text ++ " operand '" ++ expression ++ "': empty name between separators."
  | unknownName category name => "Invalid " ++ category.text ++ " operand '" ++ name ++ "'."
  | unnamedBits category bits =>
    "Invalid " ++ category.text ++ " operand bits 0x" ++
      String.ofList (Nat.toDigits 16 bits.toNat) ++ "."

/-- What a reporter calls the failure. -/
def kind (_ : MaskError) : DiagnosticKind := .malformedMask

end MaskError

namespace Mask

/-- The union of bits. -/
def union (bits : List Word) : Word := bits.foldl (· ||| ·) 0

/-! ## Reading -/

/-- The bits of one name of an expression. -/
def parseName (category : MaskCategory) (expression name : String) : Except MaskError Word :=
  if name.isEmpty then .error (.emptyComponent category expression)
  else (category.lookup? name).elim (.error (.unknownName category name)) .ok

/-- The names of an expression, between its bars. -/
def names (expression : String) : List String :=
  (expression.toList.splitOn '|').map String.ofList

/-- Reads a mask. -/
def parse (category : MaskCategory) (expression : String) : Except MaskError Word :=
  if expression.isEmpty then .error (.emptyExpression category)
  else do
    let bits ← (names expression).mapM (parseName category expression)
    return union bits

/-- Reads a token as a mask. -/
def resolve (category : MaskCategory) (token : Token) : Except Diagnostic Word :=
  (parse category token.item).mapError fun e => ⟨e.kind, e.message, token.loc⟩

theorem parse_empty (category : MaskCategory) :
    parse category "" = .error (.emptyExpression category) := rfl

/-! ## Writing -/

/-- The enumerants of a category whose bit is set in a mask. -/
def present (category : MaskCategory) (mask : Word) : List Enumerant :=
  category.enumerants.filter fun e => e.value != 0 && mask &&& e.value == e.value

/-- The bits of a mask that have names. -/
def named (category : MaskCategory) (mask : Word) : Word :=
  union ((present category mask).map (·.value))

/-- Writes a mask. -/
def format (category : MaskCategory) (mask : Word) : Except MaskError String :=
  if mask = 0 then
    match category.enumerants.find? (·.value == 0) with
    | some e => .ok e.name
    | none => .error (.unnamedBits category 0)
  else if named category mask = mask then
    .ok ("|".intercalate ((present category mask).map (·.name)))
  else .error (.unnamedBits category (mask &&& ~~~named category mask))

theorem foldl_union_subset {mask : Word} {bits : List Word} (h : ∀ b ∈ bits, mask &&& b = b)
    {acc : Word} (ha : mask &&& acc = acc) :
    mask &&& bits.foldl (· ||| ·) acc = bits.foldl (· ||| ·) acc := by
  induction bits generalizing acc with
  | nil => exact ha
  | cons b bits ih =>
    refine ih (fun x hx => h x (by simp [hx])) ?_
    have hb := h b (by simp)
    ext i hi
    have h₁ := congrArg (·.getLsbD i) ha
    have h₂ := congrArg (·.getLsbD i) hb
    simp only [BitVec.getLsbD_and] at h₁ h₂
    simp only [← BitVec.getLsbD_eq_getElem, BitVec.getLsbD_and, BitVec.getLsbD_or]
    rw [Bool.and_or_distrib_left, h₁, h₂]

theorem named_subset (category : MaskCategory) (mask : Word) :
    mask &&& named category mask = named category mask := by
  refine foldl_union_subset (fun b hb => ?_) (by simp)
  obtain ⟨e, he, rfl⟩ := List.mem_map.1 hb
  have := (List.mem_filter.1 he).2
  simp only [Bool.and_eq_true, beq_iff_eq] at this
  exact this.2

end Mask

end LiteralCodec
