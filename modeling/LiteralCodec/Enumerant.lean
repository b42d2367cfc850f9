import LiteralCodec.Diagnostic
import LiteralCodec.Word

/-!
# Enumerants

The names that operands are made of. A **mask** operand is a set of names, each of which stands for
one bit; a **value** operand is a single name. Every category has its own table, and the order of a
table is the order in which names are listed. Names are case sensitive.

Operations: `lookup_mask` (`MaskCategory.lookup?`), `lookup_value` (`ValueCategory.lookup?`),
`value_name` (`ValueCategory.name?`), `parse_enumerant`, `format_enumerant`, `resolve_enumerant`
(`ValueCategory.parse`, `format` and `resolveValue`), and what `register` fills the tables with. Out
of scope: the builder that fills them; its checks are results here (no name twice, a bit or none for
a name).

## Results

* `MaskCategory.enumerants_value`: a name of a mask stands for one bit or for none.
* `ValueCategory.lookup?_name`, `ValueCategory.name?_value`: names and values of a category go
  together.
-/

namespace LiteralCodec

/-- A name and what it stands for. -/
structure Enumerant where
  name : String
  value : Word
  deriving DecidableEq, Repr

/-- What a name of a table stands for. -/
def Enumerant.lookup? (table : List Enumerant) (name : String) : Option Word :=
  (table.find? (·.name == name)).map (·.value)

/-! ## Flags

Each flag is a bit, and the flags of each kind are counted from the lowest bit. -/

namespace Flag

-- floating-point fast math
def notNaN : Word := 1 <<< 0
def notInf : Word := 1 <<< 1
def nsz : Word := 1 <<< 2
def allowRecip : Word := 1 <<< 3
def fast : Word := 1 <<< 4

-- selections
def flatten : Word := 1 <<< 0
def dontFlatten : Word := 1 <<< 1

-- loops
def unroll : Word := 1 <<< 0
def dontUnroll : Word := 1 <<< 1
def dependencyInfinite : Word := 1 <<< 2
def dependencyLength : Word := 1 <<< 3

-- functions
def inline : Word := 1 <<< 0
def dontInline : Word := 1 <<< 1
def pure : Word := 1 <<< 2
def const : Word := 1 <<< 3

-- memory accesses
def volatile : Word := 1 <<< 0
def aligned : Word := 1 <<< 1
def nontemporal : Word := 1 <<< 2

-- image operands
def bias : Word := 1 <<< 0
def lod : Word := 1 <<< 1
def grad : Word := 1 <<< 2
def constOffset : Word := 1 <<< 3
def offset : Word := 1 <<< 4
def constOffsets : Word := 1 <<< 5
def sample : Word := 1 <<< 6
def minLod : Word := 1 <<< 7

-- kernel profiling
def cmdExecTime : Word := 1 <<< 0

end Flag

/-! ## Masks -/

/-- The kinds of mask operands. -/
inductive MaskCategory
  | fpFastMathMode
  | selectionControl
  | loopControl
  | functionControl
  | memoryAccess
  | imageOperands
  | kernelProfilingInfo
  deriving DecidableEq, Repr

namespace MaskCategory

/-- The categories in order. -/
def all : List MaskCategory :=
  [fpFastMathMode, selectionControl, loopControl, functionControl, memoryAccess, imageOperands,
    kernelProfilingInfo]

/-- The name of a category. -/
def text : MaskCategory → String
  | fpFastMathMode => "FP fast math mode"
  | selectionControl => "selection control"
  | loopControl => "loop control"
  | functionControl => "function control"
  | memoryAccess => "memory access"
  | imageOperands => "image operands"
  | kernelProfilingInfo => "kernel profiling info"

/-- The flags that are declared for a category. -/
def flags : MaskCategory → List Word
  | fpFastMathMode => [Flag.notNaN, Flag.notInf, Flag.nsz, Flag.allowRecip, Flag.fast]
  | selectionControl => [Flag.flatten, Flag.dontFlatten]
  | loopControl =>
    [Flag.unroll, Flag.dontUnroll, Flag.dependencyInfinite, Flag.dependencyLength]
  | functionControl => [Flag.inline, Flag.dontInline, Flag.pure, Flag.const]
  | memoryAccess => [Flag.volatile, Flag.aligned, Flag.nontemporal]
  | imageOperands =>
    [Flag.bias, Flag.lod, Flag.grad, Flag.constOffset, Flag.offset, Flag.constOffsets, Flag.sample,
      Flag.minLod]
  | kernelProfilingInfo => [Flag.cmdExecTime]

/-- The names that are registered for a category, each with its flag or with no bits. -/
def enumerants : MaskCategory → List Enumerant
  | fpFastMathMode =>
    [⟨"None", 0⟩, ⟨"NotNaN", Flag.notNaN⟩, ⟨"NotInf", Flag.notInf⟩, ⟨"NSZ", Flag.nsz⟩,
      ⟨"AllowRecip", Flag.allowRecip⟩, ⟨"Fast", Flag.fast⟩]
  | selectionControl =>
    [⟨"None", 0⟩, ⟨"Flatten", Flag.flatten⟩, ⟨"DontFlatten", Flag.dontFlatten⟩]
  | loopControl =>
    [⟨"None", 0⟩, ⟨"Unroll", Flag.unroll⟩, ⟨"DontUnroll", Flag.dontUnroll⟩,
      ⟨"DependencyInfinite", Flag.dependencyInfinite⟩, ⟨"DependencyLength", Flag.dependencyLength⟩]
  | functionControl =>
    [⟨"None", 0⟩, ⟨"Inline", Flag.inline⟩, ⟨"DontInline", Flag.dontInline⟩, ⟨"Pure", Flag.pure⟩,
      ⟨"Const", Flag.const⟩]
  | memoryAccess =>
    [⟨"None", 0⟩, ⟨"Volatile", Flag.volatile⟩, ⟨"Aligned", Flag.aligned⟩,
      ⟨"Nontemporal", Flag.nontemporal⟩]
  | imageOperands =>
    [⟨"None", 0⟩, ⟨"Bias", Flag.bias⟩, ⟨"Lod", Flag.lod⟩, ⟨"Grad", Flag.grad⟩,
      ⟨"ConstOffset", Flag.constOffset⟩, ⟨"Offset", Flag.offset⟩,
      ⟨"ConstOffsets", Flag.constOffsets⟩, ⟨"Sample", Flag.sample⟩, ⟨"MinLod", Flag.minLod⟩]
  | kernelProfilingInfo => [⟨"None", 0⟩, ⟨"CmdExecTime", Flag.cmdExecTime⟩]

/-- What a name of the category stands for. -/
def lookup? (category : MaskCategory) (name : String) : Option Word :=
  Enumerant.lookup? category.enumerants name

theorem enumerants_value (category : MaskCategory) :
    ∀ e ∈ category.enumerants, e.value = 0 ∨ ∃ k < 32, e.value = 1 <<< k := by
  cases category <;> decide

end MaskCategory

/-! ## Values -/

/-- The kinds of value operands. -/
inductive ValueCategory
  | samplerAddressingMode
  | samplerFilterMode
  deriving DecidableEq, Repr

/-- Why a value operand is refused. -/
inductive ValueError
  | unknownEnumerant (category : ValueCategory) (name : String)
  | unnamedValue (category : ValueCategory) (value : Word)
  deriving DecidableEq, Repr

namespace ValueCategory

/-- The categories in order. -/
def all : List ValueCategory := [samplerAddressingMode, samplerFilterMode]

/-- The name of a category. -/
def text : ValueCategory → String
  | samplerAddressingMode => "sampler addressing mode"
  | samplerFilterMode => "sampler filter mode"

/-- The names of a category. -/
def enumerants : ValueCategory → List Enumerant
  | samplerAddressingMode =>
    [⟨"None", 0⟩, ⟨"ClampToEdge", 1⟩, ⟨"Clamp", 2⟩, ⟨"Repeat", 3⟩, ⟨"RepeatMirrored", 4⟩]
  | samplerFilterMode => [⟨"Nearest", 0⟩, ⟨"Linear", 1⟩]

/-- What a name of the category stands for. -/
def lookup? (category : ValueCategory) (name : String) : Option Word :=
  Enumerant.lookup? category.enumerants name

/-- The name that stands for a value. -/
def name? (category : ValueCategory) (value : Word) : Option String :=
  (category.enumerants.find? (·.value == value)).map (·.name)

/-- Reads a name of the category. -/
def parse (category : ValueCategory) (name : String) : Except ValueError Word :=
  (category.lookup? name).elim (.error (.unknownEnumerant category name)) .ok

/-- Writes a value of the category. -/
def format (category : ValueCategory) (value : Word) : Except ValueError String :=
  (category.name? value).elim (.error (.unnamedValue category value)) .ok

theorem lookup?_name (category : ValueCategory) :
    ∀ e ∈ category.enumerants, category.lookup? e.name = some e.value := by
  cases category <;> decide

theorem name?_value (category : ValueCategory) :
    ∀ e ∈ category.enumerants, category.name? e.value = some e.name := by
  cases category <;> decide

end ValueCategory

namespace ValueError

/-- The text of a failure. -/
def message : ValueError → String
  | unknownEnumerant category name => "Invalid " ++ category.text ++ " '" ++ name ++ "'."
  | unnamedValue category value =>
    "Invalid " ++ category.text ++ " " ++ toString value.toNat ++ "."

/-- What a reporter calls the failure. -/
def kind (_ : ValueError) : DiagnosticKind := .unknownEnumerant

end ValueError

/-- Reads a token as a name of a category. -/
def resolveValue (category : ValueCategory) (token : Token) : Except Diagnostic Word :=
  (category.parse token.item).mapError fun e => ⟨e.kind, e.message, token.loc⟩

end LiteralCodec
