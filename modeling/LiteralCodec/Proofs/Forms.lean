import LiteralCodec.Literal.Reader
import LiteralCodec.Proofs.Decimal.Text
import Mathlib.Data.List.Basic

/-!
# A text has one form at most

The forms of a literal share digits, signs and letters, but not how they begin: an exclamation mark
stands for raw bits, a hex mark behind a minus sign or none for hex digits, and a decimal begins
with neither. Of two forms that begin alike one is for integers and the other for floating point
numbers. So a text has one form of a type at most, and it does not matter in which order the forms
are tried.

Results:
* `Form.eq_form_opening`: the beginning of a text tells its form.
* `Form.unique`: a text has one form at most.
* `findSome?_perm`: the first of some candidates that succeeds, where only one can.
* `readIn_perm`: the order of the forms does not matter.
-/

namespace LiteralCodec

open Numeral (splitSign afterHexMark?)

namespace Literal

/-! ## How a text begins -/

/-- How a text begins, as far as it tells forms apart. -/
inductive Opening
  | exclamationMark
  /-- A hex mark, behind a minus sign or not. -/
  | hexMark
  | neither
  deriving DecidableEq

/-- How a text begins. -/
def opening (text : List Char) : Opening :=
  if text.head? = some '!' then .exclamationMark
  else if (afterHexMark? (splitSign text).2).isSome then .hexMark
  else .neither

/-- The only form that a text with some beginning can have, by its type. -/
def Opening.form : Opening → NumericType → Form
  | exclamationMark, _ => .rawBits
  | hexMark, .float _ => .hexFloat
  | hexMark, .int .. => .hexInteger
  | neither, .float _ => .decimalFloat
  | neither, .int .. => .decimalInteger

variable {ty : NumericType} {text : List Char} {form form' : Form} {reading reading' : Reading}

theorem opening_of_hexMark (h : (afterHexMark? (splitSign text).2).isSome = true) :
    opening text = .hexMark := by
  have hhead : text.head? ≠ some '!' := by
    intro hraw
    obtain ⟨body, rfl⟩ := List.head?_eq_some_iff.mp hraw
    cases h
  rw [opening, if_neg hhead, if_pos h]

theorem opening_of_neither (hraw : text.head? ≠ some '!')
    (hmark : afterHexMark? (splitSign text).2 = none) : opening text = .neither := by
  rw [opening, if_neg hraw, hmark]
  rfl

namespace Form

theorem opening_of_readRawBits (h : readRawBits text = some reading) :
    Literal.opening text = .exclamationMark := by
  unfold readRawBits at h
  split at h
  · rfl
  · cases h

theorem opening_of_readHexFloat {format : FloatFormat}
    (h : readHexFloat format text = some reading) :
    Literal.opening text = .hexMark := by
  obtain ⟨body, hmark, -⟩ := Option.map_eq_some_iff.mp h
  exact opening_of_hexMark (Option.isSome_of_eq_some hmark)

theorem opening_of_readHexInteger (h : readHexInteger text = some reading) :
    Literal.opening text = .hexMark := by
  simp only [readHexInteger] at h
  split at h
  · next digits hmark => exact opening_of_hexMark (Option.isSome_of_eq_some hmark)
  · cases h

/-- Digits begin with no mark, and have no letter that a hex mark could end in. -/
theorem opening_of_readDecimalInteger (h : readDecimalInteger text = some reading) :
    Literal.opening text = .neither := by
  have hdecimal : Numeral.isDecimal (splitSign text).2 = true := by
    by_contra hne
    simp only [readDecimalInteger, hne] at h
    cases h
  have hdigit := (Numeral.isDecimal_iff.mp hdecimal).2
  refine opening_of_neither (fun hraw => ?_)
    (Option.eq_none_iff_forall_ne_some.mpr fun digits hmark => ?_)
  · obtain ⟨body, rfl⟩ := List.head?_eq_some_iff.mp hraw
    cases hdigit '!' List.mem_cons_self
  · obtain ⟨mark, hx, hrest⟩ := Numeral.afterHexMark?_eq_some.mp hmark
    have hd := hdigit mark (hrest ▸ List.mem_cons_of_mem _ List.mem_cons_self)
    rcases hx with rfl | rfl <;> cases hd

theorem opening_of_readDecimalFloat {format : FloatFormat}
    (h : readDecimalFloat format text = some reading) : Literal.opening text = .neither := by
  obtain ⟨d, hd, -⟩ := Option.map_eq_some_iff.mp h
  obtain ⟨t, rfl, -⟩ := DecimalText.exists_of_parse? hd
  refine opening_of_neither (fun hraw => ?_) ?_
  · obtain ⟨c, hc, hhead⟩ := t.head?_text
    rw [hc, Option.some.injEq] at hraw
    subst hraw
    rcases hhead with hhead | hhead | hhead <;> cases hhead
  · rw [t.splitSign_text, t.afterHexMark?_unsigned]

/-- **The beginning of a text tells its form.** -/
theorem eq_form_opening (h : form.read ty text = some reading) :
    form = (Literal.opening text).form ty := by
  cases form with
  | rawBits => rw [opening_of_readRawBits h, Opening.form]
  | hexFloat =>
    cases ty with
    | int isSigned width pos le => cases h
    | float format => rw [opening_of_readHexFloat h, Opening.form]
  | hexInteger =>
    cases ty with
    | int isSigned width pos le => rw [opening_of_readHexInteger h, Opening.form]
    | float format => cases h
  | decimalInteger =>
    cases ty with
    | int isSigned width pos le => rw [opening_of_readDecimalInteger h, Opening.form]
    | float format => cases h
  | decimalFloat =>
    cases ty with
    | int isSigned width pos le => cases h
    | float format => rw [opening_of_readDecimalFloat h, Opening.form]

/-- **A text has one form at most.** -/
theorem unique (h : form.read ty text = some reading) (h' : form'.read ty text = some reading') :
    form = form' :=
  (eq_form_opening h).trans (eq_form_opening h').symm

end Form

/-! ## The order of the forms -/

/-- The first candidate that gives something is the same in every order, if only one candidate gives
anything. -/
theorem findSome?_perm {α β : Type} {f : α → Option β}
    (hf : ∀ a b x y, f a = some x → f b = some y → a = b) {l l' : List α} (h : l.Perm l') :
    l.findSome? f = l'.findSome? f := by
  induction h with
  | nil => rfl
  | cons a _ ih => rw [List.findSome?_cons, List.findSome?_cons, ih]
  | swap a b l =>
    simp only [List.findSome?_cons]
    cases ha : f a with
    | none => rfl
    | some x =>
      cases hb : f b with
      | none => rfl
      | some y => rw [← hb, ← ha, hf a b x y ha hb]
  | trans _ _ ih ih' => exact ih.trans ih'

theorem firstReading_perm {forms forms' : List Form} (h : forms.Perm forms') (ty : NumericType)
    (text : List Char) : firstReading forms ty text = firstReading forms' ty text :=
  findSome?_perm (fun _ _ _ _ => Form.unique) h

/-- **The order of the forms does not matter.** A text has one form of a type at most, so trying the
forms in any other order gives the same value, the same words and the same failures. -/
theorem readIn_perm (ty : NumericType) (token : Token) :
    (∀ (form form' : Form) (reading reading' : Reading),
      form.read ty token.item.toList = some reading →
        form'.read ty token.item.toList = some reading' → form = form') ∧
    ∀ forms : List Form, forms.Perm Form.all → ∀ reporter,
      readValueIn forms ty reporter token = readValue ty reporter token ∧
        readIn forms ty reporter token = read ty reporter token := by
  refine ⟨fun _ _ _ _ => Form.unique, fun forms h reporter => ?_⟩
  have hvalue : readValueIn forms ty reporter token = readValue ty reporter token := by
    rw [readValue, readValueIn, readValueIn, firstReading_perm h]
  refine ⟨hvalue, ?_⟩
  rw [read, readIn, readIn, hvalue, readValue]

/-- A hex float whose digits have an exponent letter of decimals among them, with the decimals tried
first. -/
theorem readIn_perm_reversed :
    (∀ (form : Form) (reading : Reading),
      form.read (.float .half) "-0x1.e4p+1".toList = some reading → form = .hexFloat) ∧
    readIn Form.all.reverse (.float .half) ⟨"", .soft⟩ ⟨none, "-0x1.e4p+1"⟩ = .ok [0xC390] := by
  obtain ⟨hunique, horder⟩ := readIn_perm (.float .half) ⟨none, "-0x1.e4p+1"⟩
  have hread :
      Form.hexFloat.read (.float .half) "-0x1.e4p+1".toList = some (.ok (.bits 0xC390)) := by
    decide +kernel
  refine ⟨fun form reading h => hunique form .hexFloat reading _ h hread, ?_⟩
  rw [(horder Form.all.reverse (List.reverse_perm _) ⟨"", .soft⟩).2]
  decide +kernel

end Literal

end LiteralCodec
