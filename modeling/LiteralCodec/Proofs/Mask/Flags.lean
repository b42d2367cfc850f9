import LiteralCodec.FlagSet
import LiteralCodec.Proofs.Mask.Listing

/-!
# Sets of flags are masks

The flags of a category are declared in one table and its names registered in another. Each name
comes with a flag, but that all flags have names, and that no name comes with a flag of another
category, is a matter of the two tables, which are compared here. A mask that was read has names for
all of its bits, so these are declared, and reading a set of flags fails just where reading the mask
does. Bits that are declared have names, so a set of flags is always written, and as the mask that
it is.

How flag sets are made from bits does not matter, as long as the law of a conversion is kept.

Results:
* `MaskCategory.flags_eq`: the declared flags are what the names stand for.
* `FlagSet.IsConversion.exists_iff`: which masks are sets of flags.
* `FlagSet.parseWith_bits`: a set of flags is read as the mask.
* `FlagSet.typed_untyped`: sets of flags agree with masks, read and written.
-/

namespace LiteralCodec

open Mask (AllNamed)

variable {category : MaskCategory} {expression : String} {mask : Word} {i : ℕ}

/-! ## Two tables -/

/-- **The declared flags are what the names stand for**, but for the name for no bits. -/
theorem MaskCategory.flags_eq (category : MaskCategory) :
    category.flags = (category.enumerants.map (·.value)).filter (· != 0) := by
  cases category <;> decide

theorem MaskCategory.mem_flags {flag : Word} :
    flag ∈ category.flags ↔ flag ≠ 0 ∧ ∃ name, ⟨name, flag⟩ ∈ category.enumerants := by
  rw [flags_eq, List.mem_filter, List.mem_map, bne_iff_ne, and_comm]
  refine and_congr_right fun _ => ⟨?_, ?_⟩
  · rintro ⟨e, he, rfl⟩
    exact ⟨e.name, he⟩
  · rintro ⟨name, hm⟩
    exact ⟨_, hm, rfl⟩

/-- A bit is declared if it has a name. -/
theorem MaskCategory.exists_flag_iff :
    (∃ flag ∈ category.flags, flag.getLsbD i = true) ↔ ∃ name, category.NamesBit name i := by
  simp only [namesBit_iff, mem_flags]
  constructor
  · rintro ⟨flag, ⟨-, name, hm⟩, hi⟩
    exact ⟨name, flag, hm, hi⟩
  · rintro ⟨name, flag, hm, hi⟩
    exact ⟨flag, ⟨fun hzero => Mask.eq_zero_iff.mp hzero i hi, name, hm⟩, hi⟩

theorem MaskCategory.getLsbD_allFlags :
    category.allFlags.getLsbD i = true ↔ ∃ name, category.NamesBit name i := by
  rw [allFlags, Mask.getLsbD_union, List.any_eq_true, exists_flag_iff]

/-- All bits of a mask are declared if all of them have names. -/
theorem and_not_allFlags : mask &&& ~~~category.allFlags = 0 ↔ AllNamed category mask := by
  rw [Mask.and_not_eq_zero]
  exact forall_congr' fun i => imp_congr_right fun _ => MaskCategory.getLsbD_allFlags

namespace FlagSet

/-! ## Conversions -/

variable {fromBits : Conversion}

/-- A flag set is made from its own bits, and from no others. -/
theorem IsConversion.eq_some_iff (h : IsConversion fromBits) {flags : FlagSet category} :
    fromBits category mask = some flags ↔ flags.bits = mask := by
  constructor
  · exact h.bits_eq
  · rintro rfl
    have hne : fromBits category flags.bits ≠ none := by
      rw [ne_eq, h.eq_none_iff, not_not]
      exact flags.declared
    obtain ⟨⟨bits, declared⟩, hmade⟩ := Option.ne_none_iff_exists'.mp hne
    obtain rfl := h.bits_eq hmade
    exact hmade

/-- **Which masks are sets of flags.** -/
theorem IsConversion.exists_iff (h : IsConversion fromBits) :
    (∃ flags, fromBits category mask = some flags) ↔ AllNamed category mask := by
  rw [← Option.ne_none_iff_exists', ne_eq, h.eq_none_iff, not_not, and_not_allFlags]

/-- A mask with a bit that is not declared is no set of flags. -/
theorem IsConversion.eq_none_iff_exists (h : IsConversion fromBits) :
    fromBits category mask = none ↔
      ∃ i, mask.getLsbD i = true ∧ ∀ flag ∈ category.flags, ¬flag.getLsbD i = true := by
  rw [← not_iff_not, ← ne_eq, Option.ne_none_iff_exists', h.exists_iff, AllNamed]
  simp only [← MaskCategory.exists_flag_iff, not_exists, not_and, not_forall, not_not, exists_prop]

/-! ## Reading and writing -/

/-- **A set of flags is read as the mask**, and fails as the mask does. -/
theorem parseWith_bits (h : IsConversion fromBits) (category : MaskCategory) (expression : String) :
    (parseWith fromBits category expression).map (·.bits) = Mask.parse category expression := by
  unfold parseWith
  cases hmask : Mask.parse category expression with
  | error failure => rfl
  | ok mask =>
    obtain ⟨flags, hflags⟩ := h.exists_iff.mpr (Mask.allNamed_of_parse hmask)
    have hbits := h.eq_some_iff.mp hflags
    simp [bind, Except.bind, hflags, Except.map, hbits]

/-- Bits without names are none of the reasons why a mask is not read. -/
theorem parse_ne_unnamedBits {bits : Word} :
    Mask.parse category expression ≠ .error (.unnamedBits category bits) := by
  intro h
  by_cases hempty : expression = ""
  · subst hempty
    rw [Mask.parse_empty] at h
    cases h
  · obtain ⟨k, piece, -, -, -, hrefusal⟩ := (Mask.parse_eq_error hempty).mp h
    rw [Mask.refusal] at hrefusal
    split_ifs at hrefusal

/-- A set of flags is always written. -/
theorem exists_format (flags : FlagSet category) : ∃ text, flags.format = .ok text := by
  have hnamed : AllNamed category flags.bits := and_not_allFlags.mp flags.declared
  exact ⟨_, Mask.format_eq_ok.mpr ⟨hnamed, rfl⟩⟩

/-- **Sets of flags agree with masks**, for every conversion that keeps its law. An expression is
read as a set of flags just if it is read as a mask, with the same bits, and fails in the same way
if not; it never fails for bits without names. A mask is a set of flags just if it has no bit that
is not declared, and just if it is written; the set of flags is then written as the same text. So
every set of flags is written. -/
theorem typed_untyped {fromBits : Conversion} (h : IsConversion fromBits)
    (category : MaskCategory) :
    (∀ expression,
      (parseWith fromBits category expression).map (·.bits) = Mask.parse category expression) ∧
    (∀ expression bits,
      parseWith fromBits category expression ≠ .error (.unnamedBits category bits)) ∧
    (∀ mask, fromBits category mask = none ↔
      ∃ i, mask.getLsbD i = true ∧ ∀ flag ∈ category.flags, ¬flag.getLsbD i = true) ∧
    (∀ mask, (∃ flags, fromBits category mask = some flags) ↔
      ∃ text, Mask.format category mask = .ok text) ∧
    (∀ mask flags, fromBits category mask = some flags →
      flags.format = Mask.format category mask) ∧
    ∀ flags : FlagSet category, ∃ text, flags.format = .ok text := by
  refine ⟨parseWith_bits h category, fun expression bits hparse => ?_,
    fun mask => h.eq_none_iff_exists, fun mask => ?_, fun mask flags hmade => ?_, exists_format⟩
  · have hmask := parseWith_bits h category expression
    rw [hparse] at hmask
    exact parse_ne_unnamedBits hmask.symm
  · simp only [h.exists_iff, Mask.format_eq_ok, exists_and_left, exists_eq', and_true]
  · rw [format, h.eq_some_iff.mp hmade]

/-- The selection controls of both bits as a set of flags; the third bit is not declared. -/
theorem typed_untyped_flatten :
    (parse .selectionControl "DontFlatten|Flatten").map (·.bits) = .ok 3 ∧
      (∃ flags, ofBits? .selectionControl 3 = some flags ∧
        flags.format = .ok "Flatten|DontFlatten") ∧
      ofBits? .selectionControl 4 = none := by
  obtain ⟨hparse, -, hnone, hsome, hformat, -⟩ :=
    typed_untyped isConversion_ofBits? .selectionControl
  have hmask : Mask.parse .selectionControl "DontFlatten|Flatten" = .ok 3 := by decide +kernel
  have htext : Mask.format .selectionControl 3 = .ok "Flatten|DontFlatten" := by decide +kernel
  have hflag : ∀ flag ∈ MaskCategory.selectionControl.flags, ¬flag.getLsbD 2 = true := by
    intro flag hm
    simp only [MaskCategory.flags, List.mem_cons, List.not_mem_nil, or_false] at hm
    rcases hm with rfl | rfl <;> decide
  obtain ⟨flags, hflags⟩ := (hsome 3).mpr ⟨_, htext⟩
  refine ⟨?_, ⟨flags, hflags, ?_⟩, ?_⟩
  · rw [parse, hparse, hmask]
  · rw [hformat 3 flags hflags, htext]
  · rw [hnone]
    exact ⟨2, by decide, hflag⟩

end FlagSet

end LiteralCodec
