import LiteralCodec.Proofs.Mask.Names

/-!
# The normal form of a mask

A mask is written as the names of its bits in the order of the table. A name of a table stands for
one bit or for none, and no bit has two names, so one pass through the table finds the name of every
bit that has one. If bits are left over the mask is not written, and the failure carries these bits.
Otherwise the text is read back as the mask it was written for. All that is read has names for its
bits, so every text that is a mask has a normal form, and two of them have the same one if they are
the same mask.

Results:
* `MaskCategory.namesBit_unique`: no bit has two names.
* `Mask.mem_present`, `Mask.getLsbD_named`: the names that are listed, and the bits that have one.
* `Mask.format_eq_ok`, `Mask.format_eq_error`: when a mask is written, and what is left over.
* `Mask.isListing_listing`: the names that a mask is written with.
* `Mask.parse_format`: what was written is read back.
* `Mask.eq_iff_format`: masks are the same if they are written as the same text.
* `Mask.format_normal`: the texts that are written are the normal forms of masks.
-/

namespace LiteralCodec

namespace MaskCategory

variable {category : MaskCategory} {name name' : String} {i : ℕ}

/-! ## Names of bits -/

/-- A registered name that stands for one bit. -/
def NamesBit (category : MaskCategory) (name : String) (i : ℕ) : Prop :=
  i < 32 ∧ ⟨name, BitVec.twoPow 32 i⟩ ∈ category.enumerants

theorem nodup_values (category : MaskCategory) : (category.enumerants.map (·.value)).Nodup := by
  cases category <;> decide

theorem getLsbD_twoPow_iff {k : ℕ} (hk : k < 32) :
    (BitVec.twoPow 32 k).getLsbD i = true ↔ k = i := by
  simp [hk]

/-- What a name of a mask stands for: no bits or one. -/
theorem value_eq_twoPow {e : Enumerant} (h : e ∈ category.enumerants) :
    e.value = 0 ∨ ∃ k < 32, e.value = BitVec.twoPow 32 k :=
  category.enumerants_value e h

/-- A name that has a bit in its value stands for that bit alone. -/
theorem namesBit_iff :
    category.NamesBit name i ↔
      ∃ value, ⟨name, value⟩ ∈ category.enumerants ∧ value.getLsbD i = true := by
  constructor
  · rintro ⟨hlt, hm⟩
    exact ⟨_, hm, (getLsbD_twoPow_iff hlt).mpr rfl⟩
  · rintro ⟨value, hm, hi⟩
    rcases value_eq_twoPow hm with rfl | ⟨k, hk, rfl⟩
    · simp at hi
    · obtain rfl := (getLsbD_twoPow_iff hk).mp hi
      exact ⟨hk, hm⟩

/-- A name stands for one bit only. -/
theorem NamesBit.eq {k : ℕ} (h : category.NamesBit name i) (h' : category.NamesBit name k) :
    i = k := by
  have hbit := (getLsbD_twoPow_iff h.1).mpr rfl
  rw [value_eq h.2 h'.2] at hbit
  exact ((getLsbD_twoPow_iff h'.1).mp hbit).symm

theorem not_namesBit_none : ¬category.NamesBit "None" i := by
  rw [namesBit_iff]
  rintro ⟨value, hm, hi⟩
  rw [value_eq hm category.none_mem] at hi
  simp at hi

/-- **No bit has two names.** -/
theorem namesBit_unique (h : category.NamesBit name i) (h' : category.NamesBit name' i) :
    name = name' :=
  congrArg Enumerant.name (List.inj_on_of_nodup_map category.nodup_values h.2 h'.2 rfl)

theorem NamesBit.mem_names (h : category.NamesBit name i) : name ∈ category.names :=
  MaskCategory.mem_names.mpr ⟨_, h.2⟩

theorem bar_not_mem_of_mem_names (h : name ∈ category.names) : '|' ∉ name.toList := by
  have hall : ∀ name ∈ category.names, '|' ∉ name.toList := by
    cases category <;> decide +kernel
  exact hall name h

/-- The first name for no bits is the one that every category has. -/
theorem find?_zero (category : MaskCategory) :
    category.enumerants.find? (·.value == 0) = some ⟨"None", 0⟩ := by
  cases category <;> rfl

end MaskCategory

namespace Mask

variable {category : MaskCategory} {expression name text : String} {mask : Word} {i : ℕ}
  {failure : MaskError}

/-! ## Bits that have names -/

/-- What is listed for a mask are the names of its bits. -/
theorem mem_present {e : Enumerant} :
    e ∈ present category mask ↔
      e ∈ category.enumerants ∧ ∃ i, mask.getLsbD i = true ∧ e.value = BitVec.twoPow 32 i := by
  rw [present, List.mem_filter, Bool.and_eq_true, bne_iff_ne, beq_iff_eq]
  refine and_congr_right fun he => ⟨?_, ?_⟩
  · rintro ⟨hne, hand⟩
    obtain ⟨k, -, hpow⟩ := (MaskCategory.value_eq_twoPow he).resolve_left hne
    refine ⟨k, ?_, hpow⟩
    rw [hpow, BitVec.and_twoPow] at hand
    split_ifs at hand with hk
    · exact hk
    · exact absurd (hpow.trans hand.symm) hne
  · rintro ⟨i, hi, hpow⟩
    rw [hpow, BitVec.and_twoPow, if_pos hi]
    refine ⟨fun hzero => ?_, rfl⟩
    have hbit := (MaskCategory.getLsbD_twoPow_iff (BitVec.lt_of_getLsbD hi)).mpr rfl
    rw [hzero] at hbit
    simp at hbit

theorem mem_present_names :
    name ∈ (present category mask).map (·.name) ↔
      ∃ i, mask.getLsbD i = true ∧ category.NamesBit name i := by
  rw [List.mem_map]
  constructor
  · rintro ⟨e, he, rfl⟩
    obtain ⟨hm, i, hi, hpow⟩ := mem_present.mp he
    exact ⟨i, hi, BitVec.lt_of_getLsbD hi, hpow ▸ hm⟩
  · rintro ⟨i, hi, -, hm⟩
    exact ⟨_, mem_present.mpr ⟨hm, i, hi, rfl⟩, rfl⟩

/-- **The bits of a mask that have names.** -/
theorem getLsbD_named :
    (named category mask).getLsbD i = true ↔
      mask.getLsbD i = true ∧ ∃ name, category.NamesBit name i := by
  rw [named, getLsbD_union, List.any_map, List.any_eq_true]
  constructor
  · rintro ⟨e, he, hi⟩
    obtain ⟨hm, k, hk, hpow⟩ := mem_present.mp he
    have hname : category.NamesBit e.name k := ⟨BitVec.lt_of_getLsbD hk, hpow ▸ hm⟩
    obtain rfl : k = i := hname.eq (MaskCategory.namesBit_iff.mpr ⟨_, hm, hi⟩)
    exact ⟨hk, e.name, hname⟩
  · rintro ⟨hi, name, hlt, hm⟩
    exact ⟨_, mem_present.mpr ⟨hm, i, hi, rfl⟩, (MaskCategory.getLsbD_twoPow_iff hlt).mpr rfl⟩

/-! ## Bits left over -/

/-- What is left of a mask when bits are taken from it. -/
theorem getLsbD_and_not {s t : Word} :
    (s &&& ~~~t).getLsbD i = true ↔ s.getLsbD i = true ∧ ¬t.getLsbD i = true := by
  rw [BitVec.getLsbD_and, BitVec.getLsbD_not, Bool.and_eq_true, Bool.and_eq_true,
    Bool.not_eq_true', Bool.not_eq_true, decide_eq_true_eq]
  exact and_congr_right fun hi => and_iff_right (BitVec.lt_of_getLsbD hi)

theorem eq_zero_iff : mask = 0 ↔ ∀ i, ¬mask.getLsbD i = true := by
  constructor
  · rintro rfl i hi
    simp at hi
  · intro h
    refine BitVec.eq_of_getLsbD_eq fun i _ => Bool.eq_iff_iff.mpr (iff_of_false (h i) ?_)
    simp

/-- Nothing is left if all bits are taken. -/
theorem and_not_eq_zero {s t : Word} :
    s &&& ~~~t = 0 ↔ ∀ i, s.getLsbD i = true → t.getLsbD i = true := by
  simp only [eq_zero_iff, getLsbD_and_not, not_and_not_right]

/-- All bits of a mask have names. -/
def AllNamed (category : MaskCategory) (mask : Word) : Prop :=
  ∀ i, mask.getLsbD i = true → ∃ name, category.NamesBit name i

/-- The bits left over are those without names. -/
theorem getLsbD_unnamed :
    (mask &&& ~~~named category mask).getLsbD i = true ↔
      mask.getLsbD i = true ∧ ¬∃ name, category.NamesBit name i := by
  rw [getLsbD_and_not, getLsbD_named]
  exact and_congr_right fun hi => not_congr (and_iff_right hi)

theorem unnamed_eq_zero : mask &&& ~~~named category mask = 0 ↔ AllNamed category mask := by
  rw [and_not_eq_zero]
  exact forall_congr' fun i => imp_congr_right fun hi => getLsbD_named.trans (and_iff_right hi)

theorem named_eq_self : named category mask = mask ↔ AllNamed category mask := by
  constructor
  · intro h i hi
    rw [← h] at hi
    exact (getLsbD_named.mp hi).2
  · intro h
    refine BitVec.eq_of_getLsbD_eq fun i _ => Bool.eq_iff_iff.mpr ?_
    exact getLsbD_named.trans ⟨And.left, fun hi => ⟨hi, h i hi⟩⟩

/-! ## Writing -/

/-- The names that a mask is written with. -/
def listing (category : MaskCategory) (mask : Word) : List String :=
  if mask = 0 then ["None"] else (present category mask).map (·.name)

/-- A mask is written if nothing is left over. -/
theorem format_eq (category : MaskCategory) (mask : Word) :
    format category mask =
      if named category mask = mask then .ok ("|".intercalate (listing category mask))
      else .error (.unnamedBits category (mask &&& ~~~named category mask)) := by
  unfold format listing
  by_cases h : mask = 0
  · subst h
    have hzero : named category 0 = 0 := (named_subset category 0).symm.trans BitVec.zero_and
    rw [if_pos rfl, if_pos rfl, if_pos hzero, category.find?_zero]
    rfl
  · rw [if_neg h, if_neg h]

theorem format_eq_ok :
    format category mask = .ok text ↔
      AllNamed category mask ∧ "|".intercalate (listing category mask) = text := by
  rw [format_eq, ← named_eq_self]
  split_ifs with h <;> simp [h]

/-- **What is left over** is why a mask is not written: the bits that have no names. -/
theorem format_eq_error :
    format category mask = .error failure ↔
      ∃ unnamed, failure = .unnamedBits category unnamed ∧ unnamed ≠ 0 ∧
        ∀ i, unnamed.getLsbD i = true ↔
          mask.getLsbD i = true ∧ ¬∃ name, category.NamesBit name i := by
  have hformat : format category mask = .error failure ↔
      ¬AllNamed category mask ∧
        .unnamedBits category (mask &&& ~~~named category mask) = failure := by
    rw [format_eq, ← named_eq_self]
    split_ifs with h <;> simp [h]
  rw [hformat, ← unnamed_eq_zero]
  constructor
  · rintro ⟨hne, rfl⟩
    exact ⟨_, rfl, hne, fun i => getLsbD_unnamed⟩
  · rintro ⟨unnamed, rfl, hne, hbits⟩
    have heq : mask &&& ~~~named category mask = unnamed :=
      BitVec.eq_of_getLsbD_eq fun i _ =>
        Bool.eq_iff_iff.mpr (getLsbD_unnamed.trans (hbits i).symm)
    rw [heq]
    exact ⟨hne, rfl⟩

/-- The text of a mask lists each of its bits once, in the order of the table. -/
structure IsListing (category : MaskCategory) (mask : Word) (pieces : List String) : Prop where
  sublist : pieces.Sublist category.names
  nodup : pieces.Nodup
  listed : ∀ i, mask.getLsbD i = true → ∃! piece, piece ∈ pieces ∧ category.NamesBit piece i
  exists_bit : ∀ piece ∈ pieces, ∃ i, mask.getLsbD i = true ∧ category.NamesBit piece i

/-- **The names that a mask is written with** list its bits. -/
theorem isListing_listing (h : AllNamed category mask) (hne : mask ≠ 0) :
    IsListing category mask (listing category mask) := by
  rw [listing, if_neg hne]
  have hsublist : ((present category mask).map (·.name)).Sublist category.names :=
    List.filter_sublist.map _
  refine ⟨hsublist, category.nodup_names.sublist hsublist, fun i hi => ?_, fun piece hm => ?_⟩
  · obtain ⟨name, hname⟩ := h i hi
    refine ⟨name, ⟨mem_present_names.mpr ⟨i, hi, hname⟩, hname⟩, ?_⟩
    rintro other ⟨-, hother⟩
    exact MaskCategory.namesBit_unique hother hname
  · exact mem_present_names.mp hm

theorem mem_names_of_mem_listing (h : name ∈ listing category mask) : name ∈ category.names := by
  rw [listing] at h
  split_ifs at h
  · obtain rfl := List.mem_singleton.mp h
    exact MaskCategory.mem_names.mpr ⟨0, category.none_mem⟩
  · obtain ⟨i, -, hname⟩ := mem_present_names.mp h
    exact hname.mem_names

theorem listing_ne_nil (h : AllNamed category mask) : listing category mask ≠ [] := by
  rw [listing]
  split_ifs with hzero
  · exact List.cons_ne_nil _ _
  · rw [eq_zero_iff, not_forall] at hzero
    obtain ⟨i, hi⟩ := hzero
    obtain ⟨name, hname⟩ := h i (not_not.mp hi)
    exact List.ne_nil_of_mem (mem_present_names.mpr ⟨i, not_not.mp hi, hname⟩)

/-- What is listed are the pieces of the text. -/
theorem isPieces_listing (h : AllNamed category mask) :
    IsPieces (listing category mask) ("|".intercalate (listing category mask)) where
  ne_nil := listing_ne_nil h
  bar_not_mem _ hm := MaskCategory.bar_not_mem_of_mem_names (mem_names_of_mem_listing hm)
  intercalate_eq := rfl

theorem denotes_listing (h : AllNamed category mask) :
    Denotes category (listing category mask) mask := by
  intro i
  simp only [← MaskCategory.namesBit_iff]
  constructor
  · intro hi
    have hne : mask ≠ 0 := fun hzero => eq_zero_iff.mp hzero i hi
    obtain ⟨name, hname⟩ := h i hi
    rw [listing, if_neg hne]
    exact ⟨name, mem_present_names.mpr ⟨i, hi, hname⟩, hname⟩
  · rintro ⟨name, hm, hname⟩
    rw [listing] at hm
    split_ifs at hm
    · rw [List.mem_singleton.mp hm] at hname
      exact absurd hname MaskCategory.not_namesBit_none
    · obtain ⟨k, hk, hname'⟩ := mem_present_names.mp hm
      rwa [hname.eq hname']

/-! ## Reading what was written -/

/-- **What was written is read back.** -/
theorem parse_format (h : format category mask = .ok text) : parse category text = .ok mask := by
  obtain ⟨hnamed, rfl⟩ := format_eq_ok.mp h
  have hpieces := isPieces_iff.mp (isPieces_listing hnamed)
  rw [parse_eq_ok, ← hpieces]
  exact ⟨fun _ => mem_names_of_mem_listing, denotes_listing hnamed⟩

/-- All bits of a mask that was read have names. -/
theorem allNamed_of_parse (h : parse category expression = .ok mask) :
    AllNamed category mask := by
  intro i hi
  obtain ⟨piece, -, hname⟩ := ((parse_eq_ok.mp h).2 i).mp hi
  exact ⟨piece, MaskCategory.namesBit_iff.mpr hname⟩

/-- Every mask that was read is written. -/
theorem exists_format (h : parse category expression = .ok mask) :
    ∃ text, format category mask = .ok text :=
  ⟨_, format_eq_ok.mpr ⟨allNamed_of_parse h, rfl⟩⟩

theorem format_zero (category : MaskCategory) : format category 0 = .ok "None" := by
  rw [format, if_pos rfl, category.find?_zero]

/-- One text is not written for two masks. -/
theorem format_injective {mask' : Word} (h : format category mask = .ok text)
    (h' : format category mask' = .ok text) : mask = mask' :=
  Except.ok.inj ((parse_format h).symm.trans (parse_format h'))

/-- Only the mask without bits is written as the name for no bits. -/
theorem eq_none_iff (h : format category mask = .ok text) : text = "None" ↔ mask = 0 := by
  constructor
  · rintro rfl
    exact format_injective h (format_zero category)
  · rintro rfl
    exact Except.ok.inj (h.symm.trans (format_zero category))

/-- Masks that were read are the same if they are written as the same text. -/
theorem eq_iff_format {mask' : Word} (h : parse category expression = .ok mask) :
    mask = mask' ↔ ∃ text, format category mask = .ok text ∧ format category mask' = .ok text := by
  constructor
  · rintro rfl
    obtain ⟨text, htext⟩ := exists_format h
    exact ⟨text, htext, htext⟩
  · rintro ⟨text, htext, htext'⟩
    exact format_injective htext htext'

/-- **The texts that are written are the normal forms of masks.** A mask is written just if each of
its bits has a registered name; otherwise it is refused with the bits that have none. What is
written is read back as the mask. It is the name for no bits just for the mask without bits, and
lists the name of each bit once, in the order of the table, for any other mask. Every expression
that is a mask has such a normal form, which is read as the same mask, and two expressions are the
same mask just if they have the same normal form. -/
theorem format_normal (category : MaskCategory) :
    (∀ mask, (∃ text, format category mask = .ok text) ↔ AllNamed category mask) ∧
    (∀ mask failure, format category mask = .error failure ↔
      ∃ unnamed, failure = .unnamedBits category unnamed ∧ unnamed ≠ 0 ∧
        ∀ i, unnamed.getLsbD i = true ↔
          mask.getLsbD i = true ∧ ¬∃ name, category.NamesBit name i) ∧
    (∀ mask text, format category mask = .ok text →
      parse category text = .ok mask ∧ (text = "None" ↔ mask = 0) ∧
      (mask ≠ 0 → ∃ pieces, IsPieces pieces text ∧ IsListing category mask pieces)) ∧
    (∀ expression mask, parse category expression = .ok mask →
      ∃ text, format category mask = .ok text ∧ parse category text = .ok mask) ∧
    ∀ expression expression' mask mask', parse category expression = .ok mask →
      parse category expression' = .ok mask' →
      (mask = mask' ↔
        ∃ text, format category mask = .ok text ∧ format category mask' = .ok text) := by
  refine ⟨fun mask => ?_, fun mask failure => format_eq_error,
    fun mask text h => ⟨parse_format h, eq_none_iff h, fun hne => ?_⟩, fun expression mask h => ?_,
    fun expression expression' mask mask' h _ => eq_iff_format h⟩
  · simp only [format_eq_ok, exists_and_left, exists_eq', and_true]
  · obtain ⟨hnamed, rfl⟩ := format_eq_ok.mp h
    exact ⟨_, isPieces_listing hnamed, isListing_listing hnamed hne⟩
  · obtain ⟨text, htext⟩ := exists_format h
    exact ⟨text, htext, parse_format htext⟩

/-- Two ways to write the loop controls of the lowest and the third bit, and their normal form. The
fifth bit has no name. -/
theorem format_normal_unroll :
    format .loopControl 5 = .ok "Unroll|DependencyInfinite" ∧
      parse .loopControl "Unroll|DependencyInfinite" = .ok 5 ∧
      (∃ pieces, IsPieces pieces "Unroll|DependencyInfinite" ∧ IsListing .loopControl 5 pieces) ∧
      (∃ text, format .loopControl 5 = .ok text ∧ parse .loopControl text = .ok 5) ∧
      parse .loopControl "DependencyInfinite|None|Unroll" = .ok 5 ∧
      parse .loopControl "Unroll|Unroll|DependencyInfinite" = .ok 5 ∧
      (∃ text, format .loopControl 5 = .ok text ∧ format .loopControl 5 = .ok text) ∧
      ¬AllNamed .loopControl 17 := by
  obtain ⟨hnamed, -, hwritten, hread, hsame⟩ := format_normal .loopControl
  have htext : format .loopControl 5 = .ok "Unroll|DependencyInfinite" := by decide +kernel
  have hnone : parse .loopControl "DependencyInfinite|None|Unroll" = .ok 5 := by decide +kernel
  have htwice : parse .loopControl "Unroll|Unroll|DependencyInfinite" = .ok 5 := by decide +kernel
  have hfifth : format .loopControl 17 = .error (.unnamedBits .loopControl 16) := by decide +kernel
  obtain ⟨hparse, -, hlists⟩ := hwritten 5 _ htext
  refine ⟨htext, hparse, hlists (by decide), hread _ 5 hnone, hnone, htwice,
    (hsame _ _ 5 5 hnone htwice).mp rfl, fun hall => ?_⟩
  obtain ⟨text, hok⟩ := (hnamed 17).mpr hall
  rw [hfifth] at hok
  cases hok

end Mask

end LiteralCodec
