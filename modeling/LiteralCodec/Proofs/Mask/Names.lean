import LiteralCodec.Mask
import LiteralCodec.Proofs.Outcome
import LiteralCodec.Proofs.Pieces
import Mathlib.Data.List.Nodup

/-!
# Masks as sets of names

A mask is the set of its names. What a text stands for depends on which names stand between its
bars, and not on how often or where: a bit is in the mask if one of the names stands for it. Two
texts with a bar between them stand for the names of both. A text is refused for its first piece
that is not a name. No category has the empty name, so a bar at an end of the text or beside
another one is always refused.

Results:
* `Enumerant.lookup?_eq_some`: what a name of a table stands for.
* `Mask.getLsbD_union`: the bits of a union.
* `Mask.isPieces_iff`: the pieces of an expression.
* `Mask.parse_eq_ok`, `Mask.parse_eq_error`: when an expression is a mask, and why it is not.
* `Mask.Denotes`: the mask that some names stand for.
* `Mask.parse_pieces`: masks are read as sets of names.
-/

namespace LiteralCodec

/-! ## Tables of names -/

/-- In a table without repetitions a name stands for the value beside it. -/
theorem Enumerant.lookup?_eq_some {table : List Enumerant} (h : (table.map (·.name)).Nodup)
    {name : String} {value : Word} : lookup? table name = some value ↔ ⟨name, value⟩ ∈ table := by
  rw [lookup?, Option.map_eq_some_iff]
  constructor
  · rintro ⟨e, he, rfl⟩
    obtain rfl : e.name = name := by simpa using List.find?_some he
    exact List.mem_of_find?_eq_some he
  · intro hm
    have hsome : (table.find? (·.name == name)).isSome :=
      List.find?_isSome.mpr ⟨_, hm, beq_self_eq_true name⟩
    obtain ⟨e, he⟩ := Option.isSome_iff_exists.mp hsome
    have hname : e.name = name := by simpa using List.find?_some he
    have heq := List.inj_on_of_nodup_map h (List.mem_of_find?_eq_some he) hm hname
    exact ⟨e, he, congrArg Enumerant.value heq⟩

namespace MaskCategory

variable {category : MaskCategory} {name : String} {value value' : Word}

/-- The registered names of a category. -/
def names (category : MaskCategory) : List String := category.enumerants.map (·.name)

theorem nodup_names (category : MaskCategory) : category.names.Nodup := by
  cases category <;> decide

theorem empty_not_mem_names (category : MaskCategory) : "" ∉ category.names := by
  cases category <;> decide

/-- Every category has a name for no bits. -/
theorem none_mem (category : MaskCategory) : ⟨"None", 0⟩ ∈ category.enumerants := by
  cases category <;> exact List.mem_cons_self

theorem mem_names : name ∈ category.names ↔ ∃ value, ⟨name, value⟩ ∈ category.enumerants := by
  rw [names, List.mem_map]
  constructor
  · rintro ⟨e, he, rfl⟩
    exact ⟨e.value, he⟩
  · rintro ⟨value, hm⟩
    exact ⟨_, hm, rfl⟩

/-- A name stands for one value only. -/
theorem value_eq (h : ⟨name, value⟩ ∈ category.enumerants)
    (h' : ⟨name, value'⟩ ∈ category.enumerants) : value = value' :=
  congrArg Enumerant.value (List.inj_on_of_nodup_map category.nodup_names h h' rfl)

theorem lookup?_eq_some :
    category.lookup? name = some value ↔ ⟨name, value⟩ ∈ category.enumerants :=
  Enumerant.lookup?_eq_some category.nodup_names

theorem lookup?_eq_none : category.lookup? name = none ↔ name ∉ category.names := by
  rw [mem_names, ← not_iff_not, not_not, ← ne_eq, Option.ne_none_iff_exists']
  exact exists_congr fun _ => lookup?_eq_some

end MaskCategory

namespace Mask

variable {category : MaskCategory} {expression expression' name : String} {mask mask' : Word}
  {failure : MaskError}

/-! ## Unions of bits -/

theorem getLsbD_foldl_or (bits : List Word) (acc : Word) (i : ℕ) :
    (bits.foldl (· ||| ·) acc).getLsbD i = (acc.getLsbD i || bits.any (·.getLsbD i)) := by
  induction bits generalizing acc with
  | nil => simp
  | cons b bits ih => rw [List.foldl_cons, ih, BitVec.getLsbD_or, List.any_cons, Bool.or_assoc]

/-- A bit is in a union if it is in one of its parts. -/
theorem getLsbD_union (bits : List Word) (i : ℕ) :
    (union bits).getLsbD i = bits.any (·.getLsbD i) := by
  simp [union, getLsbD_foldl_or]

/-! ## Pieces of an expression -/

/-- The pieces of an expression lie between its bars. -/
structure IsPieces (pieces : List String) (expression : String) : Prop where
  ne_nil : pieces ≠ []
  bar_not_mem : ∀ piece ∈ pieces, '|' ∉ piece.toList
  intercalate_eq : "|".intercalate pieces = expression

/-- **The names of an expression** are its pieces. -/
theorem isPieces_iff {pieces : List String} :
    IsPieces pieces expression ↔ pieces = names expression := by
  have hlist : pieces = names expression ↔
      expression.toList.splitOn '|' = pieces.map String.toList := by
    constructor
    · rintro rfl
      simp [names, List.map_map, Function.comp_def]
    · intro h
      simp [names, h, List.map_map, Function.comp_def]
  have hbar : "|".toList = ['|'] := rfl
  rw [hlist, splitOn_eq_iff, List.forall_mem_map, ← hbar, ← String.toList_intercalate,
    String.toList_inj, Ne, List.map_eq_nil_iff]
  exact ⟨fun h => ⟨h.ne_nil, h.bar_not_mem, h.intercalate_eq⟩, fun ⟨h₁, h₂, h₃⟩ => ⟨h₁, h₂, h₃⟩⟩

/-- The pieces of two expressions with a bar between them are those of both. -/
theorem names_append (expression expression' : String) :
    names (expression ++ "|" ++ expression') = names expression ++ names expression' := by
  have hbar : "|".toList ++ expression'.toList = '|' :: expression'.toList := rfl
  rw [names, String.toList_append, String.toList_append, List.append_assoc, hbar,
    List.splitOn_append_cons_self, List.map_append]
  rfl

/-! ## Reading the pieces -/

theorem parseName_eq_ok {value : Word} :
    parseName category expression name = .ok value ↔ ⟨name, value⟩ ∈ category.enumerants := by
  rw [← MaskCategory.lookup?_eq_some, parseName]
  split_ifs with h
  · obtain rfl := String.isEmpty_iff.mp h
    have hnone := MaskCategory.lookup?_eq_none.mpr category.empty_not_mem_names
    simp [hnone]
  · cases category.lookup? name <;> simp

/-- Why a piece is refused. -/
def refusal (category : MaskCategory) (expression piece : String) : MaskError :=
  if piece = "" then .emptyComponent category expression else .unknownName category piece

/-- A piece that is not a name is refused. -/
theorem parseName_eq_error :
    parseName category expression name = .error failure ↔
      name ∉ category.names ∧ refusal category expression name = failure := by
  rw [← MaskCategory.lookup?_eq_none, parseName, refusal]
  by_cases h : name = ""
  · subst h
    have hnone := MaskCategory.lookup?_eq_none.mpr category.empty_not_mem_names
    simp [hnone]
  · cases category.lookup? name <;> simp [h]

/-- An expression is a mask if all of its pieces are names. -/
theorem parse_eq_ok_values :
    parse category expression = .ok mask ↔ ∃ values,
      List.Forall₂ (fun piece value => ⟨piece, value⟩ ∈ category.enumerants) (names expression)
        values ∧ mask = union values := by
  by_cases h : expression = ""
  · -- the empty expression has an empty piece
    subst h
    have hnames : names "" = [""] := rfl
    simp only [parse_empty, hnames, List.forall₂_cons_left_iff, reduceCtorEq, false_iff]
    rintro ⟨_, ⟨value, _, hm, -, -⟩, -⟩
    exact category.empty_not_mem_names (MaskCategory.mem_names.mpr ⟨value, hm⟩)
  · rw [parse, if_neg (String.isEmpty_iff.not.mpr h)]
    simp only [bind_eq_ok, mapM_eq_ok, parseName_eq_ok, pure, Except.pure, Except.ok.injEq,
      eq_comm (b := mask)]

theorem forall_mem_take {α : Type} {p : α → Prop} {l : List α} {k : ℕ} :
    (∀ a ∈ l.take k, p a) ↔ ∀ j < k, ∀ a, l[j]? = some a → p a := by
  simp only [List.mem_iff_getElem?, List.getElem?_take]
  constructor
  · intro h j hj a ha
    exact h a ⟨j, by rw [if_pos hj, ha]⟩
  · rintro h a ⟨j, ha⟩
    split_ifs at ha with hj
    exact h j hj a ha

/-- **The first piece that is not a name** is why an expression is refused. -/
theorem parse_eq_error (h : expression ≠ "") :
    parse category expression = .error failure ↔
      ∃ (k : ℕ) (piece : String), (names expression)[k]? = some piece ∧ piece ∉ category.names ∧
        (∀ earlier ∈ (names expression).take k, earlier ∈ category.names) ∧
        refusal category expression piece = failure := by
  rw [parse, if_neg (String.isEmpty_iff.not.mpr h)]
  have hpure (values : List Word) :
      (return union values : Except MaskError Word) ≠ .error failure :=
    nofun
  simp only [bind_eq_error, hpure, and_false, exists_false, or_false, mapM_eq_error,
    parseName_eq_error, parseName_eq_ok, ← MaskCategory.mem_names, ← forall_mem_take]
  exact exists_congr fun k => exists_congr fun piece => by tauto

/-! ## Sets of names -/

/-- The mask that some names stand for has the bits of every one of them. -/
def Denotes (category : MaskCategory) (pieces : List String) (mask : Word) : Prop :=
  ∀ i, mask.getLsbD i = true ↔
    ∃ piece ∈ pieces, ∃ value, ⟨piece, value⟩ ∈ category.enumerants ∧ value.getLsbD i = true

variable {pieces pieces' : List String}

theorem Denotes.unique (h : Denotes category pieces mask) (h' : Denotes category pieces mask') :
    mask = mask' :=
  BitVec.eq_of_getLsbD_eq fun i _ => Bool.eq_iff_iff.mpr ((h i).trans (h' i).symm)

/-- A list of names stands for the union of their values. -/
theorem denotes_union {values : List Word}
    (h : List.Forall₂ (fun piece value => ⟨piece, value⟩ ∈ category.enumerants) pieces values) :
    Denotes category pieces (union values) := by
  intro i
  rw [getLsbD_union]
  induction h with
  | nil => simp
  | @cons piece value pieces values hm _ ih =>
    rw [List.any_cons, Bool.or_eq_true, ih, List.exists_mem_cons_iff]
    refine or_congr_left ⟨fun hi => ⟨value, hm, hi⟩, ?_⟩
    rintro ⟨value', hm', hi⟩
    rwa [MaskCategory.value_eq hm hm']

theorem mem_names_of_forall₂ {values : List Word}
    (h : List.Forall₂ (fun piece value => ⟨piece, value⟩ ∈ category.enumerants) pieces values) :
    ∀ piece ∈ pieces, piece ∈ category.names := by
  induction h with
  | nil => exact List.forall_mem_nil _
  | cons hm _ ih => exact List.forall_mem_cons.mpr ⟨MaskCategory.mem_names.mpr ⟨_, hm⟩, ih⟩

theorem Denotes.append (h : Denotes category pieces mask) (h' : Denotes category pieces' mask') :
    Denotes category (pieces ++ pieces') (mask ||| mask') := by
  intro i
  rw [BitVec.getLsbD_or, Bool.or_eq_true, h i, h' i]
  simp only [List.mem_append, or_and_right, exists_or]

/-- What a list of names stands for does not depend on their order, on repetitions, or on the name
for no bits. -/
theorem denotes_congr (h : ∀ piece, piece ≠ "None" → (piece ∈ pieces ↔ piece ∈ pieces')) :
    Denotes category pieces mask ↔ Denotes category pieces' mask := by
  refine forall_congr' fun i => iff_congr Iff.rfl (exists_congr fun piece => ?_)
  by_cases hnone : piece = "None"
  · subst hnone
    have hzero : ¬∃ value, ⟨"None", value⟩ ∈ category.enumerants ∧ value.getLsbD i = true := by
      rintro ⟨value, hm, hi⟩
      rw [MaskCategory.value_eq hm category.none_mem] at hi
      simp at hi
    simp only [hzero, and_false]
  · rw [h piece hnone]

/-! ## Reading sets of names -/

/-- An expression is a mask if nothing in it is refused. -/
theorem exists_parse (h : ∀ piece ∈ names expression, piece ∈ category.names) :
    ∃ mask, parse category expression = .ok mask := by
  have hne : expression ≠ "" := by
    rintro rfl
    exact category.empty_not_mem_names (h "" List.mem_cons_self)
  cases hparse : parse category expression with
  | ok mask => exact ⟨mask, rfl⟩
  | error failure =>
    obtain ⟨k, piece, hpiece, hnot, -⟩ := (parse_eq_error hne).mp hparse
    exact absurd (h piece (List.mem_of_getElem? hpiece)) hnot

/-- **When an expression is a mask**, and which one. -/
theorem parse_eq_ok :
    parse category expression = .ok mask ↔
      (∀ piece ∈ names expression, piece ∈ category.names) ∧
        Denotes category (names expression) mask := by
  have hok {mask : Word} (h : parse category expression = .ok mask) :
      (∀ piece ∈ names expression, piece ∈ category.names) ∧
        Denotes category (names expression) mask := by
    obtain ⟨values, hvalues, rfl⟩ := parse_eq_ok_values.mp h
    exact ⟨mem_names_of_forall₂ hvalues, denotes_union hvalues⟩
  refine ⟨hok, fun ⟨hnames, hdenotes⟩ => ?_⟩
  obtain ⟨mask', hparse⟩ := exists_parse hnames
  rw [hparse, hdenotes.unique (hok hparse).2]

/-- Only which names there are matters, and the name for no bits does not. -/
theorem parse_congr (h : ∀ piece, piece ≠ "None" →
      (piece ∈ names expression ↔ piece ∈ names expression')) :
    parse category expression = .ok mask ↔ parse category expression' = .ok mask := by
  rw [parse_eq_ok, parse_eq_ok, denotes_congr h]
  refine and_congr_left fun _ => forall_congr' fun piece => ?_
  by_cases hnone : piece = "None"
  · subst hnone
    have hm : "None" ∈ category.names := MaskCategory.mem_names.mpr ⟨0, category.none_mem⟩
    exact iff_of_true (fun _ => hm) fun _ => hm
  · rw [h piece hnone]

/-- Two expressions with a bar between them are a mask if both are, and stand for the names of
both. -/
theorem parse_append :
    parse category (expression ++ "|" ++ expression') = .ok mask ↔
      ∃ first second, parse category expression = .ok first ∧
        parse category expression' = .ok second ∧ mask = first ||| second := by
  constructor
  · intro h
    obtain ⟨hnames, hdenotes⟩ := parse_eq_ok.mp h
    rw [names_append] at hnames hdenotes
    obtain ⟨hleft, hright⟩ := List.forall_mem_append.mp hnames
    obtain ⟨first, hfirst⟩ := exists_parse hleft
    obtain ⟨second, hsecond⟩ := exists_parse hright
    have hunion := (parse_eq_ok.mp hfirst).2.append (parse_eq_ok.mp hsecond).2
    exact ⟨first, second, hfirst, hsecond, hdenotes.unique hunion⟩
  · rintro ⟨first, second, hfirst, hsecond, rfl⟩
    obtain ⟨hleft, hfirst⟩ := parse_eq_ok.mp hfirst
    obtain ⟨hright, hsecond⟩ := parse_eq_ok.mp hsecond
    rw [parse_eq_ok, names_append]
    exact ⟨List.forall_mem_append.mpr ⟨hleft, hright⟩, hfirst.append hsecond⟩

/-- **Masks are read as sets of names.** Every expression has one list of pieces between its bars.
The empty expression is refused as such. Another one is refused for its first piece that is not a
name of the category: with the whole expression if the piece is empty, and else with the piece.
Without such a piece it is the union of what the pieces stand for. So two expressions whose pieces
are the same names but for their order, their repetitions and the name for no bits are the same
masks or none, and two expressions with a bar between them are a mask if both of them are one,
and then their union. -/
theorem parse_pieces (category : MaskCategory) :
    (∀ expression, ∃! pieces, IsPieces pieces expression) ∧
    parse category "" = .error (.emptyExpression category) ∧
    (∀ expression pieces, expression ≠ "" → IsPieces pieces expression →
      (∀ failure, parse category expression = .error failure ↔
        ∃ (k : ℕ) (piece : String), pieces[k]? = some piece ∧ piece ∉ category.names ∧
          (∀ earlier ∈ pieces.take k, earlier ∈ category.names) ∧
          (if piece = "" then .emptyComponent category expression
            else .unknownName category piece) = failure) ∧
      ∀ mask, parse category expression = .ok mask ↔ ∃ values,
        List.Forall₂ (fun piece value => ⟨piece, value⟩ ∈ category.enumerants) pieces values ∧
          mask = values.foldl (· ||| ·) 0) ∧
    (∀ expression expression' pieces pieces',
      IsPieces pieces expression → IsPieces pieces' expression' →
      (∀ piece, piece ≠ "None" → (piece ∈ pieces ↔ piece ∈ pieces')) →
      ∀ mask, parse category expression = .ok mask ↔ parse category expression' = .ok mask) ∧
    ∀ expression expression' mask,
      parse category (expression ++ "|" ++ expression') = .ok mask ↔
        ∃ first second, parse category expression = .ok first ∧
          parse category expression' = .ok second ∧ mask = first ||| second := by
  refine ⟨fun expression => ?_, parse_empty category, ?_, ?_, fun _ _ _ => parse_append⟩
  · exact ⟨names expression, isPieces_iff.mpr rfl, fun pieces h => isPieces_iff.mp h⟩
  · intro expression pieces hne hpieces
    obtain rfl := isPieces_iff.mp hpieces
    exact ⟨fun failure => parse_eq_error hne, fun mask => parse_eq_ok_values⟩
  · intro expression expression' pieces pieces' hpieces hpieces' h mask
    obtain rfl := isPieces_iff.mp hpieces
    obtain rfl := isPieces_iff.mp hpieces'
    exact parse_congr h

/-- `Lod`, `Bias` and `Lod` again are the image operands of the lowest two bits, as `Bias`, `None`
and `Lod` are. An empty piece is found before the unknown name behind it. -/
theorem parse_pieces_operands :
    parse .imageOperands "Lod|Bias|Lod" = .ok 3 ∧
      parse .imageOperands "Bias|None|Lod" = .ok 3 ∧
      parse .imageOperands "Bias||Simple" =
        .error (.emptyComponent .imageOperands "Bias||Simple") := by
  obtain ⟨-, -, hread, hcongr, -⟩ := parse_pieces .imageOperands
  have htwice : IsPieces ["Lod", "Bias", "Lod"] "Lod|Bias|Lod" :=
    ⟨by decide, by decide +kernel, by decide +kernel⟩
  have hnone : IsPieces ["Bias", "None", "Lod"] "Bias|None|Lod" :=
    ⟨by decide, by decide +kernel, by decide +kernel⟩
  have hempty : IsPieces ["Bias", "", "Simple"] "Bias||Simple" :=
    ⟨by decide, by decide +kernel, by decide +kernel⟩
  have hmask : parse .imageOperands "Lod|Bias|Lod" = .ok 3 :=
    ((hread _ _ (by decide) htwice).2 3).mpr ⟨[2, 1, 2], by
      simp only [List.forall₂_cons, List.Forall₂.nil, and_true]
      decide +kernel, by decide⟩
  refine ⟨hmask, (hcongr _ _ _ _ htwice hnone (fun piece hne => ?_) 3).mp hmask, ?_⟩
  · simp only [List.mem_cons, List.not_mem_nil, hne]
    tauto
  · exact ((hread _ _ (by decide) hempty).1 _).mpr
      ⟨1, "", rfl, by decide +kernel, by decide +kernel, rfl⟩

end Mask

end LiteralCodec
