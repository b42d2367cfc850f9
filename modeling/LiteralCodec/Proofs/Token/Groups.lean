import LiteralCodec.Proofs.Token.Lines
import Mathlib.Data.List.Forall2

/-!
# Tokens in groups

Tokens are taken from a source in two ways: all of them one behind the other, or in groups, each
with the tokens of one line. For the groups every line is collected for itself, and a line without
tokens is left out; otherwise the lines run into each other and are collected once. A failure ends
both, and it is the first one of the source either way. So the groups are the tokens, cut where the
line changes.

Results:
* `collect_filter_isGroup`: which lines are left out.
* `tokenizeLines_eq_scanLines`: the groups are the lines that hold tokens.
* `scanLines_holdsLine`: the line of each group.
* `tokenizeLines_groups`: the groups of a source, and its tokens.
-/

namespace LiteralCodec.Token

variable {line : ℕ} {lines groups : List (List Token)} {source : String}

/-- A token stands in a line. -/
def InLine (n : ℕ) (token : Token) : Prop := ∃ column, token.loc = some ⟨n, column⟩

theorem InLine.unique {n m : ℕ} {token : Token} (hn : InLine n token) (hm : InLine m token) :
    n = m := by
  obtain ⟨column, hn⟩ := hn
  obtain ⟨column', hm⟩ := hm
  rw [hn, Option.some.injEq, Location.mk.injEq] at hm
  exact hm.1

/-- A group holds tokens of one line. -/
structure HoldsLine (n : ℕ) (group : List Token) : Prop where
  ne_nil : group ≠ []
  inLine : ∀ token ∈ group, InLine n token

/-! ## Lines without tokens -/

/-- **Lines without tokens are left out**, and a line that fails is not. -/
theorem collect_filter_isGroup (results : List (Except (Located Error) (List Token))) :
    collect (results.filter isGroup) =
      (collect results).map (List.filter fun tokens => !tokens.isEmpty) := by
  induction results with
  | nil => rfl
  | cons result results ih =>
    rw [collect_cons]
    cases result with
    | error e =>
      rw [List.filter_cons_of_pos rfl, collect_cons]
      rfl
    | ok tokens =>
      cases tokens with
      | nil =>
        rw [List.filter_cons_of_neg Bool.false_ne_true, ih]
        cases collect results <;> rfl
      | cons token tokens =>
        rw [List.filter_cons_of_pos rfl, collect_cons, ih]
        cases collect results <;> rfl

theorem collect_map_collect (line : ℕ) (texts : List (List Char)) :
    collect ((itemsFrom line texts).map collect) = scanLines line texts := by
  induction texts generalizing line with
  | nil => rfl
  | cons text texts ih =>
    rw [itemsFrom_cons, List.map_cons, collect_cons, ih]
    rfl

/-- **The groups of a source** are its lines, but for those without tokens. -/
theorem tokenizeLines_eq_scanLines (source : String) :
    tokenizeLines source =
      (scanLines 1 (sourceLines source)).map (List.filter fun tokens => !tokens.isEmpty) := by
  rw [tokenizeLines, collect_filter_isGroup, sourceItems_eq, collect_map_collect]

/-- No token is lost with the lines that are left out. -/
theorem tokenize_eq_flatten (source : String) :
    tokenize source = (tokenizeLines source).map List.flatten := by
  rw [tokenize_eq_scanLines, tokenizeLines_eq_scanLines]
  cases scanLines 1 (sourceLines source) with
  | error e => rfl
  | ok lines => exact congrArg Except.ok List.flatten_filter_not_isEmpty.symm

/-! ## The line of a group -/

/-- **Groups hold one line each**, and the lines go up from group to group. -/
theorem scanLines_holdsLine {texts : List (List Char)} (h : scanLines line texts = .ok lines) :
    ∃ numbers : List ℕ, (∀ n ∈ numbers, line ≤ n) ∧ numbers.Pairwise (· < ·) ∧
      List.Forall₂ HoldsLine numbers (lines.filter fun tokens => !tokens.isEmpty) := by
  induction texts generalizing line lines with
  | nil =>
    cases h
    exact ⟨[], by simp, .nil, .nil⟩
  | cons text texts ih =>
    obtain ⟨tokens, hscan, h⟩ := bind_eq_ok.mp h
    obtain ⟨more, hmore, h⟩ := bind_eq_ok.mp h
    cases h
    obtain ⟨numbers, hge, hsorted, hholds⟩ := ih hmore
    cases tokens with
    | nil => exact ⟨numbers, fun n hn => Nat.le_of_succ_le (hge n hn), hsorted, hholds⟩
    | cons token tokens =>
      obtain ⟨column, rest, hscans, -⟩ := scanLine_eq_ok.mp hscan
      have hline : HoldsLine line (token :: tokens) := by
        refine ⟨List.cons_ne_nil _ _, fun token hm => ?_⟩
        obtain ⟨first, hloc, -⟩ := hscans.bounds.2 token hm
        exact ⟨first, hloc⟩
      refine ⟨line :: numbers, ?_, List.pairwise_cons.mpr ⟨hge, hsorted⟩, .cons hline hholds⟩
      exact List.forall_mem_cons.mpr ⟨le_rfl, fun n hn => Nat.le_of_succ_le (hge n hn)⟩

theorem exists_holdsLine {numbers : List ℕ} (h : List.Forall₂ HoldsLine numbers groups) {i : ℕ}
    {group : List Token} (hi : groups[i]? = some group) :
    ∃ n, numbers[i]? = some n ∧ HoldsLine n group := by
  obtain ⟨hlength, hget⟩ := List.forall₂_iff_get.mp h
  obtain ⟨hlt, rfl⟩ := List.getElem?_eq_some_iff.mp hi
  have hlt' : i < numbers.length := hlength ▸ hlt
  exact ⟨numbers[i], List.getElem?_eq_getElem hlt', hget i hlt' hlt⟩

/-- Two tokens are in one group if they stand in one line. -/
theorem inLine_iff {numbers : List ℕ} (hsorted : numbers.Pairwise (· < ·))
    (hholds : List.Forall₂ HoldsLine numbers groups) {i j : ℕ} {first second : List Token}
    (hi : groups[i]? = some first) (hj : groups[j]? = some second) {a b : Token} (ha : a ∈ first)
    (hb : b ∈ second) : (∃ n, InLine n a ∧ InLine n b) ↔ i = j := by
  obtain ⟨n, hn, hfirst⟩ := exists_holdsLine hholds hi
  obtain ⟨m, hm, hsecond⟩ := exists_holdsLine hholds hj
  constructor
  · rintro ⟨k, hka, hkb⟩
    obtain rfl := hka.unique (hfirst.inLine a ha)
    obtain rfl := hkb.unique (hsecond.inLine b hb)
    obtain ⟨hlt, -⟩ := List.getElem?_eq_some_iff.mp hn
    exact (List.getElem?_inj hlt (hsorted.imp Nat.ne_of_lt)).mp (hn.trans hm.symm)
  · rintro rfl
    obtain rfl := Option.some.inj (hi.symm.trans hj)
    exact ⟨n, hfirst.inLine a ha, hfirst.inLine b hb⟩

/-- **The groups of a source are its tokens, line by line.** The groups one behind the other are
the tokens of the source, and where there are none the failure is the same. No group is empty, the
tokens of a group stand in one line, and the lines go up from group to group; so two tokens are in
one group just if they stand in one line. -/
theorem tokenizeLines_groups (source : String) :
    tokenize source = (tokenizeLines source).map List.flatten ∧
    ∀ groups, tokenizeLines source = .ok groups →
      (∃ numbers : List ℕ, numbers.Pairwise (· < ·) ∧ List.Forall₂ HoldsLine numbers groups) ∧
      ∀ (i j : ℕ) first second, groups[i]? = some first → groups[j]? = some second →
        ∀ a ∈ first, ∀ b ∈ second, ((∃ n, InLine n a ∧ InLine n b) ↔ i = j) := by
  refine ⟨tokenize_eq_flatten source, fun groups h => ?_⟩
  rw [tokenizeLines_eq_scanLines, map_eq_ok] at h
  obtain ⟨lines, hlines, rfl⟩ := h
  obtain ⟨numbers, -, hsorted, hholds⟩ := scanLines_holdsLine hlines
  exact ⟨⟨numbers, hsorted, hholds⟩,
    fun i j first second hi hj a ha b hb => inLine_iff hsorted hholds hi hj ha hb⟩

/-- Two groups, with a comment and a blank line between them. -/
theorem tokenizeLines_groups_comment :
    tokenizeLines "a b\n;c\n\n\"d\"" =
      .ok [[⟨some ⟨1, 1⟩, "a"⟩, ⟨some ⟨1, 3⟩, "b"⟩], [⟨some ⟨4, 1⟩, "\"d\""⟩]] ∧
    tokenize "a b\n;c\n\n\"d\"" =
      .ok [⟨some ⟨1, 1⟩, "a"⟩, ⟨some ⟨1, 3⟩, "b"⟩, ⟨some ⟨4, 1⟩, "\"d\""⟩] ∧
    ¬∃ n, InLine n ⟨some ⟨1, 3⟩, "b"⟩ ∧ InLine n ⟨some ⟨4, 1⟩, "\"d\""⟩ := by
  have hgroups : tokenizeLines "a b\n;c\n\n\"d\"" =
      .ok [[⟨some ⟨1, 1⟩, "a"⟩, ⟨some ⟨1, 3⟩, "b"⟩], [⟨some ⟨4, 1⟩, "\"d\""⟩]] := by decide +kernel
  obtain ⟨htokens, h⟩ := tokenizeLines_groups "a b\n;c\n\n\"d\""
  obtain ⟨-, hshare⟩ := h _ hgroups
  have happart := hshare 0 1 _ _ rfl rfl ⟨some ⟨1, 3⟩, "b"⟩ (by simp) ⟨some ⟨4, 1⟩, "\"d\""⟩
    (by simp)
  refine ⟨hgroups, ?_, fun hline => absurd (happart.mp hline) (by decide)⟩
  rw [htokens, hgroups]
  rfl

end LiteralCodec.Token
