import PackageRename.Proofs.Text.Bytes
import PackageRename.Proofs.Tree.Entering
import PackageRename.Relocation

/-!
# Identifiers as directories

The dots of a name split it into segments.  Its directory lies at the segments
below a base, and one package is nested in another when its segments go on where
the other's end.
-/

namespace PackageRename

namespace Identifier

/-- What stands between the dots of the name. -/
def segments (identifier : Identifier) : List Name :=
  (Utf8.encode identifier.name).splitOn dot

/-- Every segment can name an entry of a directory. -/
def HasLegalSegments (identifier : Identifier) : Prop :=
  ∀ segment ∈ identifier.segments, segment.IsLegal

instance (identifier : Identifier) : Decidable identifier.HasLegalSegments :=
  inferInstanceAs (Decidable (∀ _ ∈ _, _))

/-- Every segment can stand between two slashes of a path. -/
def HasPlainSegments (identifier : Identifier) : Prop :=
  Path.ArePlain identifier.segments

instance (identifier : Identifier) : Decidable identifier.HasPlainSegments :=
  inferInstanceAs (Decidable (Path.ArePlain _))

variable {identifier outer inner : Identifier}

theorem HasLegalSegments.plain (legal : identifier.HasLegalSegments) :
    identifier.HasPlainSegments :=
  fun segment member => (legal segment member).plain

theorem segments_ne_nil (identifier : Identifier) : identifier.segments ≠ [] :=
  List.splitOn_ne_nil _ _

theorem segments_eq_concat (identifier : Identifier) :
    ∃ front last, identifier.segments = front ++ [last] := by
  obtain ⟨front, last, isSegments⟩ :=
    (List.eq_nil_or_concat identifier.segments).resolve_left
      identifier.segments_ne_nil
  exact ⟨front, last, isSegments.trans List.concat_eq_append⟩

theorem dot_not_mem_segment {segment : Name}
    (member : segment ∈ identifier.segments) : dot ∉ segment :=
  separator_not_mem_of_mem_splitOn member

theorem encode_name (identifier : Identifier) :
    Utf8.encode identifier.name = [dot].intercalate identifier.segments :=
  (List.intercalate_splitOn dot).symm

theorem intercalate_prefix {front whole : List Name} (separator : Name)
    (isPrefix : front <+: whole) :
    separator.intercalate front <+: separator.intercalate whole := by
  obtain ⟨rest, rfl⟩ := isPrefix
  induction front with
  | nil => exact List.nil_prefix
  | cons first others induction =>
      cases others with
      | nil =>
          cases rest with
          | nil => exact List.prefix_refl _
          | cons next more =>
              simp [List.intercalate_cons_cons]
      | cons second others =>
          rw [List.cons_append, List.cons_append, List.intercalate_cons_cons,
            List.intercalate_cons_cons]
          exact (List.prefix_append_right_inj _).mpr induction

/-- The name of a package starts with that of a package around it. -/
theorem name_prefix (around : outer.segments <+: inner.segments) :
    Utf8.encode outer.name <+: Utf8.encode inner.name := by
  rw [encode_name, encode_name]
  exact intercalate_prefix _ around

theorem eq_of_segments (same : outer.segments = inner.segments) :
    outer = inner := by
  have names : outer.name = inner.name := by
    apply Utf8.encode_injective
    rw [encode_name, encode_name, same]
  cases outer
  cases inner
  exact congrArg Identifier.mk names

/-! ### The path form -/

/-- A dot becomes a slash. -/
def slashed (byte : UInt8) : UInt8 :=
  if byte = dot then slash else byte

theorem encode_path (identifier : Identifier) :
    Utf8.encode identifier.path = (Utf8.encode identifier.name).map slashed := by
  rw [Utf8.encode_eq_flatMap, Utf8.encode_eq_flatMap, path, String.toList_map,
    List.flatMap_map, List.map_flatMap]
  congr 1
  funext character
  split
  · rename_i isDot
    subst isDot
    decide
  · rename_i notDot
    symm
    apply (List.map_congr_left _).trans (List.map_id _)
    intro byte member
    rw [slashed, if_neg, id]
    rintro rfl
    exact notDot (Utf8.eq_of_mem_encodeChar '.' (by decide) member)

/-- No dot is left in the path form. -/
theorem dot_not_mem_path (identifier : Identifier) :
    dot ∉ (Path.ofString identifier.path).bytes := by
  rw [Path.ofString, encode_path, List.mem_map]
  rintro ⟨byte, -, isDot⟩
  rw [slashed] at isDot
  split at isDot
  · exact absurd isDot (by decide)
  · contradiction

theorem map_slashed_intercalate {names : List Name}
    (dotless : ∀ name ∈ names, dot ∉ name) :
    ([dot].intercalate names).map slashed = [slash].intercalate names := by
  have kept : ∀ name ∈ names, name.map slashed = name := by
    intro name member
    apply (List.map_congr_left _).trans (List.map_id _)
    intro byte inName
    rw [slashed, if_neg, id]
    intro isDot
    exact dotless name member (isDot ▸ inName)
  induction names with
  | nil => rfl
  | cons name rest induction =>
      have further := induction
        (fun other member => dotless other (List.mem_cons_of_mem _ member))
        (fun other member => kept other (List.mem_cons_of_mem _ member))
      cases rest with
      | nil => simpa using kept name List.mem_cons_self
      | cons next more =>
          rw [List.intercalate_cons_cons, List.intercalate_cons_cons,
            List.map_append, List.map_append, further,
            kept name List.mem_cons_self]
          rfl

theorem ofString_path (identifier : Identifier) :
    Path.ofString identifier.path = Path.ofPieces identifier.segments := by
  apply Path.ext_bytes
  rw [Path.ofString, Path.ofPieces, encode_path, encode_name,
    map_slashed_intercalate fun _ => dot_not_mem_segment]

/-- The directory of a package lies at its segments. -/
theorem directoryIn_eq_below (plain : identifier.HasPlainSegments)
    (base : Path) :
    identifier.directoryIn base = base.below identifier.segments := by
  rw [directoryIn, ofString_path]
  obtain ⟨first, rest, isSegments⟩ :=
    List.exists_cons_of_ne_nil identifier.segments_ne_nil
  rw [HasPlainSegments, isSegments] at plain
  rw [isSegments, Path.join_ofPieces plain]

/-! ### Nested packages -/

theorem pieces_path (plain : identifier.HasPlainSegments) :
    (Utf8.encode identifier.path).splitOn slash = identifier.segments := by
  have bytes := congrArg Path.bytes identifier.ofString_path
  rw [Path.ofString, Path.ofPieces] at bytes
  simp only at bytes
  rw [bytes]
  exact List.splitOn_intercalate slash
    (fun segment member => (plain segment member).slashless)
    identifier.segments_ne_nil

/-- Two texts are split alike as far as the first goes, and the second further,
when a separator follows in the second where the first ends. -/
theorem splitOn_goes_on_iff {α : Type} [DecidableEq α] {separator : α}
    {stem whole : List α} :
    (stem.splitOn separator <+: whole.splitOn separator ∧
        stem.splitOn separator ≠ whole.splitOn separator) ↔
      stem ++ [separator] <+: whole := by
  constructor
  · rintro ⟨⟨further, isSplit⟩, different⟩
    have goesOn : further ≠ [] := by
      rintro rfl
      exact different ((List.append_nil _).symm.trans isSplit)
    have bare : ∀ piece ∈ further, separator ∉ piece := by
      intro piece member
      refine @separator_not_mem_of_mem_splitOn _ _ _ whole _ ?_
      rw [← isSplit]
      exact List.mem_append_right _ member
    have sameSplit : whole.splitOn separator =
        (stem ++ separator :: [separator].intercalate further).splitOn
          separator := by
      rw [List.splitOn_append_cons_self,
        List.splitOn_intercalate separator bare goesOn, isSplit]
    have isWhole :=
      congrArg (List.intercalate [separator]) sameSplit
    rw [List.intercalate_splitOn, List.intercalate_splitOn] at isWhole
    exact ⟨_, (List.append_assoc ..).trans isWhole.symm⟩
  · rintro ⟨rest, rfl⟩
    rw [List.append_assoc, List.singleton_append,
      List.splitOn_append_cons_self]
    exact ⟨List.prefix_append _ _, by simp [List.splitOn_ne_nil]⟩

/-- One package is nested in another when a slash follows in its path form where
that of the other ends. -/
theorem isAncestorOf_iff_slashed : outer.isAncestorOf inner = true ↔
    Utf8.encode outer.path ++ [slash] <+: Utf8.encode inner.path := by
  rw [isAncestorOf]
  simp only [Bool.and_eq_true, decide_eq_true_eq, List.isPrefixOf_iff_prefix,
    beq_iff_eq]
  generalize Utf8.encode outer.path = stem
  generalize Utf8.encode inner.path = whole
  constructor
  · rintro ⟨⟨longer, rest, rfl⟩, isSlash⟩
    cases rest with
    | nil => simp at longer
    | cons byte more =>
        rw [List.getElem?_append_right (Nat.le_refl _), Nat.sub_self,
          List.getElem?_cons_zero, Option.some_inj] at isSlash
        rw [isSlash]
        exact ⟨more, List.append_assoc ..⟩
  · rintro ⟨rest, rfl⟩
    rw [List.append_assoc, List.singleton_append]
    refine ⟨⟨by simp, List.prefix_append _ _⟩, ?_⟩
    rw [List.getElem?_append_right (Nat.le_refl _), Nat.sub_self]
    rfl

/-- One package is nested in another when its segments go on where the other's
end. -/
theorem isAncestorOf_iff (outerPlain : outer.HasPlainSegments)
    (innerPlain : inner.HasPlainSegments) :
    outer.isAncestorOf inner = true ↔
      outer.segments <+: inner.segments ∧ outer.segments ≠ inner.segments := by
  rw [isAncestorOf_iff_slashed, ← splitOn_goes_on_iff, pieces_path outerPlain,
    pieces_path innerPlain]

end Identifier

end PackageRename
