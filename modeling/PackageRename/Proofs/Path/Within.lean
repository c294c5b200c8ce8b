import PackageRename.Proofs.Path.Parents

/-!
# Paths within a base

A path lies within a base if nothing but names follow where the components of
the base end.  Its parents that do not lie above the base lie within it too.
-/

namespace PackageRename

namespace Path

variable {path base back : Path}

/-- The path goes on from the base with nothing but names, if at all. -/
def LiesWithin (path base : Path) : Prop :=
  ∃ names : List Name,
    path.components = base.components ++ names.map Component.name

/-- The path goes on from the base with one name at least. -/
def LiesInside (path base : Path) : Prop :=
  ∃ names : List Name, names ≠ [] ∧
    path.components = base.components ++ names.map Component.name

theorem LiesInside.liesWithin (inside : path.LiesInside base) :
    path.LiesWithin base := by
  obtain ⟨names, -, isComponents⟩ := inside
  exact ⟨names, isComponents⟩

theorem LiesWithin.startsWith (within : path.LiesWithin base) :
    path.startsWith base = true := by
  obtain ⟨names, isComponents⟩ := within
  rw [startsWith_iff, isComponents]
  exact List.prefix_append _ _

theorem not_liesInside_of_components (same : path.components = base.components) :
    ¬ path.LiesInside base := by
  rintro ⟨names, nonempty, isComponents⟩
  simp [same, nonempty] at isComponents

theorem LiesWithin.liesInside_iff (within : path.LiesWithin base) :
    path.LiesInside base ↔ path.components ≠ base.components := by
  obtain ⟨names, isComponents⟩ := within
  constructor
  · exact fun inside same => not_liesInside_of_components same inside
  · intro different
    refine ⟨names, ?_, isComponents⟩
    rintro rfl
    simp [isComponents] at different

/-- What lies on the way to a path within the base lies before the base or
within it. -/
theorem LiesWithin.of_prefix {between : Path} (within : path.LiesWithin base)
    (starts : base.components <+: between.components)
    (ends : between.components <+: path.components) :
    between.LiesWithin base := by
  obtain ⟨names, isComponents⟩ := within
  obtain ⟨more, isBetween⟩ := starts
  rw [isComponents, ← isBetween, List.prefix_append_right_inj] at ends
  obtain ⟨rest, isNames⟩ := ends
  obtain ⟨front, -, -, isMore, -⟩ := List.append_eq_map_iff.mp isNames
  exact ⟨front, by rw [← isBetween, ← isMore]⟩

/-- What lies on the way to a path within the base lies inside the base or on
the way to it. -/
theorem LiesWithin.inside_or_above {between : Path}
    (within : path.LiesWithin base)
    (ends : between.components <+: path.components) :
    between.LiesInside base ∨ between.components <+: base.components := by
  have starts := startsWith_iff.mp within.startsWith
  rcases List.prefix_or_prefix_of_prefix starts ends with below | above
  · by_cases same : between.components = base.components
    · exact .inr (same ▸ List.prefix_rfl)
    · exact .inl ((within.of_prefix below ends).liesInside_iff.mpr same)
  · exact .inr above

theorem LiesInside.parent {parent : Path} (inside : path.LiesInside base)
    (isParent : path.parent? = some parent) : parent.LiesWithin base := by
  obtain ⟨last, isPath⟩ := components_of_parent? isParent
  obtain ⟨names, nonempty, isComponents⟩ := inside
  obtain ⟨front, final, isNames⟩ :=
    (List.eq_nil_or_concat names).resolve_left nonempty
  rw [List.concat_eq_append] at isNames
  rw [isPath, isNames, List.map_append, ← List.append_assoc] at isComponents
  exact ⟨front, (List.append_inj' isComponents rfl).1⟩

theorem LiesWithin.ancestor {ancestor : Path} (within : path.LiesWithin base)
    (member : ancestor ∈ path.ancestors)
    (below : ancestor.isStrictlyBelow base = true) :
    ancestor.LiesInside base := by
  simp only [isStrictlyBelow, Bool.and_eq_true, List.isPrefixOf_iff_prefix,
    decide_eq_true_eq] at below
  have isWithin := within.of_prefix below.1
    (components_prefix_of_mem_ancestors member)
  exact isWithin.liesInside_iff.mpr below.2

/-! ### The pieces behind the base -/

theorem isPlain_of_mem_components {name : Name}
    (member : Component.name name ∈ path.components)
    (nulless : (0 : UInt8) ∉ path.bytes) : name.IsPlain := by
  obtain ⟨piece, inBody, isName⟩ : ∃ piece ∈ path.body,
      Component.ofPiece? piece = some (.name name) := by
    rcases List.mem_append.mp member with isLead | inBody
    · rw [Option.mem_toList] at isLead
      rcases path.lead?_cases with leads | leads | leads <;>
        rw [leads] at isLead <;> cases isLead
    · exact List.mem_filterMap.mp inBody
  have inPieces := mem_pieces_of_mem_body inBody
  rw [Component.ofPiece?] at isName
  split at isName
  · cases isName
  split at isName
  · cases isName
  split at isName
  · cases isName
  · cases isName
    exact ⟨‹_›, ‹_›, ‹_›, slash_not_mem_of_mem_pieces inPieces,
      fun nul => nulless ((mem_bytes_iff (by decide)).mpr ⟨_, inPieces, nul⟩)⟩

theorem steps_of_plain {names : List Name} (plain : ArePlain names) :
    steps names = names := by
  rw [steps, List.filter_eq_self]
  intro name member
  rw [(plain name member).not_isSpelling]
  rfl

theorem LiesWithin.isAbsolute (within : path.LiesWithin base) :
    path.isAbsolute = base.isAbsolute := by
  obtain ⟨names, isComponents⟩ := within
  rw [Bool.eq_iff_iff, isAbsolute_iff, isAbsolute_iff, isComponents,
    List.mem_append, or_iff_left]
  simp

theorem isAbsolute_iff_head? :
    path.isAbsolute = true ↔ path.components.head? = some .root := by
  constructor
  · intro absolute
    rw [components, lead?, if_pos absolute]
    rfl
  · intro isHead
    exact isAbsolute_iff.mpr (List.mem_of_mem_head? isHead)

theorem isAbsolute_of_prefix (written : path.bytes ≠ [])
    (above : path.components <+: base.components) :
    path.isAbsolute = base.isAbsolute := by
  obtain ⟨first, others, isPath⟩ := List.exists_cons_of_ne_nil fun none =>
    written (components_eq_nil_iff.mp none)
  obtain ⟨more, isBase⟩ := above
  rw [Bool.eq_iff_iff, isAbsolute_iff_head?, isAbsolute_iff_head?, ← isBase,
    isPath]
  exact Iff.rfl

/-- The pieces that count go on from those of the base with the names. -/
theorem steps_of_components {names : List Name}
    (isComponents : path.components =
      base.components ++ names.map Component.name)
    (nulless : (0 : UInt8) ∉ path.bytes) :
    ArePlain names ∧ steps path.pieces = steps base.pieces ++ names := by
  have plain : ArePlain names := by
    intro name member
    apply isPlain_of_mem_components _ nulless
    rw [isComponents]
    exact List.mem_append_right _ (List.mem_map_of_mem member)
  refine ⟨plain, ?_⟩
  have isPiece : Component.piece ∘ Component.name = id := rfl
  rw [steps_pieces, isComponents, List.map_append, steps_append, ← steps_pieces,
    List.map_map, isPiece, List.map_id, steps_of_plain plain]

/-! ### Joining a path without dots -/

theorem ofPiece?_of_dotless {piece : Name} (dotless : dot ∉ piece) :
    Component.ofPiece? piece =
      if piece = [] then none else some (.name piece) := by
  have notCurrent : piece ≠ [dot] := fun same => dotless (by simp [same])
  have notParent : piece ≠ [dot, dot] := fun same => dotless (by simp [same])
  rw [Component.ofPiece?, if_neg notCurrent, if_neg notParent]

theorem filterMap_of_dotless {pieces : List Name}
    (dotless : ∀ piece ∈ pieces, dot ∉ piece) :
    ∃ names : List Name,
      pieces.filterMap Component.ofPiece? = names.map Component.name := by
  induction pieces with
  | nil => exact ⟨[], rfl⟩
  | cons piece rest induction =>
      obtain ⟨here, further⟩ := List.forall_mem_cons.mp dotless
      obtain ⟨names, isNames⟩ := induction further
      rw [List.filterMap_cons, ofPiece?_of_dotless here, isNames]
      by_cases empty : piece = []
      · rw [if_pos empty]
        exact ⟨names, rfl⟩
      · rw [if_neg empty]
        exact ⟨piece :: names, rfl⟩

theorem dot_not_mem_piece (dotless : dot ∉ path.bytes) :
    ∀ piece ∈ path.pieces, dot ∉ piece := by
  intro piece member isDot
  exact dotless ((mem_bytes_iff (by decide)).mpr ⟨piece, member, isDot⟩)

theorem lead?_of_dotless (relative : path.isAbsolute = false)
    (dotless : dot ∉ path.bytes) : path.lead? = none := by
  rw [lead?, relative, if_neg Bool.false_ne_true, if_neg]
  intro current
  apply dotless
  apply (List.takeWhile_sublist _).subset
  rw [current]
  exact List.mem_cons_self

/-- A path without dots holds nothing but names, so that it stays inside any
base it is joined to. -/
theorem liesInside_join (relative : back.isAbsolute = false)
    (written : back.bytes ≠ []) (dotless : dot ∉ back.bytes) :
    (base.join back).LiesInside base := by
  have isComponents : back.components =
      back.pieces.filterMap Component.ofPiece? := by
    rw [components, body, lead?_of_dotless relative dotless]
    rfl
  obtain ⟨names, isNames⟩ := filterMap_of_dotless (dot_not_mem_piece dotless)
  have nonempty : names ≠ [] := by
    rintro rfl
    exact written (components_eq_nil_iff.mp (isComponents.trans isNames))
  refine ⟨names, nonempty, ?_⟩
  by_cases empty : base.bytes = []
  · rw [join_of_empty empty, components_eq_nil_iff.mpr empty, isComponents,
      isNames]
    rfl
  · rw [components_join empty relative, isNames]

theorem components_join_nil (base : Path) :
    (base.join ⟨[]⟩).components = base.components := by
  by_cases empty : base.bytes = []
  · rw [join_of_empty empty, components_eq_nil_iff.mpr empty]
    rfl
  · rw [components_join empty rfl]
    exact List.append_nil _

end Path

end PackageRename
