import PackageRename.Proofs.Relocation.Views
import PackageRename.Proofs.Tree.Deciding

/-!
# Where files go

When a package is renamed below a base, each file comes from exactly one file,
which stood inside the package directory or was nobody's concern.
-/

namespace PackageRename

namespace Tree

variable {tree after : Tree} {place : Place} {source target : List Name}
variable {base : Path} {change : File → File}

/-- Where a file goes when everything inside one directory moves to another. -/
def landing (source target names : List Name) : List Name :=
  if Inside source names then target ++ names.drop source.length else names

theorem landing_append {rest : List Name} (nonempty : rest ≠ []) :
    landing source target (source ++ rest) = target ++ rest := by
  rw [landing, if_pos (inside_append_iff.mpr nonempty), List.drop_left]

theorem landing_of_not_inside {names : List Name}
    (outside : ¬ Inside source names) : landing source target names = names :=
  if_neg outside

theorem not_inside_of_not_directory {names : List Name}
    (noDirectory : ¬ tree.hasDirectory (place ++ source) = true)
    (present : (tree.node? (place ++ names)).isSome) :
    ¬ Inside source names := by
  rintro ⟨⟨rest, isNames⟩, different⟩
  subst isNames
  have nonempty : rest ≠ [] := by
    intro empty
    exact different (by rw [empty, List.append_nil])
  rw [← List.append_assoc] at present
  exact noDirectory (hasDirectory_of_append present nonempty)

/-- A file that stays where it is is in nobody's way. -/
theorem CanMove.kept_of_file (can : tree.CanMove base place source target)
    (directory : tree.hasDirectory (place ++ source) = true)
    {names : List Name} {file : File}
    (isFile : tree.node? (place ++ names) = some (.file file))
    (outside : ¬ Inside source names) :
    ¬ target <+: names ∧ ¬ names <+: target ∧ ¬ source <+: names ∧
      ¬ (tree.view place).IsDeserted source names := by
  have notAbove : ¬ names <+: source := fun above =>
    not_file_of_directory directory ((List.prefix_append_right_inj _).mpr above)
      isFile
  have notBelow : ¬ source <+: names := by
    intro below
    refine outside ⟨below, fun same => notAbove ?_⟩
    rw [same]
  have notNested : ¬ Nested names source := not_or.mpr ⟨notAbove, notBelow⟩
  refine ⟨?_, ?_, notBelow, ?_⟩
  · rintro ⟨rest, isNames⟩
    cases rest with
    | nil =>
        rw [List.append_nil] at isNames
        subst isNames
        rcases can.opened target (List.prefix_refl _) notBelow with
          missing | isDirectory
        · rw [isFile] at missing
          cases missing
        · exact not_file_of_directory isDirectory (List.prefix_refl _) isFile
    | cons name more =>
        subst isNames
        exact notNested (can.vacant _ (List.cons_ne_nil _ _)
          (by rw [isFile]; rfl))
  · intro above
    rcases can.opened names above notBelow with missing | isDirectory
    · rw [isFile] at missing
      cases missing
    · exact not_file_of_directory isDirectory (List.prefix_refl _) isFile
  · intro isDeserted
    exact notAbove isDeserted.above

section Relocates

variable (directory : tree.hasDirectory (place ++ source) = true)
variable (relocates : View.Relocates source target
  ((tree.view place).revise change) (after.view place))

include directory relocates

/-- A file after a move has been somewhere before. -/
theorem exists_file_before {new : List Name} {file : File}
    (isFile : after.node? (place ++ new) = some (.file file)) :
    ∃ old before, new = landing source target old ∧
      tree.node? (place ++ old) = some (.file before) ∧
      file = change before := by
  have isNode : after.view place new = some (.file file) := isFile
  rcases relocates.cases_of_isSome (by rw [isNode]; rfl) with
    ⟨rest, isNew, same⟩ | ⟨-, _, isDirectory⟩ | ⟨notSource, same⟩
  · subst isNew
    obtain ⟨before, wasFile, isChanged⟩ :=
      mapFile_eq_file.mp (same.symm.trans isNode)
    have nonempty : rest ≠ [] := by
      intro empty
      rw [empty, List.append_nil] at wasFile
      exact not_file_of_directory directory (List.prefix_refl _) wasFile
    exact ⟨source ++ rest, before, (landing_append nonempty).symm, wasFile,
      isChanged⟩
  · rw [isNode] at isDirectory
    cases isDirectory
  · obtain ⟨before, wasFile, isChanged⟩ :=
      mapFile_eq_file.mp (same.symm.trans isNode)
    exact ⟨new, before,
      (landing_of_not_inside fun inside => notSource inside.1).symm,
      wasFile, isChanged⟩

/-- A file before a move is there afterwards. -/
theorem node?_landing (can : tree.CanMove base place source target)
    {old : List Name} {before : File}
    (wasFile : tree.node? (place ++ old) = some (.file before)) :
    after.node? (place ++ landing source target old) =
      some (.file (change before)) := by
  have revised : (tree.view place).revise change old =
      some (.file (change before)) := mapFile_eq_file.mpr ⟨before, wasFile, rfl⟩
  by_cases inside : Inside source old
  · obtain ⟨⟨rest, isOld⟩, different⟩ := inside
    subst isOld
    have nonempty : rest ≠ [] := by
      intro empty
      exact different (by rw [empty, List.append_nil])
    rw [landing_append nonempty]
    exact (relocates.arrived rest).trans revised
  · rw [landing_of_not_inside inside]
    obtain ⟨notBelow, notAbove, notSource, notDeserted⟩ :=
      can.kept_of_file directory wasFile inside
    exact (relocates.kept old notBelow notAbove notSource
      (View.isDeserted_revise.not.mpr notDeserted)).trans revised

end Relocates

/-- The files after a rename are those before it, changed and where they go. -/
theorem renames_file_iff
    (renames : View.Renames source target change (tree.view place)
      (after.view place))
    (movable : tree.hasDirectory (place ++ source) = true →
      tree.CanMove base place source target)
    {new : List Name} {file : File} :
    after.node? (place ++ new) = some (.file file) ↔
      ∃ old before, new = landing source target old ∧
        tree.node? (place ++ old) = some (.file before) ∧
        file = change before := by
  by_cases directory : tree.hasDirectory (place ++ source) = true
  · have relocates := renames.moved (hasDirectory_view.mpr directory)
    constructor
    · exact exists_file_before directory relocates
    · rintro ⟨old, before, isNew, wasFile, isChanged⟩
      rw [isNew, isChanged]
      exact node?_landing directory relocates (movable directory) wasFile
  · have unmoved := renames.unmoved (hasDirectory_view.not.mpr directory)
    have sameNode : ∀ names, after.node? (place ++ names) =
        (tree.node? (place ++ names)).map (Node.mapFile change) :=
      fun names => congrFun unmoved names
    have stays : ∀ {names file},
        tree.node? (place ++ names) = some (.file file) →
        landing source target names = names := fun isFile =>
      landing_of_not_inside (not_inside_of_not_directory directory
        (by rw [isFile]; rfl))
    constructor
    · intro isFile
      rw [sameNode] at isFile
      obtain ⟨before, wasFile, isChanged⟩ := mapFile_eq_file.mp isFile
      exact ⟨new, before, (stays wasFile).symm, wasFile, isChanged⟩
    · rintro ⟨old, before, isNew, wasFile, isChanged⟩
      rw [isNew, stays wasFile, sameNode]
      exact mapFile_eq_file.mpr ⟨before, wasFile, isChanged⟩

end Tree

end PackageRename
