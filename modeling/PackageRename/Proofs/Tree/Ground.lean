import PackageRename.Proofs.Path.Parents
import PackageRename.Proofs.Tree.Slots

/-!
# Directories without links

A path may come through links to a directory that holds none.  From there on a
lookup enters one name after the other.  Such a directory is a ground if the
path leads to it whatever else stands inside, so that its contents can move.
-/

namespace PackageRename

open PackageRename.Path

namespace Tree

variable {tree other : Tree} {base : Path} {place : Place} {names : List Name}

/-! ### Places above and below -/

/-- A prefix of two lists in a row ends in the first or reaches into the
second. -/
theorem reaches_or_ends {α : Type} {first front back : List α}
    (isPrefix : first <+: front ++ back) :
    first <+: front ∨ ∃ rest, first = front ++ rest ∧ rest <+: back := by
  rcases List.prefix_or_prefix_of_prefix isPrefix
    (List.prefix_append front back) with early | ⟨rest, isFirst⟩
  · exact .inl early
  · subst isFirst
    exact .inr ⟨rest, rfl, (List.prefix_append_right_inj front).mp isPrefix⟩

/-- What goes on behind a list does not lead up to it. -/
@[simp]
theorem append_prefix_iff {α : Type} {front rest : List α} :
    front ++ rest <+: front ↔ rest = [] := by
  constructor
  · intro shorter
    have lengths := shorter.length_le
    rw [List.length_append] at lengths
    exact List.eq_nil_of_length_eq_zero (by omega)
  · intro empty
    simp [empty]

/-- The place lies strictly below the other. -/
def Inside (outer place : Place) : Prop :=
  outer <+: place ∧ place ≠ outer

theorem inside_append_iff {outer rest : Place} :
    Inside outer (outer ++ rest) ↔ rest ≠ [] := by
  simp [Inside]

theorem not_inside_above {outer place : Place} (shorter : place <+: outer) :
    ¬ Inside outer place :=
  fun ⟨longer, different⟩ =>
    different (shorter.eq_of_length_le longer.length_le)

theorem hasDirectory_isSome (directory : tree.hasDirectory place = true) :
    (tree.node? place).isSome := by
  obtain ⟨mode, isDirectory⟩ := hasDirectory_iff_node?.mp directory
  rw [isDirectory]
  rfl

theorem hasDirectory_upward {inner : Place}
    (directory : tree.hasDirectory inner = true) (isPrefix : place <+: inner) :
    tree.hasDirectory place = true := by
  obtain ⟨rest, isInner⟩ := isPrefix
  subst isInner
  cases rest with
  | nil => simpa using directory
  | cons name more =>
      exact hasDirectory_of_append (hasDirectory_isSome directory) (by simp)

/-- No file stands where something has to be a directory. -/
theorem not_file_of_directory {inner : Place} {file : File}
    (directory : tree.hasDirectory inner = true) (above : place <+: inner) :
    tree.node? place ≠ some (.file file) := by
  intro isFile
  have isDirectory := hasDirectory_upward directory above
  rw [hasDirectory, isFile] at isDirectory
  cases isDirectory

theorem ne_nil_of_file {names : List Name} {file : File}
    (directory : tree.hasDirectory place = true)
    (isFile : tree.node? (place ++ names) = some (.file file)) :
    names ≠ [] := by
  intro empty
  rw [empty, List.append_nil] at isFile
  exact not_file_of_directory directory (List.prefix_refl _) isFile

/-! ### Leading into a directory -/

/-- The path leads to a directory with no link and only legal names in it. -/
structure LeadsInto (tree : Tree) (base : Path) (place : Place) : Prop where
  resolved : tree.resolve base = .ok place
  directory : tree.hasDirectory place = true
  linkless : ∀ names target share,
    tree.node? (place ++ names) ≠ some (.link target share)
  legal : ∀ names, (tree.node? (place ++ names)).isSome →
    ∀ name ∈ names, Name.IsLegal name

/-- A path below a base is only refused for being too long. -/
theorem checkPath_below (clean : (0 : UInt8) ∉ base.bytes)
    (nonempty : names ≠ []) (plain : ArePlain names) :
    checkPath (base.below names) =
      if pathLimit < (base.below names).bytes.length then .error .nameTooLong
      else .ok () := by
  have belowClean := nul_not_mem_below clean plain
  have belowWritten := @bytes_below_ne_nil base names nonempty plain
  split
  · rename_i long
    simp [checkPath, checkWritten, belowClean, belowWritten, long, bind,
      Except.bind, throw, throwThe, MonadExceptOf.throw]
  · rename_i fits
    exact checkPath_eq_ok.mpr
      ⟨belowClean, belowWritten, Nat.le_of_not_lt fits⟩

namespace LeadsInto

theorem nulless (leads : tree.LeadsInto base place) :
    (0 : UInt8) ∉ base.bytes :=
  (checkPath_eq_ok.mp (resolve_eq_ok_iff.mp leads.resolved).1).1

theorem written (leads : tree.LeadsInto base place) : base.bytes ≠ [] :=
  (checkPath_eq_ok.mp (resolve_eq_ok_iff.mp leads.resolved).1).2.1

theorem fits (leads : tree.LeadsInto base place) :
    base.bytes.length ≤ pathLimit :=
  (checkPath_eq_ok.mp (resolve_eq_ok_iff.mp leads.resolved).1).2.2

theorem short_names (leads : tree.LeadsInto base place)
    (present : (tree.node? (place ++ names)).isSome) :
    ∀ name ∈ names, name.length ≤ nameLimit :=
  fun name member => (leads.legal names present name member).fits

theorem plain_names (leads : tree.LeadsInto base place)
    (present : (tree.node? (place ++ names)).isSome) : ArePlain names :=
  fun name member => (leads.legal names present name member).plain

/-- Behind a base, following names is entering them. -/
theorem follow_stem (leads : tree.LeadsInto base place) {path : Path}
    (sameStart : path.isAbsolute = base.isAbsolute) (plain : ArePlain names) :
    tree.follow path (base.stem ++ names) = tree.enter place names := by
  obtain ⟨-, follows⟩ := resolve_eq_ok_iff.mp leads.resolved
  obtain ⟨start, trail, isStart, trailLeads, isPlace, goesOn⟩ :=
    exists_stem_trail follows
  obtain ⟨left, isLeft⟩ := goesOn names
  rw [follow_eq_map (by rw [sameStart]; exact isStart), isLeft,
    descendThrough_eq_enter left trailLeads (by
      rw [isPlace]
      exact meetsNoLink_of_linkless leads.linkless plain), isPlace]

/-- Paths below a base are looked up from where the base leads. -/
theorem resolve_below (leads : tree.LeadsInto base place)
    (nonempty : names ≠ []) (plain : ArePlain names) :
    tree.resolve (base.below names) =
      if pathLimit < (base.below names).bytes.length then
        .error .nameTooLong
      else tree.enter place names := by
  rw [Tree.resolve, checkPath_below leads.nulless nonempty plain,
    pieces_below nonempty plain,
    leads.follow_stem (isAbsolute_below plain) plain]
  split <;> rfl

/-- What stands below a directory is found under its own path. -/
theorem resolve (leads : tree.LeadsInto base place)
    (fits : (base.below names).bytes.length ≤ pathLimit)
    (present : (tree.node? (place ++ names)).isSome) :
    tree.resolve (base.below names) = .ok (place ++ names) := by
  by_cases empty : names = []
  · rw [empty, List.append_nil]
    exact leads.resolved
  · have plain := leads.plain_names present
    rw [leads.resolve_below empty plain, if_neg (Nat.not_lt.mpr fits),
      enter_of_present plain (leads.short_names present) present]

theorem resolve_of_long (leads : tree.LeadsInto base place)
    (plain : ArePlain names)
    (long : pathLimit < (base.below names).bytes.length) :
    tree.resolve (base.below names) = .error .nameTooLong := by
  have nonempty : names ≠ [] := by
    rintro rfl
    exact absurd leads.fits (Nat.not_le.mpr long)
  rw [leads.resolve_below nonempty plain, if_pos long]

theorem resolve_iff (leads : tree.LeadsInto base place)
    (plain : ArePlain names) {reached : Place} :
    tree.resolve (base.below names) = .ok reached ↔
      (base.below names).bytes.length ≤ pathLimit ∧
        reached = place ++ names ∧ (tree.node? (place ++ names)).isSome := by
  constructor
  · intro resolved
    by_cases empty : names = []
    · subst empty
      rw [below_nil, leads.resolved] at resolved
      cases resolved
      rw [List.append_nil]
      exact ⟨leads.fits, rfl, hasDirectory_isSome leads.directory⟩
    · rw [leads.resolve_below empty plain] at resolved
      split at resolved
      · cases resolved
      · rename_i fits
        obtain ⟨isPlace, isEmpty | present⟩ := enter_eq_ok plain resolved
        · exact absurd isEmpty empty
        · exact ⟨Nat.le_of_not_lt fits, isPlace, isPlace ▸ present⟩
  · rintro ⟨fits, isPlace, present⟩
    rw [isPlace]
    exact leads.resolve fits present

theorem isDirectory (leads : tree.LeadsInto base place)
    (plain : ArePlain names) :
    tree.isDirectory (base.below names) = true ↔
      (base.below names).bytes.length ≤ pathLimit ∧
        tree.hasDirectory (place ++ names) = true := by
  constructor
  · intro isDirectory
    rw [Tree.isDirectory] at isDirectory
    split at isDirectory
    · rename_i reached isReached
      obtain ⟨fits, isPlace, -⟩ := (leads.resolve_iff plain).mp isReached
      exact ⟨fits, isPlace ▸ isDirectory⟩
    · cases isDirectory
  · rintro ⟨fits, directory⟩
    rw [Tree.isDirectory, leads.resolve fits (hasDirectory_isSome directory)]
    exact directory

theorem pathExists (leads : tree.LeadsInto base place)
    (plain : ArePlain names) :
    tree.pathExists (base.below names) = true ↔
      (base.below names).bytes.length ≤ pathLimit ∧
        (tree.node? (place ++ names)).isSome := by
  constructor
  · intro pathExists
    rw [Tree.pathExists] at pathExists
    cases resolved : tree.resolve (base.below names) with
    | error fault =>
        rw [resolved] at pathExists
        cases pathExists
    | ok reached =>
        obtain ⟨fits, -, present⟩ := (leads.resolve_iff plain).mp resolved
        exact ⟨fits, present⟩
  · rintro ⟨fits, present⟩
    rw [Tree.pathExists, leads.resolve fits present]
    rfl

end LeadsInto

/-- Without the spelling at its end a path leads where it did. -/
theorem resolve_home (resolved : tree.resolve base = .ok place) :
    tree.resolve base.home = .ok place := by
  obtain ⟨checked, -⟩ := resolve_eq_ok_iff.mp resolved
  obtain ⟨-, written, fits⟩ := checkPath_eq_ok.mp checked
  have same := components_home written
  have sameFit : base.home.bytes.length ≤ pathLimit ↔
      base.bytes.length ≤ pathLimit :=
    iff_of_true (Nat.le_trans (length_home_le base) fits) fits
  by_cases ends : EndsInSpelling base.home.pieces
  · rw [resolve_eq_of_components same
      (iff_of_true ends (endsInSpelling_of_home ends)) sameFit]
    exact resolved
  · refine resolve_eq_ok_iff.mpr
      ⟨(checkPath_eq_of_components same sameFit).trans checked, ?_⟩
    rw [← resolve_steps resolved]
    apply follow_eq_of_normal (isAbsolute_eq_of_components same)
    apply normal_eq_of_steps
    · rw [steps_eq_of_components same, steps_steps]
    · exact iff_of_false ends (endsInSpelling_steps _)

theorem LeadsInto.isDirectory_home (leads : tree.LeadsInto base place) :
    tree.isDirectory base.home = true := by
  rw [Tree.isDirectory, resolve_home leads.resolved]
  exact leads.directory

/-! ### Grounds -/

/-- The path leads into the directory whatever directories and files stand
there. -/
structure IsGround (tree : Tree) (base : Path) (place : Place) : Prop
    extends LeadsInto tree base place where
  steady : ∀ other : Tree, other.origin = tree.origin →
    (∀ outside, ¬ Inside place outside →
      other.node? outside = tree.node? outside) →
    (∀ names target share,
      other.node? (place ++ names) ≠ some (.link target share)) →
    other.resolve base = .ok place

/-- A ground stays one while only what stands inside changes. -/
theorem IsGround.transfer (ground : tree.IsGround base place)
    (origin : other.origin = tree.origin)
    (same : ∀ outside, ¬ Inside place outside →
      other.node? outside = tree.node? outside)
    (linkless : ∀ names target share,
      other.node? (place ++ names) ≠ some (.link target share))
    (legal : ∀ names, (other.node? (place ++ names)).isSome →
      ∀ name ∈ names, Name.IsLegal name) : other.IsGround base place where
  resolved := ground.steady other origin same linkless
  directory := by
    rw [hasDirectory, same place (not_inside_above (List.prefix_refl place))]
    exact ground.directory
  linkless := linkless
  legal := legal
  steady := by
    intro third thirdOrigin thirdSame thirdLinkless
    refine ground.steady third (thirdOrigin.trans origin) ?_ thirdLinkless
    intro outside isOutside
    rw [thirdSame outside isOutside, same outside isOutside]

end Tree

end PackageRename
