import PackageRename.Proofs.Relocation.Package
import PackageRename.Proofs.Tree.Finding

/-!
# Moves that fail

Where the directory of a package cannot be moved, the tree is left as it was.  A
new path that is taken had its directories already, so none has been made; and a
directory that has been parked goes back.  The directories that were pruned
behind it are made anew, so they get the mode of new ones.
-/

namespace PackageRename

namespace Tree

variable {tree parked bare back : Tree} {base : Path} {place : Place}

section Parked

variable {front : List Name} {last park : Name}
variable (directory : tree.hasDirectory (place ++ (front ++ [last])) = true)
variable (apart : Apart (front ++ [last]) [park])
variable (isMoved : tree.HasMoved (place ++ (front ++ [last]))
  (place ++ [park]) parked)
variable (isPruned : parked.HasPruned place (place ++ front) bare)

include directory apart isMoved isPruned

/-- While a directory is parked, its old place is there for it. -/
theorem canPlace_back (ground : tree.IsGround base place)
    (fits : (base.below (front ++ [last])).bytes.length ≤ pathLimit) :
    bare.CanPlace base place (front ++ [last]) := by
  refine ⟨ground.short_names (hasDirectory_isSome directory), fits, ?_, ?_⟩
  · intro first isPrefix
    have elsewhere : ¬ [park] <+: first :=
      fun isParked => apart.2 (isParked.trans isPrefix)
    rcases node?_bare isMoved isPruned elsewhere with gone | ⟨-, same⟩
    · exact .inl gone
    · right
      rw [hasDirectory, same]
      exact hasDirectory_upward directory
        ((List.prefix_append_right_inj _).mpr isPrefix)
  · intro rest nonempty
    have elsewhere : ¬ [park] <+: front ++ [last] ++ rest :=
      apart.symm.not_prefix_append
    rcases node?_bare isMoved isPruned elsewhere with gone | ⟨outside, -⟩
    · exact gone
    · exact absurd (List.prefix_append _ _) outside

/-- Parking a directory and placing it where it was changes nothing but the
modes of the directories that have been pruned meanwhile. -/
theorem hasRemade_of_placed_back {new : Place}
    (nested : Nested (place ++ (front ++ [last])) new)
    (free : tree.node? (place ++ [park]) = none)
    (isPlaced : bare.HasPlaced (place ++ [park])
      (place ++ (front ++ [last])) back) :
    tree.HasRemade (tree.IsPruned place (place ++ (front ++ [last])) new)
      back := by
  have isWay : place ++ front <+: place ++ (front ++ [last]) := by simp
  have apartPlaces : Apart (place ++ (front ++ [last])) (place ++ [park]) :=
    Apart.append_left.mpr apart
  have isBarren_iff : ∀ other, parked.IsBarren place (place ++ front) other ↔
      tree.IsDeserted place (place ++ (front ++ [last])) other ∧
        ¬ place ++ (front ++ [last]) <+: other := by
    intro other
    rw [← List.append_assoc] at apartPlaces isMoved ⊢
    exact isBarren_of_parked_iff apartPlaces free isMoved
  refine ⟨isPlaced.origin.trans (isPruned.origin.trans isMoved.origin),
    fun other gone => ?_, fun other notGone => ?_⟩
  · rw [isPlaced.onWay other gone.deserted.above
      fun same => gone.proper (same ▸ List.prefix_refl _), isPruned.removed
        other ((isBarren_iff other).mpr ⟨gone.deserted, gone.proper⟩)]
    rfl
  by_cases below : place ++ (front ++ [last]) <+: other
  · obtain ⟨rest, rfl⟩ := below
    rw [isPlaced.arrived, isPruned.kept, isMoved.arrived]
    intro isBarren
    exact apartPlaces.2 ((List.prefix_append _ _).trans
      (isBarren.above.trans isWay))
  by_cases above : other <+: place ++ (front ++ [last])
  · have notBarren : ¬ parked.IsBarren place (place ++ front) other := by
      intro isBarren
      obtain ⟨isDeserted, proper⟩ := (isBarren_iff other).mp isBarren
      exact notGone ⟨isDeserted, proper, .inl nested⟩
    have notParked : ¬ place ++ [park] <+: other :=
      fun isParked => apartPlaces.2 (isParked.trans above)
    rw [isPlaced.onWay other above fun same => below (same ▸ List.prefix_refl _),
      isPruned.kept other notBarren, isMoved.kept notParked below]
    exact some_getD_of_hasDirectory (hasDirectory_upward directory above)
  by_cases isParked : place ++ [park] <+: other
  · obtain ⟨rest, rfl⟩ := isParked
    rw [isPlaced.left _ (List.prefix_append _ _), node?_append_of_missing free]
  · rw [isPlaced.kept other below above isParked, isPruned.kept,
      isMoved.kept isParked below]
    exact fun isBarren => above (isBarren.above.trans isWay)

end Parked

/-- A parked directory can go back, and then only directories that have been
pruned behind it have changed. -/
theorem IsGround.placeDirectory_back (ground : tree.IsGround base place)
    {source target : Identifier} (sourcePlain : source.HasPlainSegments)
    (nested : Nested source.segments target.segments)
    (isDirectory : tree.isDirectory (source.directoryIn base) = true)
    (absent : tree.pathExists (base.below [parkName]) = false)
    (isRenamed : tree.rename (base.below source.segments)
      (base.below [parkName]) = .ok parked) :
    let bare := PackageRename.pruneAbove base (base.below source.segments)
      parked
    bare.IsGround base place ∧
      (base.below [parkName]).bytes.length ≤ pathLimit ∧
      bare.hasDirectory (place ++ [parkName]) = true ∧
      ∃ back, PackageRename.placeDirectory (base.below [parkName])
          (base.below source.segments) bare = (.ok (), back) ∧
        tree.HasRemade (tree.IsPruned place (place ++ source.segments)
          (place ++ target.segments)) back := by
  obtain ⟨parkFits, free⟩ := ground.parks absent isRenamed
  rw [Identifier.directoryIn_eq_below sourcePlain] at isDirectory
  obtain ⟨fits, directory⟩ := (ground.isDirectory sourcePlain).mp isDirectory
  have apartPark := apart_park source
  obtain ⟨front, last, isSource⟩ := source.segments_eq_concat
  rw [Identifier.HasPlainSegments] at sourcePlain
  rw [isSource] at sourcePlain nested isRenamed fits directory apartPark ⊢
  obtain ⟨_, isParked, isMoved, isPruned, bareGround, parkDirectory⟩ :=
    ground.park fits directory apartPark.symm parkFits free
  obtain rfl := Except.ok.inj (isRenamed.symm.trans isParked)
  obtain ⟨back, isBack, isPlaced, -⟩ := bareGround.placeDirectory sourcePlain
    apartPark parkFits parkDirectory
    (canPlace_back directory apartPark.symm isMoved isPruned ground fits)
  exact ⟨bareGround, parkFits, parkDirectory, back, isBack,
    hasRemade_of_placed_back directory apartPark.symm isMoved isPruned
      (Nested.append_left.mpr nested) free isPlaced⟩

section Failing

variable {source target : Identifier} {error : FileError}
variable (ground : tree.IsGround base place)
variable (sourcePlain : source.HasPlainSegments)
variable (targetPlain : target.HasPlainSegments) (different : source ≠ target)
variable (short : ∀ name ∈ target.segments, name.length ≤ nameLimit)
variable (fits : (base.below target.segments).bytes.length ≤ pathLimit)
variable (isDirectory : tree.isDirectory (source.directoryIn base) = true)
variable (failed : (movePackage base source target tree).answer = .error error)

include ground sourcePlain targetPlain different short fits isDirectory failed

theorem eq_of_failed_apart
    (apart : Apart source.segments target.segments) :
    (movePackage base source target tree).tree = tree ∧
      (movePackage base source target tree).log = [] := by
  rw [movePackage_of_apart sourcePlain targetPlain different isDirectory
    apart] at failed ⊢
  rw [Identifier.directoryIn_eq_below sourcePlain] at isDirectory
  obtain ⟨sourceFits, directory⟩ :=
    (ground.isDirectory sourcePlain).mp isDirectory
  rcases isPlaced : placeDirectory (base.below source.segments)
      (base.below target.segments) tree with ⟨ending, reached⟩
  rw [isPlaced] at failed
  cases ending with
  | ok done => cases failed
  | error fault =>
      obtain rfl := ground.eq_of_placeDirectory_error targetPlain short fits
        apart sourceFits directory isPlaced
      exact ⟨rfl, rfl⟩

theorem hasRemade_of_failed_parked
    (nested : Nested source.segments target.segments)
    (absent : tree.pathExists (base.below [parkName]) = false)
    (isRenamed : tree.rename (base.below source.segments)
      (base.below [parkName]) = .ok parked) :
    tree.HasRemade (tree.IsPruned place (place ++ source.segments)
        (place ++ target.segments)) (movePackage base source target tree).tree ∧
      (movePackage base source target tree).log = [] := by
  obtain ⟨bareGround, parkFits, parkDirectory, back, isBack, isRemade⟩ :=
    ground.placeDirectory_back sourcePlain nested isDirectory absent isRenamed
  rcases isPlaced : placeDirectory (base.below [parkName])
      (base.below target.segments)
      (pruneAbove base (base.below source.segments) parked) with
    ⟨ending, reached⟩
  cases ending with
  | ok done =>
      rw [movePackage_of_placed sourcePlain targetPlain different isDirectory
        nested absent isRenamed isPlaced] at failed
      cases failed
  | error fault =>
      -- The tree is still the one that is left without the directory.
      obtain rfl := bareGround.eq_of_placeDirectory_error targetPlain short fits
        (apart_park target) parkFits parkDirectory isPlaced
      obtain ⟨-, isTree, isLog⟩ := movePackage_of_unplaced sourcePlain
        targetPlain different isDirectory nested absent isRenamed isPlaced
      rw [isTree, isBack]
      exact ⟨isRemade, isLog (by rw [isBack])⟩

end Failing

/-- A move that fails leaves the tree as it was, and has nothing to report
beside its error.  Only where one package lies in the other, the directories
that have led to the old place alone may have been made anew. -/
theorem movePackage_restores (ground : tree.IsGround base place)
    {source target : Identifier} (sourcePlain : source.HasPlainSegments)
    (targetLegal : target.HasLegalSegments) (different : source ≠ target)
    (fits : (target.directoryIn base).bytes.length ≤ pathLimit)
    {error : FileError}
    (failed : (movePackage base source target tree).answer = .error error) :
    ((movePackage base source target tree).tree = tree ∨
        Nested source.segments target.segments ∧
          tree.HasRemade (tree.IsPruned place (place ++ source.segments)
            (place ++ target.segments))
            (movePackage base source target tree).tree) ∧
      (movePackage base source target tree).log = [] := by
  have targetPlain := targetLegal.plain
  have short : ∀ name ∈ target.segments, name.length ≤ nameLimit :=
    fun name member => (targetLegal name member).fits
  rw [Identifier.directoryIn_eq_below targetPlain] at fits
  cases isDirectory : tree.isDirectory (source.directoryIn base) with
  | false =>
      rw [movePackage_of_missing isDirectory] at failed
      cases failed
  | true =>
      by_cases nested : Nested source.segments target.segments
      · have parking := movePackage_of_unparked sourcePlain targetPlain
          different isDirectory nested
        cases absent : tree.pathExists (base.below [parkName]) with
        | true =>
            obtain ⟨reason, stays⟩ := parking (.inl absent)
            rw [stays]
            exact ⟨.inl rfl, rfl⟩
        | false =>
            cases isRenamed : tree.rename (base.below source.segments)
                (base.below [parkName]) with
            | error fault =>
                obtain ⟨reason, stays⟩ := parking (.inr ⟨fault, isRenamed⟩)
                rw [stays]
                exact ⟨.inl rfl, rfl⟩
            | ok parked =>
                obtain ⟨isRemade, isLog⟩ := hasRemade_of_failed_parked ground
                  sourcePlain targetPlain different short fits isDirectory
                  failed nested absent isRenamed
                exact ⟨.inr ⟨nested, isRemade⟩, isLog⟩
      · obtain ⟨isTree, isLog⟩ := eq_of_failed_apart ground sourcePlain
          targetPlain different short fits isDirectory failed
          (apart_of_not_nested nested)
        exact ⟨.inl isTree, isLog⟩

/-- A package that is to take the place of the one around it goes back. -/
theorem movePackage_restores_occupied :
    (movePackage (Path.ofString "l/smali/") ⟨"com.app.ui"⟩ ⟨"com.app"⟩
        linkedPackage).answer =
        .error (.move (Path.ofString "l/smali/com/app/ui")
          (Path.ofString "l/smali/com/app") .notEmpty) ∧
      (movePackage (Path.ofString "l/smali/") ⟨"com.app.ui"⟩ ⟨"com.app"⟩
        linkedPackage).tree = linkedPackage ∧
      (movePackage (Path.ofString "l/smali/") ⟨"com.app.ui"⟩ ⟨"com.app"⟩
        linkedPackage).log = [] := by
  have failed : (movePackage (Path.ofString "l/smali/") ⟨"com.app.ui"⟩
      ⟨"com.app"⟩ linkedPackage).answer =
      .error (.move (Path.ofString "l/smali/com/app/ui")
        (Path.ofString "l/smali/com/app") .notEmpty) := by
    decide +kernel
  obtain ⟨restored, isLog⟩ := movePackage_restores linkedPackage_isGround
    (by decide +kernel) (by decide +kernel) (by decide) (by decide +kernel)
    failed
  refine ⟨failed, ?_, isLog⟩
  rcases restored with same | ⟨-, isRemade⟩
  · exact same
  · -- The directories above the package have the mode of new ones.
    have wereMade : ∀ other ∈ ([Utf8.encode "p", Utf8.encode "smali",
        Utf8.encode "com", Utf8.encode "app"] : Place).inits,
        linkedPackage.node? other = some .made := by
      decide +kernel
    refine isRemade.eq_of_made fun other gone => wereMade other ?_
    have isOld : [Utf8.encode "p", Utf8.encode "smali"] ++
        (⟨"com.app.ui"⟩ : Identifier).segments =
          [Utf8.encode "p", Utf8.encode "smali", Utf8.encode "com",
            Utf8.encode "app"] ++ [Utf8.encode "ui"] := by
      decide +kernel
    obtain ⟨⟨-, above, -⟩, proper, -⟩ := gone
    rw [isOld] at above proper
    exact (List.mem_inits _ _).mpr ((List.prefix_concat_iff.mp
      above).resolve_left fun same => proper (same ▸ List.prefix_refl _))

/-- A package with an empty directory, and a file beside the package. -/
def hollowPackage : Tree :=
  (Tree.holding [("p/smali/com/app/Main.smali", ""),
    ("p/smali/com/Other.smali", "")]).edit
    ⟨[], [(Path.ofString "p/smali/com/app/none", .directory)]⟩

/-- A base that is looked up through the package itself: the way back makes what
it leads through, and then the old place is taken.  And a directory that has been
pruned comes back open to all. -/
theorem movePackage_strands_on_detour :
    (hollowPackage.LeadsInto (Path.ofString "p/smali/com/app/none/../../..")
        [Utf8.encode "p", Utf8.encode "smali"] ∧
      (movePackage (Path.ofString "p/smali/com/app/none/../../..") ⟨"com.app"⟩
        ⟨"com"⟩ hollowPackage).answer =
        .error (.move
          (Path.ofString "p/smali/com/app/none/../../../com/app")
          (Path.ofString "p/smali/com/app/none/../../../com") .notEmpty) ∧
      (movePackage (Path.ofString "p/smali/com/app/none/../../..") ⟨"com.app"⟩
        ⟨"com"⟩ hollowPackage).tree ≠ hollowPackage) ∧
    (guardedPackage.LeadsInto (Path.ofString "p/smali")
        [Utf8.encode "p", Utf8.encode "smali"] ∧
      (movePackage (Path.ofString "p/smali") ⟨"com.app.x.ui"⟩ ⟨"com.app"⟩
        guardedPackage).answer =
        .error (.move (Path.ofString "p/smali/com/app/x/ui")
          (Path.ofString "p/smali/com/app") .notEmpty) ∧
      (movePackage (Path.ofString "p/smali") ⟨"com.app.x.ui"⟩ ⟨"com.app"⟩
        guardedPackage).tree ≠ guardedPackage) := by
  refine ⟨⟨leadsInto_of_nodes ?_ ?_ ?_ ?_, ?_, fun same => ?parked⟩,
    leadsInto_of_nodes ?_ ?_ ?_ ?_, ?_, fun same => ?remade⟩
  case parked =>
    -- The package is still where it has been parked.
    have parked := congrArg (fun tree : Tree => tree.hasDirectory
      [Utf8.encode "p", Utf8.encode "smali", parkName]) same
    revert parked
    decide +kernel
  case remade =>
    have remade := congrArg (fun tree : Tree => tree.node?
      [Utf8.encode "p", Utf8.encode "smali", Utf8.encode "com",
        Utf8.encode "app", Utf8.encode "x"]) same
    revert remade
    decide +kernel
  all_goals decide +kernel

end Tree

end PackageRename
