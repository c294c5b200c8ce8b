import PackageRename.Proofs.Identifier
import PackageRename.Proofs.Relocation.Moving

/-!
# Moving the directory of a package

The routes of a package directory: at once if its old and its new place lie
apart, and by way of a place to park at if one lies in the other.  Whatever the
route, the directory is moved exactly if it can be.
-/

namespace PackageRename

namespace Tree

variable {tree parked placed : Tree} {base : Path} {place : Place}
variable {source : List Name}

/-! ### Names and places -/

theorem apart_park (identifier : Identifier) :
    Apart [parkName] identifier.segments := by
  have notSegment : parkName ∉ identifier.segments := by
    intro member
    have hasDot : dot ∈ parkName := by decide
    exact Identifier.dot_not_mem_segment member hasDot
  constructor
  · exact fun isPrefix => notSegment (isPrefix.subset (by simp))
  · rintro ⟨rest, isPark⟩
    obtain ⟨first, others, isSegments⟩ :=
      List.exists_cons_of_ne_nil identifier.segments_ne_nil
    rw [isSegments, List.cons_append, List.cons.injEq] at isPark
    exact notSegment (isSegments ▸ isPark.1 ▸ List.mem_cons_self)

theorem nested_iff {source target : Identifier}
    (sourcePlain : source.HasPlainSegments)
    (targetPlain : target.HasPlainSegments) (different : source ≠ target) :
    (source.isAncestorOf target || target.isAncestorOf source) = true ↔
      Nested source.segments target.segments := by
  have unequal : source.segments ≠ target.segments :=
    fun same => different (Identifier.eq_of_segments same)
  rw [Bool.or_eq_true, Identifier.isAncestorOf_iff sourcePlain targetPlain,
    Identifier.isAncestorOf_iff targetPlain sourcePlain, Nested]
  simp [unequal, unequal.symm]

/-! ### Routes -/

theorem movePackage_of_missing {source target : Identifier}
    (missing : tree.isDirectory (source.directoryIn base) = false) :
    movePackage base source target tree = .succeed tree false := by
  rw [movePackage]
  simp [missing]

section Routes

variable {source target : Identifier} {fault : Fault} {reached : Tree}
variable (sourcePlain : source.HasPlainSegments)
variable (targetPlain : target.HasPlainSegments) (different : source ≠ target)
variable (isDirectory : tree.isDirectory (source.directoryIn base) = true)

include sourcePlain targetPlain different isDirectory

/-- Apart from each other, the directory goes to its new path at once. -/
theorem movePackage_of_apart (apart : Apart source.segments target.segments) :
    movePackage base source target tree =
      match placeDirectory (base.below source.segments)
          (base.below target.segments) tree with
      | (.ok (), placed) => .succeed
          (pruneAbove base (base.below source.segments) placed) true
      | (.error fault, reached) => .fail reached
          (.move (base.below source.segments) (base.below target.segments)
            fault) := by
  have notNested := (nested_iff sourcePlain targetPlain different).not.mpr
    (not_or.mpr apart)
  rw [Identifier.directoryIn_eq_below sourcePlain] at isDirectory
  rw [PackageRename.movePackage, Identifier.directoryIn_eq_below sourcePlain,
    Identifier.directoryIn_eq_below targetPlain]
  exact (if_pos isDirectory).trans (if_neg notNested)

variable (nested : Nested source.segments target.segments)

include nested

/-- Nested in each other, nothing happens to a directory that cannot be
parked. -/
theorem movePackage_of_unparked
    (unparked : tree.pathExists (base.below [parkName]) = true ∨
      ∃ fault, tree.rename (base.below source.segments)
        (base.below [parkName]) = .error fault) :
    ∃ error, movePackage base source target tree = .fail tree error := by
  have isNested := (nested_iff sourcePlain targetPlain different).mpr nested
  have isParked : base.join (Path.ofString stagingName) =
      base.below [parkName] := rfl
  rw [PackageRename.movePackage, isParked]
  simp only [isDirectory, ↓reduceIte, if_pos isNested]
  rw [Identifier.directoryIn_eq_below sourcePlain]
  rcases unparked with occupied | ⟨fault, refused⟩
  · exact ⟨_, if_pos occupied⟩
  · rw [refused]
    split <;> exact ⟨_, rfl⟩

variable (absent : tree.pathExists (base.below [parkName]) = false)
variable (isRenamed : tree.rename (base.below source.segments)
  (base.below [parkName]) = .ok parked)

include absent isRenamed

/-- A parked directory goes to its new path. -/
theorem movePackage_of_placed
    (isPlaced : placeDirectory (base.below [parkName])
      (base.below target.segments)
      (pruneAbove base (base.below source.segments) parked) =
        (.ok (), placed)) :
    movePackage base source target tree = .succeed placed true := by
  have isNested := (nested_iff sourcePlain targetPlain different).mpr nested
  have isParked : base.join (Path.ofString stagingName) =
      base.below [parkName] := rfl
  rw [PackageRename.movePackage, isParked]
  simp only [isDirectory, ↓reduceIte, if_pos isNested]
  rw [Identifier.directoryIn_eq_below sourcePlain,
    Identifier.directoryIn_eq_below targetPlain]
  simp only [absent, isRenamed, isPlaced]
  rfl

/-- A parked directory that cannot go to its new path goes back to its old
one. -/
theorem movePackage_of_unplaced
    (refused : placeDirectory (base.below [parkName])
      (base.below target.segments)
      (pruneAbove base (base.below source.segments) parked) =
        (.error fault, reached)) :
    (movePackage base source target tree).answer =
        .error (.move (base.below source.segments)
          (base.below target.segments) fault) ∧
      (movePackage base source target tree).tree =
        (placeDirectory (base.below [parkName]) (base.below source.segments)
          reached).2 ∧
      ((placeDirectory (base.below [parkName]) (base.below source.segments)
          reached).1 = .ok () →
        (movePackage base source target tree).log = []) := by
  have isNested := (nested_iff sourcePlain targetPlain different).mpr nested
  have isParked : base.join (Path.ofString stagingName) =
      base.below [parkName] := rfl
  rw [PackageRename.movePackage, isParked]
  simp only [isDirectory, ↓reduceIte, if_pos isNested]
  rw [Identifier.directoryIn_eq_below sourcePlain,
    Identifier.directoryIn_eq_below targetPlain]
  simp only [absent, isRenamed, refused]
  refine ⟨rfl, rfl, fun restored => ?_⟩
  simp only [Bool.false_eq_true, ↓reduceIte, restored]

end Routes

/-! ### Parking -/

theorem IsGround.pruneAbove (ground : tree.IsGround base place)
    {front : List Name} {last : Name} (plain : Path.ArePlain (front ++ [last]))
    (fits : (base.below front).bytes.length ≤ pathLimit)
    (directory : tree.hasDirectory (place ++ front) = true) :
    tree.HasPruned place (place ++ front)
      (pruneAbove base (base.below (front ++ [last])) tree) := by
  rw [PackageRename.pruneAbove, Path.ancestors_below ground.written plain]
  exact ground.pruneAlong fits directory

/-- Parking a directory and pruning behind it. -/
theorem IsGround.park (ground : tree.IsGround base place) {front : List Name}
    {last : Name}
    (fits : (base.below (front ++ [last])).bytes.length ≤ pathLimit)
    (directory : tree.hasDirectory (place ++ (front ++ [last])) = true)
    (apart : Apart (front ++ [last]) [parkName])
    (parkFits : (base.below [parkName]).bytes.length ≤ pathLimit)
    (free : tree.node? (place ++ [parkName]) = none) :
    ∃ parked, tree.rename (base.below (front ++ [last]))
        (base.below [parkName]) = .ok parked ∧
      tree.HasMoved (place ++ (front ++ [last])) (place ++ [parkName]) parked ∧
      parked.HasPruned place (place ++ front)
        (PackageRename.pruneAbove base (base.below (front ++ [last])) parked) ∧
      (PackageRename.pruneAbove base (base.below (front ++ [last]))
        parked).IsGround base place ∧
      (PackageRename.pruneAbove base (base.below (front ++ [last]))
        parked).hasDirectory (place ++ [parkName]) = true := by
  have plain := ground.plain_names (hasDirectory_isSome directory)
  have parkPlain : Path.ArePlain ([] ++ [parkName]) :=
    Path.arePlain_singleton parkName_isLegal.plain
  have placeDirectory : tree.hasDirectory (place ++ []) = true := by
    rw [List.append_nil]
    exact ground.directory
  have renamed := ground.rename fits directory parkPlain parkFits
    placeDirectory apart
  have replaces : tree.checkReplaced .made (place ++ ([] ++ [parkName])) =
      .ok () :=
    checkReplaced_made_eq_ok.mpr (.inl free)
  rw [if_neg (Nat.not_lt.mpr parkName_isLegal.fits), replaces] at renamed
  have apartTop : Apart (place ++ (front ++ [last]))
      ((place ++ []) ++ [parkName]) := by
    rw [List.append_nil]
    exact Apart.append_left.mpr apart
  have isMoved := hasMoved_move (hasDirectory_isSome directory) placeDirectory
    apartTop
  rw [List.append_nil] at isMoved
  simp only [List.nil_append, List.append_nil, Except.bind] at renamed
  refine ⟨_, renamed, isMoved, ?_⟩
  generalize (tree.remove (place ++ [parkName])).move
    (place ++ (front ++ [last])) place parkName = parked at isMoved
  have parkedGround := isMoved.isGround ground (by simp) (by simp)
    (fun name member => List.mem_singleton.mp member ▸ parkName_isLegal)
  have parent : parked.hasDirectory (place ++ front) = true := by
    rw [Tree.hasDirectory, isMoved.kept]
    · exact hasDirectory_upward directory (by simp)
    · rw [List.prefix_append_right_inj]
      exact fun isPrefix => apart.2 (isPrefix.trans (List.prefix_append _ _))
    · simp
  have isPruned := parkedGround.pruneAbove plain
    (Nat.le_trans (Path.length_below_le_append plain) fits) parent
  refine ⟨isPruned, isPruned.isGround parkedGround, ?_⟩
  have arrived := isMoved.arrived []
  rw [List.append_nil, List.append_nil] at arrived
  rw [Tree.hasDirectory, isPruned.kept, arrived]
  · exact directory
  · intro isBarren
    have above := isBarren.above
    rw [List.prefix_append_right_inj] at above
    exact apart.2 (above.trans (List.prefix_append _ _))

/-- Only a place that is free is a place to park at. -/
theorem IsGround.parks (ground : tree.IsGround base place)
    (absent : tree.pathExists (base.below [parkName]) = false)
    (isRenamed : tree.rename (base.below source) (base.below [parkName]) =
      .ok parked) :
    (base.below [parkName]).bytes.length ≤ pathLimit ∧
      tree.node? (place ++ [parkName]) = none := by
  have plain : Path.ArePlain ([] ++ [parkName]) :=
    Path.arePlain_singleton parkName_isLegal.plain
  have fits : (base.below [parkName]).bytes.length ≤ pathLimit := by
    by_contra long
    obtain ⟨fault, refused⟩ := ground.rename_of_long source plain
      (Nat.lt_of_not_le long)
    rw [List.nil_append, isRenamed] at refused
    cases refused
  refine ⟨fits, ?_⟩
  cases isNode : tree.node? (place ++ [parkName]) with
  | none => rfl
  | some node =>
      have present := (ground.pathExists plain).mpr
        ⟨fits, by rw [List.nil_append, isNode]; rfl⟩
      rw [List.nil_append, absent] at present
      cases present

/-! ### Moving -/

section Package

variable {source target : Identifier}
variable (ground : tree.IsGround base place)
variable (sourcePlain : source.HasPlainSegments)
variable (targetPlain : target.HasPlainSegments) (different : source ≠ target)
variable (isDirectory : tree.isDirectory (source.directoryIn base) = true)

include ground sourcePlain targetPlain different isDirectory

theorem IsGround.movePackage_of_apart
    (apart : Apart source.segments target.segments)
    (can : tree.CanPlace base place target.segments) :
    ∃ final, PackageRename.movePackage base source target tree =
        .succeed final true ∧
      tree.HasRelocated place (place ++ source.segments)
        (place ++ target.segments) final ∧
      final.IsGround base place := by
  have route := Tree.movePackage_of_apart sourcePlain targetPlain different
    isDirectory apart
  rw [Identifier.directoryIn_eq_below sourcePlain] at isDirectory
  obtain ⟨fits, directory⟩ := (ground.isDirectory sourcePlain).mp isDirectory
  obtain ⟨front, last, isSource⟩ := source.segments_eq_concat
  rw [Identifier.HasPlainSegments] at sourcePlain
  rw [isSource] at route apart fits directory sourcePlain ⊢
  obtain ⟨placed, isPlacedTree, isPlaced, placedGround⟩ :=
    ground.placeDirectory targetPlain apart fits directory can
  have parent : placed.hasDirectory (place ++ front) = true := by
    by_cases onWay : front <+: target.segments
    · apply isPlaced.above
      · exact (List.prefix_append_right_inj _).mpr onWay
      · rw [ne_eq, List.append_cancel_left_eq]
        intro same
        exact apart.2 (same ▸ List.prefix_append _ _)
    · rw [Tree.hasDirectory, isPlaced.kept]
      · exact hasDirectory_upward directory (by simp)
      · rw [List.prefix_append_right_inj]
        exact fun isPrefix =>
          apart.2 (isPrefix.trans (List.prefix_append _ _))
      · rw [List.prefix_append_right_inj]
        exact onWay
      · simp
  have isPruned := placedGround.pruneAbove sourcePlain
    (Nat.le_trans (Path.length_below_le_append sourcePlain) fits) parent
  refine ⟨_, ?_, ?_, isPruned.isGround placedGround⟩
  · simp only [route, isPlacedTree]
  · rw [← List.append_assoc] at directory isPlaced ⊢
    refine hasRelocated_of_placed isPlaced ?_ directory isPruned
    rw [List.append_assoc]
    exact Apart.append_left.mpr apart

theorem IsGround.movePackage_of_nested
    (nested : Nested source.segments target.segments)
    (can : tree.CanMove base place source.segments target.segments) :
    ∃ final, PackageRename.movePackage base source target tree =
        .succeed final true ∧
      tree.HasRelocated place (place ++ source.segments)
        (place ++ target.segments) final ∧
      final.IsGround base place := by
  obtain ⟨parkFits, free⟩ := can.parks nested
  have absent : tree.pathExists (base.below [parkName]) = false := by
    rw [Bool.eq_false_iff, ne_eq,
      ground.pathExists (Path.arePlain_singleton parkName_isLegal.plain), free]
    simp
  have route := fun (parked placed : Tree) isRenamed isPlaced =>
    @movePackage_of_placed tree parked placed base source target sourcePlain
      targetPlain different isDirectory nested absent isRenamed isPlaced
  rw [Identifier.directoryIn_eq_below sourcePlain] at isDirectory
  obtain ⟨fits, directory⟩ := (ground.isDirectory sourcePlain).mp isDirectory
  have apartPark := (apart_park source).symm
  obtain ⟨front, last, isSource⟩ := source.segments_eq_concat
  rw [isSource] at route can nested fits directory apartPark ⊢
  obtain ⟨parked, isRenamed, isMoved, isPruned, bareGround, parkDirectory⟩ :=
    ground.park fits directory apartPark parkFits free
  obtain ⟨placed, isPlacedTree, isPlaced, placedGround⟩ :=
    bareGround.placeDirectory targetPlain (apart_park target) parkFits
      parkDirectory (canPlace_of_canMove (apart_park target) isMoved isPruned
        can)
  refine ⟨placed, route parked placed isRenamed isPlacedTree, ?_,
    placedGround⟩
  rw [← List.append_assoc] at isMoved ⊢
  refine hasRelocated_of_parked ?_ free isMoved ?_ isPruned isPlaced
  · rw [List.append_assoc]
    exact Apart.append_left.mpr apartPark
  · rw [List.append_assoc]
    exact Nested.append_left.mpr nested

/-- Where it can be moved, the directory of a package is. -/
theorem IsGround.movePackage
    (can : tree.CanMove base place source.segments target.segments) :
    ∃ final, PackageRename.movePackage base source target tree =
        .succeed final true ∧
      tree.HasRelocated place (place ++ source.segments)
        (place ++ target.segments) final ∧
      final.IsGround base place := by
  by_cases nested : Nested source.segments target.segments
  · exact ground.movePackage_of_nested sourcePlain targetPlain different
      isDirectory nested can
  · have apart := apart_of_not_nested nested
    exact ground.movePackage_of_apart sourcePlain targetPlain different
      isDirectory apart ((canMove_iff_of_apart apart).mp can)

theorem IsGround.canMove_of_nested {moved : Bool}
    (nested : Nested source.segments target.segments)
    (answered : (PackageRename.movePackage base source target tree).answer =
      .ok moved) :
    tree.CanMove base place source.segments target.segments := by
  have parking := movePackage_of_unparked sourcePlain targetPlain different
    isDirectory nested
  cases absent : tree.pathExists (base.below [parkName]) with
  | true =>
      obtain ⟨error, failed⟩ := parking (.inl absent)
      rw [failed] at answered
      cases answered
  | false =>
      cases isRenamed : tree.rename (base.below source.segments)
          (base.below [parkName]) with
      | error fault =>
          obtain ⟨error, failed⟩ := parking (.inr ⟨fault, isRenamed⟩)
          rw [failed] at answered
          cases answered
      | ok parked =>
          have unplaced := fun (fault : Fault) (reached : Tree) refused =>
            (@movePackage_of_unplaced tree parked base source target fault
              reached sourcePlain targetPlain different isDirectory nested
              absent isRenamed refused).1
          obtain ⟨parkFits, free⟩ := ground.parks absent isRenamed
          rw [Identifier.directoryIn_eq_below sourcePlain] at isDirectory
          obtain ⟨fits, directory⟩ :=
            (ground.isDirectory sourcePlain).mp isDirectory
          have apartPark := (apart_park source).symm
          obtain ⟨front, last, isSource⟩ := source.segments_eq_concat
          rw [isSource] at isRenamed unplaced nested fits directory apartPark ⊢
          obtain ⟨_, isParked, isMoved, isPruned, bareGround, parkDirectory⟩ :=
            ground.park fits directory apartPark parkFits free
          obtain rfl := Except.ok.inj (isRenamed.symm.trans isParked)
          rcases isPlaced : PackageRename.placeDirectory
              (base.below [parkName]) (base.below target.segments)
              (PackageRename.pruneAbove base (base.below (front ++ [last]))
                parked) with ⟨ending, reached⟩
          cases ending with
          | error fault =>
              rw [unplaced fault reached isPlaced] at answered
              cases answered
          | ok done =>
              exact canMove_of_canPlace nested (apart_park target) directory
                isMoved isPruned ⟨parkFits, free⟩
                (bareGround.canPlace targetPlain (apart_park target) parkFits
                  parkDirectory (by rw [isPlaced]))

/-- The directory of a package that is moved could be. -/
theorem IsGround.canMove {moved : Bool}
    (answered : (PackageRename.movePackage base source target tree).answer =
      .ok moved) :
    tree.CanMove base place source.segments target.segments := by
  by_cases nested : Nested source.segments target.segments
  · exact ground.canMove_of_nested sourcePlain targetPlain different isDirectory
      nested answered
  · have apart := apart_of_not_nested nested
    rw [Tree.movePackage_of_apart sourcePlain targetPlain different isDirectory
      apart] at answered
    rw [Identifier.directoryIn_eq_below sourcePlain] at isDirectory
    obtain ⟨fits, directory⟩ := (ground.isDirectory sourcePlain).mp isDirectory
    rcases isPlaced : PackageRename.placeDirectory
        (base.below source.segments) (base.below target.segments) tree with
      ⟨ending, reached⟩
    rw [isPlaced] at answered
    cases ending with
    | error fault => cases answered
    | ok done =>
        exact (canMove_iff_of_apart apart).mpr
          (ground.canPlace targetPlain apart fits directory (by rw [isPlaced]))

end Package

end Tree

end PackageRename
