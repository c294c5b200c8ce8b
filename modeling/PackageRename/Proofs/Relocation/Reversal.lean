import PackageRename.Proofs.Relocation.Package
import PackageRename.Proofs.Relocation.Return
import PackageRename.Proofs.Tree.Finding

/-!
# There and back

Moving a package directory back undoes the move, whether the names are nested or
not, as long as no empty directory has been on the way.  Directories that the
move has pruned are made anew.
-/

namespace PackageRename

theorem View.revise_id (view : View) : view.revise id = view := by
  funext names
  rw [revise]
  cases view names with
  | none => rfl
  | some node => cases node <;> rfl

namespace Tree

variable {tree there back : Tree} {base : Path} {place : Place}
variable {source target : List Name}

theorem exists_child_of_not_empty (directory : tree.hasDirectory place = true)
    (filled : tree.isEmptyDirectory place = false) :
    ∃ name, (tree.node? (place ++ [name])).isSome := by
  by_contra childless
  have empty : tree.isEmptyDirectory place = true := by
    refine isEmptyDirectory_iff.mpr ⟨directory, fun rest nonempty => ?_⟩
    obtain ⟨name, more, rfl⟩ := List.exists_cons_of_ne_nil nonempty
    rw [← Option.not_isSome_iff_eq_none]
    intro present
    refine childless ⟨name, ?_⟩
    rw [← List.singleton_append, ← List.append_assoc] at present
    exact isSome_of_isSome_append present
  rw [filled] at empty
  cases empty

theorem CanMove.isReturn (can : tree.CanMove base place source target)
    (filled : ∀ front, front <+: target → front ≠ [] →
      tree.isEmptyDirectory (place ++ front) = false) :
    (tree.view place).IsReturn source target where
  opened front above outside :=
    (can.opened front above outside).imp_right hasDirectory_view.mpr
  vacant := can.vacant
  filled front above nonempty isDirectory := by
    obtain ⟨name, present⟩ := exists_child_of_not_empty
      (hasDirectory_view.mp isDirectory) (filled front above nonempty)
    exact ⟨name, by rwa [view, ← List.append_assoc]⟩

/-- Two moves, there and back, leave everything where it was.  Only what has
been pruned is new. -/
theorem HasRelocated.hasRemade_of_back
    (relocated : tree.HasRelocated place (place ++ source) (place ++ target)
      there)
    (returned : there.HasRelocated place (place ++ target) (place ++ source)
      back)
    (root : tree.hasDirectory place = true)
    (thereRoot : there.hasDirectory place = true)
    (directory : tree.hasDirectory (place ++ source) = true)
    (someTarget : target ≠ [])
    (isReturn : (tree.view place).IsReturn source target) :
    tree.HasRemade (tree.IsPruned place (place ++ source) (place ++ target))
      back := by
  obtain ⟨remade, kept⟩ := View.Relocates.trans_back isStanding_view
    (hasDirectory_view.mpr directory) someTarget isReturn relocated.relocates
    returned.relocates
  refine ⟨returned.origin.trans relocated.origin, fun other isPruned => ?_,
    fun other spared => ?_⟩
  · obtain ⟨names, rfl⟩ := isPruned.deserted.inside.1
    exact remade names (isPruned_view.mpr isPruned)
  · by_cases below : place <+: other
    · obtain ⟨names, rfl⟩ := below
      exact kept names fun isPruned => spared (isPruned_view.mp isPruned)
    · rw [returned.outside thereRoot below, relocated.outside root below]

/-- A package that has been moved can be moved back, and then nothing has
changed, except that the directories that the first move has pruned are new
ones. -/
theorem movePackage_returns (ground : tree.IsGround base place)
    {source target : Identifier} (sourcePlain : source.HasPlainSegments)
    (targetPlain : target.HasPlainSegments) (different : source ≠ target)
    (filled : ∀ front, front <+: target.segments → front ≠ [] →
      tree.isEmptyDirectory (place ++ front) = false)
    (moved : (movePackage base source target tree).answer = .ok true) :
    (movePackage base target source
        (movePackage base source target tree).tree).answer = .ok true ∧
      (movePackage base target source
        (movePackage base source target tree).tree).log = [] ∧
      tree.HasRemade (tree.IsPruned place (place ++ source.segments)
          (place ++ target.segments))
        (movePackage base target source
          (movePackage base source target tree).tree).tree := by
  have isDirectory : tree.isDirectory (source.directoryIn base) = true := by
    by_contra missing
    rw [movePackage_of_missing (Bool.eq_false_iff.mpr missing)] at moved
    cases moved
  have can := ground.canMove sourcePlain targetPlain different isDirectory moved
  obtain ⟨there, isThere, relocated, thereGround⟩ :=
    ground.movePackage sourcePlain targetPlain different isDirectory can
  rw [Identifier.directoryIn_eq_below sourcePlain] at isDirectory
  obtain ⟨fits, directory⟩ := (ground.isDirectory sourcePlain).mp isDirectory
  have relocates : View.Relocates source.segments target.segments
      ((tree.view place).revise id) (there.view place) := by
    rw [View.revise_id]
    exact relocated.relocates
  have canBack : there.CanMove base place target.segments source.segments :=
    can.back directory relocates
      (ground.short_names (hasDirectory_isSome directory)) fits
      (apart_park source) (apart_park target)
  have arrived : there.hasDirectory (place ++ target.segments) = true := by
    have isArrived := relocated.arrived []
    rw [List.append_nil, List.append_nil] at isArrived
    rw [hasDirectory, isArrived]
    exact directory
  have thereDirectory : there.isDirectory (target.directoryIn base) = true := by
    rw [Identifier.directoryIn_eq_below targetPlain]
    exact (thereGround.isDirectory targetPlain).mpr ⟨can.fits, arrived⟩
  obtain ⟨back, isBack, returned, -⟩ := thereGround.movePackage targetPlain
    sourcePlain different.symm thereDirectory canBack
  have isTree : (movePackage base source target tree).tree = there := by
    rw [isThere]
    rfl
  rw [isTree, isBack]
  exact ⟨rfl, rfl, relocated.hasRemade_of_back returned ground.directory
    thereGround.directory directory (apart_park target).nonempty_right
    (can.isReturn filled)⟩

/-- A package goes into its own directory and comes back. -/
theorem movePackage_returns_from_inside :
    (movePackage (Path.ofString "l/smali/") ⟨"com.app.ui.v2"⟩ ⟨"com.app"⟩
        (movePackage (Path.ofString "l/smali/") ⟨"com.app"⟩ ⟨"com.app.ui.v2"⟩
          linkedPackage).tree).answer = .ok true ∧
      (movePackage (Path.ofString "l/smali/") ⟨"com.app.ui.v2"⟩ ⟨"com.app"⟩
        (movePackage (Path.ofString "l/smali/") ⟨"com.app"⟩ ⟨"com.app.ui.v2"⟩
          linkedPackage).tree).tree = linkedPackage := by
  have filled : ∀ front ∈ (⟨"com.app.ui.v2"⟩ : Identifier).segments.inits,
      front ≠ [] → linkedPackage.isEmptyDirectory
        ([Utf8.encode "p", Utf8.encode "smali"] ++ front) = false := by
    decide +kernel
  obtain ⟨answered, -, isRemade⟩ := @movePackage_returns linkedPackage
    (Path.ofString "l/smali/") _ linkedPackage_isGround ⟨"com.app"⟩
    ⟨"com.app.ui.v2"⟩ (by decide +kernel) (by decide +kernel) (by decide)
    (fun front above => filled front ((List.mem_inits _ _).mpr above))
    (by decide +kernel)
  refine ⟨answered, isRemade.eq_of_made fun other gone => ?_⟩
  -- The directories above the package have the mode of new ones.
  have wereMade : ∀ other ∈ ([Utf8.encode "p", Utf8.encode "smali",
      Utf8.encode "com", Utf8.encode "app"] : Place).inits,
      linkedPackage.node? other = some .made := by
    decide +kernel
  exact wereMade other ((List.mem_inits _ _).mpr gone.deserted.above)

/-- A base that is looked up through the package directory is lost by the move,
so there is no way back.  And a directory that has been pruned comes back open
to all. -/
theorem movePackage_stays_on_detour :
    (lonePackage.LeadsInto (Path.ofString "p/smali/com/app/../..")
        [Utf8.encode "p", Utf8.encode "smali"] ∧
      lonePackage.node? [Utf8.encode "p", Utf8.encode "smali",
        Utf8.encode "org"] = none ∧
      (movePackage (Path.ofString "p/smali/com/app/../..") ⟨"com.app"⟩
        ⟨"org.x"⟩ lonePackage).answer = .ok true ∧
      (movePackage (Path.ofString "p/smali/com/app/../..") ⟨"org.x"⟩
        ⟨"com.app"⟩ (movePackage (Path.ofString "p/smali/com/app/../..")
          ⟨"com.app"⟩ ⟨"org.x"⟩ lonePackage).tree).answer = .ok false) ∧
    (guardedPackage.LeadsInto (Path.ofString "p/smali")
        [Utf8.encode "p", Utf8.encode "smali"] ∧
      guardedPackage.node? [Utf8.encode "p", Utf8.encode "smali",
        Utf8.encode "org"] = none ∧
      (movePackage (Path.ofString "p/smali") ⟨"com.app.x.ui"⟩ ⟨"org.x"⟩
        guardedPackage).answer = .ok true ∧
      (movePackage (Path.ofString "p/smali") ⟨"org.x"⟩ ⟨"com.app.x.ui"⟩
        (movePackage (Path.ofString "p/smali") ⟨"com.app.x.ui"⟩ ⟨"org.x"⟩
          guardedPackage).tree).tree ≠ guardedPackage) := by
  refine ⟨⟨leadsInto_of_nodes ?_ ?_ ?_ ?_, ?_, ?_, ?_⟩,
    leadsInto_of_nodes ?_ ?_ ?_ ?_, ?_, ?_, fun same => ?remade⟩
  case remade =>
    have remade := congrArg (fun tree : Tree => tree.node?
      [Utf8.encode "p", Utf8.encode "smali", Utf8.encode "com",
        Utf8.encode "app", Utf8.encode "x"]) same
    revert remade
    decide +kernel
  all_goals decide +kernel

end Tree

end PackageRename
