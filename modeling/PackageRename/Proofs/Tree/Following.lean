import PackageRename.Proofs.Tree.Reshaping

/-!
# Following files through a move

Operations on directories take files to other places and leave their contents
alone.  A file can be lost only where something that is no directory takes its
place: a link to the directory of a package is moved as the link that it is.
-/

namespace PackageRename

namespace Tree

variable {tree reached after : Tree} {path source target : Path}

/-! ### Where things are taken -/

/-- Where a rename between two slots takes what stands at a place: nowhere, if
its place is taken by what is renamed. -/
def Slot.carry (old new : Slot) (place : Place) : Option Place :=
  if old.place <+: place then
    some (new.place ++ place.drop old.place.length)
  else if new.place <+: place then none
  else some place

/-- Where a rename takes what stands at a place.  One that fails, or that finds
two names of one node, takes it nowhere else. -/
def followRename (tree : Tree) (source target : Path) (place : Place) :
    Option Place :=
  match tree.rename source target, tree.slot source, tree.slot target with
  | .ok _, .ok old, .ok new =>
      if old.place = new.place ∨ (tree.node? old.place).any fun moved =>
          tree.sharesNode moved new.place then
        some place
      else
        old.carry new place
  | _, _, _ => some place

/-- Where placing a directory takes what stands at a place. -/
def followPlacing (tree : Tree) (source target : Path) (place : Place) :
    Option Place :=
  match tree.withParent target with
  | (.ok (), reached) => reached.followRename source target place
  | (.error _, _) => some place

/-- Where moving a package takes what stands at a place. -/
def followPackage (tree : Tree) (base : Path) (source target : Identifier)
    (place : Place) : Option Place :=
  let old := source.directoryIn base
  let new := target.directoryIn base
  if tree.isDirectory old then
    if source.isAncestorOf target || target.isAncestorOf source then
      let staging := base.join (Path.ofString stagingName)
      if tree.pathExists staging then some place
      else
        match tree.rename old staging with
        | .error _ => some place
        | .ok parked =>
            let pruned := pruneAbove base old parked
            let placed := (tree.followRename old staging place).bind
              (pruned.followPlacing staging new)
            match placeDirectory staging new pruned with
            | (.ok (), _) => placed
            | (.error _, reached) =>
                placed.bind (reached.followPlacing staging old)
    else
      tree.followPlacing old new place
  else
    some place

/-! ### Files are carried along -/

/-- The files of one tree are those of another, carried to other places. -/
structure CarriesFiles (tree : Tree) (carry : Place → Option Place)
    (after : Tree) : Prop where
  arrives : ∀ {place file next}, tree.node? place = some (.file file) →
    carry place = some next → after.node? next = some (.file file)
  comes : ∀ {next file}, after.node? next = some (.file file) →
    ∃ place, carry place = some next ∧ tree.node? place = some (.file file)

namespace CarriesFiles

theorem refl (tree : Tree) : tree.CarriesFiles some tree where
  arrives isFile isNext := Option.some.inj isNext ▸ isFile
  comes isFile := ⟨_, rfl, isFile⟩

theorem trans {carry further : Place → Option Place}
    (first : tree.CarriesFiles carry reached)
    (second : reached.CarriesFiles further after) :
    tree.CarriesFiles (fun place => (carry place).bind further) after where
  arrives isFile isNext := by
    obtain ⟨between, isBetween, isNext⟩ := Option.bind_eq_some_iff.mp isNext
    exact second.arrives (first.arrives isFile isBetween) isNext
  comes isFile := by
    obtain ⟨between, isNext, isBetween⟩ := second.comes isFile
    obtain ⟨place, carried, wasFile⟩ := first.comes isBetween
    exact ⟨place, Option.bind_eq_some_iff.mpr ⟨between, carried, isNext⟩,
      wasFile⟩

theorem of_same (same : ∀ place file, after.node? place = some (.file file) ↔
    tree.node? place = some (.file file)) : tree.CarriesFiles some after where
  arrives isFile isNext := Option.some.inj isNext ▸ (same _ _).mpr isFile
  comes isFile := ⟨_, rfl, (same _ _).mp isFile⟩

theorem congr {carry other : Place → Option Place}
    (carries : tree.CarriesFiles carry after)
    (same : ∀ place, other place = carry place) :
    tree.CarriesFiles other after := by
  rwa [funext same]

end CarriesFiles

theorem DirectoryStep.carriesFiles (step : tree.DirectoryStep after) :
    tree.CarriesFiles some after := by
  refine .of_same fun place file => ?_
  cases step with
  | @make parent name directory legal free =>
      rw [node?_insert directory free]
      split
      · rename_i isPlace
        rw [isPlace, free]
        exact ⟨nofun, nofun⟩
      · rfl
  | @remove slot empty =>
      rw [node?_remove (by simp [Slot.place])]
      split
      · rename_i below
        obtain ⟨rest, rfl⟩ := below
        obtain ⟨directory, nothing⟩ := isEmptyDirectory_iff.mp empty
        refine ⟨nofun, fun isFile => ?_⟩
        by_cases atPlace : rest = []
        · rw [atPlace, List.append_nil] at isFile
          rw [Tree.hasDirectory, isFile] at directory
          cases directory
        · rw [nothing rest atPlace] at isFile
          cases isFile
      · rfl

theorem DirectorySteps.carriesFiles (steps : tree.DirectorySteps after) :
    tree.CarriesFiles some after := by
  induction steps with
  | refl => exact .refl tree
  | tail _ step induction => exact induction.trans step.carriesFiles

/-- Making and removing directories takes files nowhere. -/
theorem CarriesFiles.steps {carry : Place → Option Place}
    (carries : tree.CarriesFiles carry reached)
    (steps : reached.DirectorySteps after) : tree.CarriesFiles carry after :=
  (carries.trans steps.carriesFiles).congr fun place => by
    cases carry place <;> rfl

theorem Renames.carriesFiles {old new : Slot} {moved : Node}
    (renames : Renames tree old new moved after) :
    tree.CarriesFiles (old.carry new) after where
  arrives := by
    intro place file next isFile isNext
    rw [Slot.carry] at isNext
    rw [renames.hasMoved.node?]
    split at isNext
    · rename_i below
      obtain ⟨rest, rfl⟩ := below
      rw [List.drop_left, Option.some.injEq] at isNext
      rw [← isNext, if_pos (List.prefix_append _ _), List.drop_left, isFile]
    · rename_i notMoved
      split at isNext
      · cases isNext
      · rename_i notReplaced
        cases isNext
        rw [if_neg notReplaced, if_neg notMoved, isFile]
  comes := by
    intro next file isFile
    rw [renames.hasMoved.node?] at isFile
    split at isFile
    · rename_i below
      obtain ⟨rest, rfl⟩ := below
      rw [List.drop_left] at isFile
      refine ⟨_, ?_, isFile⟩
      rw [Slot.carry, if_pos (List.prefix_append _ _), List.drop_left]
    · rename_i notReplaced
      split at isFile
      · cases isFile
      · rename_i notMoved
        refine ⟨next, ?_, isFile⟩
        rw [Slot.carry, if_neg notMoved, if_neg notReplaced]

/-! ### The move of a package -/

theorem carriesFiles_rename (renamed : tree.rename source target = .ok after) :
    tree.CarriesFiles (tree.followRename source target) after := by
  obtain ⟨old, new, moved, foundOld, foundNew, isOld, found⟩ :=
    rename_eq_ok renamed
  have follows : ∀ place, tree.followRename source target place =
      if old.place = new.place ∨ tree.sharesNode moved new.place = true then
        some place
      else old.carry new place := by
    intro place
    rw [followRename, renamed, foundOld, foundNew]
    simp only [isOld, Option.any_some]
  split at found
  · rename_i same
    rw [found]
    exact (CarriesFiles.refl tree).congr fun place => by
      rw [follows, if_pos same]
  · rename_i different
    exact found.carriesFiles.congr fun place => by
      rw [follows, if_neg different]

theorem carriesFiles_placeDirectory (source target : Path) (tree : Tree) :
    tree.CarriesFiles (tree.followPlacing source target)
      (placeDirectory source target tree).2 := by
  have makes := (steps_withParent tree target).carriesFiles
  rw [placeDirectory_eq]
  rcases isMade : tree.withParent target with ⟨made, reached⟩
  rw [isMade] at makes
  dsimp only
  cases made with
  | error fault =>
      exact makes.congr fun place => by rw [followPlacing, isMade]
  | ok done =>
      have follows : ∀ place, tree.followPlacing source target place =
          reached.followRename source target place := fun place => by
        rw [followPlacing, isMade]
      dsimp only
      split
      · rename_i renamed isRenamed
        exact (makes.trans (carriesFiles_rename isRenamed)).congr follows
      · rename_i fault isFault
        exact makes.congr fun place => by
          rw [follows, followRename, isFault]

/-- Whatever comes of moving a package, its files can be followed. -/
theorem carriesFiles_movePackage (base : Path) (source target : Identifier)
    (tree : Tree) :
    tree.CarriesFiles (tree.followPackage base source target)
      (movePackage base source target tree).tree := by
  unfold movePackage followPackage
  dsimp only
  split
  case isFalse => exact .refl tree
  split
  · split
    · exact .refl tree
    cases isParked : tree.rename (source.directoryIn base)
      (base.join (Path.ofString stagingName)) with
    | error fault => exact .refl tree
    | ok parked =>
        have prunes := (carriesFiles_rename isParked).steps
          (steps_pruneAlong base (source.directoryIn base).ancestors parked)
        have places := prunes.trans (carriesFiles_placeDirectory
          (base.join (Path.ofString stagingName)) (target.directoryIn base) _)
        rw [← pruneAbove] at places
        dsimp only
        generalize isPlaced : placeDirectory
          (base.join (Path.ofString stagingName)) (target.directoryIn base)
          (pruneAbove base (source.directoryIn base) parked) = ending at places ⊢
        obtain ⟨_ | done, reached⟩ := ending
        · exact places.trans (carriesFiles_placeDirectory
            (base.join (Path.ofString stagingName)) (source.directoryIn base)
            reached)
        · exact places
  · have places := carriesFiles_placeDirectory (source.directoryIn base)
      (target.directoryIn base) tree
    split
    · rename_i placed isPlaced
      rw [isPlaced] at places
      exact places.steps (steps_pruneAlong _ _ _)
    · rename_i fault reached isPlaced
      rw [isPlaced] at places
      exact places

end Tree

end PackageRename
