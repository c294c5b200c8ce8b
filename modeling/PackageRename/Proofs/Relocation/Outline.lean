import PackageRename.Proofs.Tree.Reshaping

/-!
# Moves and the files of a tree

Operations on directories do not look into files: in a tree with changed files
they answer what they would have answered, and do to the directories what they
would have done.  The one exception is a rename between two names of one file,
which finds nothing to do; so the change must not hide or bring about that a
rename meets one.
-/

namespace PackageRename

namespace Tree

variable {tree reached : Tree} {change : File → File} {path base : Path}
variable {source target : Path} {place parent : Place} {name : Name}
variable {slot : Slot}

/-! ### The same checks in two trees -/

section Checks

variable {α β γ δ : Type} {image : α → β}

/-- What comes after a check is compared only if the check passes. -/
theorem check_map {refused : Prop} [Decidable refused] {fault : Fault}
    {next : PUnit → Except Fault α} {other : PUnit → Except Fault β}
    (same : ¬ refused → other () = (next ()).map image) :
    (if refused then (throw fault : Except Fault PUnit) >>= other
        else other ()) =
      (if refused then (throw fault : Except Fault PUnit) >>= next
        else next ()).map image := by
  split
  · rfl
  · rename_i passes
    exact same passes

theorem bind_map {action : Except Fault γ} {second : Except Fault δ}
    {shown : γ → δ} {next : γ → Except Fault α} {other : δ → Except Fault β}
    (answers : second = action.map shown)
    (same : ∀ value, action = .ok value →
      other (shown value) = (next value).map image) :
    (second >>= other) = (action >>= next).map image := by
  rw [answers]
  cases action with
  | error fault => rfl
  | ok value => exact same value rfl

end Checks

/-! ### Single operations -/

theorem insert_mapFiles (directory : tree.hasDirectory parent = true)
    (free : tree.node? (parent ++ [name]) = none) :
    (tree.mapFiles change).insert parent name .made =
      (tree.insert parent name .made).mapFiles change := by
  have origin : ((tree.mapFiles change).insert parent name .made).origin =
      (tree.insert parent name .made).origin := by
    rw [origin_insert, origin_insert]
    rfl
  refine eq_of_node? origin fun other => ?_
  rw [node?_mapFiles, node?_insert directory free, node?_insert
    ((hasDirectory_mapFiles parent).trans directory)
    (by rw [node?_mapFiles, free]; rfl), node?_mapFiles]
  split <;> rfl

theorem remove_mapFiles (removed : Place) :
    (tree.mapFiles change).remove removed =
      (tree.remove removed).mapFiles change := by
  by_cases atTop : removed = []
  · subst atTop
    rfl
  · have origin : ((tree.mapFiles change).remove removed).origin =
        (tree.remove removed).origin := by
      rw [origin_remove, origin_remove]
      rfl
    refine eq_of_node? origin fun other => ?_
    rw [node?_mapFiles, node?_remove atTop, node?_remove atTop,
      node?_mapFiles]
    split <;> rfl

@[simp]
theorem isEmptyDirectory_mapFiles (place : Place) :
    (tree.mapFiles change).isEmptyDirectory place =
      tree.isEmptyDirectory place := by
  rw [isEmptyDirectory, isEmptyDirectory, hasDirectory_mapFiles,
    childrenOf_mapFiles, List.isEmpty_map]

theorem slot_map_id (path : Path) :
    (tree.mapFiles change).slot path = (tree.slot path).map id := by
  rw [slot_mapFiles]
  cases tree.slot path <;> rfl

theorem nodeIn?_mapFiles (slot : Slot) :
    (tree.mapFiles change).nodeIn? slot =
      (tree.nodeIn? slot).map (Option.map (Node.mapFile change)) := by
  rw [nodeIn?, nodeIn?, node?_mapFiles]
  split <;> rfl

theorem makeDirectory_mapFiles (path : Path) :
    (tree.mapFiles change).makeDirectory path =
      (tree.makeDirectory path).map (·.mapFiles change) := by
  refine bind_map (slot_map_id path) fun slot found =>
    check_map fun _ => bind_map (nodeIn?_mapFiles slot) fun node isNode => ?_
  cases node with
  | some present => rfl
  | none =>
      exact congrArg Except.ok (insert_mapFiles (Slot.isOf found).directory
        (nodeIn?_eq_ok.mp isNode).2)

theorem removeDirectory_mapFiles (path : Path) :
    (tree.mapFiles change).removeDirectory path =
      (tree.removeDirectory path).map (·.mapFiles change) := by
  refine bind_map (slot_map_id path) fun slot _ => check_map fun _ =>
    check_map fun _ => check_map fun _ =>
    bind_map (nodeIn?_mapFiles slot) fun node _ => ?_
  cases node with
  | none => rfl
  | some present =>
      cases present with
      | file present => rfl
      | link target share => rfl
      | directory mode =>
          simp only [id, Option.map_some, Node.mapFile,
            isEmptyDirectory_mapFiles]
          split
          · exact congrArg Except.ok (remove_mapFiles slot.place)
          · rfl

/-! ### Renames -/

theorem checkReplaced_mapFiles (moved : Node) (place : Place) :
    (tree.mapFiles change).checkReplaced (moved.mapFile change) place =
      (tree.checkReplaced moved place).map id := by
  rw [Except.map_id]
  unfold checkReplaced
  simp only [node?_mapFiles, isEmptyDirectory_mapFiles]
  cases tree.node? place with
  | none => rfl
  | some node => cases node <;> cases moved <;> rfl

theorem isDirectory_mapFile (moved : Node) :
    (moved.mapFile change).isDirectory = moved.isDirectory := by
  cases moved <;> rfl

theorem move_mapFiles {old : Place}
    (present : (tree.node? old).isSome = true)
    (directory : tree.hasDirectory parent = true)
    (apart : Apart old (parent ++ [name])) :
    ((tree.mapFiles change).remove (parent ++ [name])).move old parent name =
      ((tree.remove (parent ++ [name])).move old parent name).mapFiles
        change := by
  have moved := hasMoved_move present directory apart
  have movedAlike : (tree.mapFiles change).HasMoved old (parent ++ [name]) _ :=
    hasMoved_move (by rwa [node?_mapFiles, Option.isSome_map])
      ((hasDirectory_mapFiles parent).trans directory) apart
  refine eq_of_node? (movedAlike.origin.trans moved.origin.symm) fun other => ?_
  rw [node?_mapFiles, moved.node?, movedAlike.node?, node?_mapFiles,
    node?_mapFiles]
  split
  · rfl
  · split <;> rfl

/-- The change does not matter for whether a rename finds two names of one
node. -/
def SharesAlike (tree : Tree) (change : File → File) (source target : Path) :
    Prop :=
  ∀ old new moved, tree.slot source = .ok old → tree.slot target = .ok new →
    tree.node? old.place = some moved → old.place ≠ new.place →
    (tree.mapFiles change).sharesNode (moved.mapFile change) new.place =
      tree.sharesNode moved new.place

theorem rename_mapFiles (alike : tree.SharesAlike change source target) :
    (tree.mapFiles change).rename source target =
      (tree.rename source target).map (·.mapFiles change) := by
  rw [rename, rename]
  refine check_map fun _ => bind_map (slot_map_id source) fun old foundOld =>
    bind_map (slot_map_id target) fun new foundNew => check_map fun _ =>
    bind_map (nodeIn?_mapFiles old) fun node isOld => ?_
  cases node with
  | none => rfl
  | some moved =>
      refine bind_map (nodeIn?_mapFiles new) fun other _ => ?_
      rw [isDirectory_mapFile]
      refine check_map fun _ => check_map fun notInto =>
        check_map fun notAbove => ?_
      rw [List.isPrefixOf_iff_prefix] at notInto notAbove
      have isMoved := (nodeIn?_eq_ok.mp isOld).2
      by_cases same : old.place = new.place
      · simp only [id, same, true_or, if_true]
        rfl
      · simp only [id, same, false_or,
          alike old new moved foundOld foundNew isMoved same]
        split
        · rfl
        · refine bind_map (checkReplaced_mapFiles moved new.place) fun _ _ => ?_
          exact congrArg Except.ok (move_mapFiles (by rw [isMoved]; rfl)
            (Slot.isOf foundNew).directory (Slot.apart notInto notAbove same))

/-! ### Making and pruning directories -/

theorem createAlong_mapFiles (tree : Tree) (paths : List Path) :
    (tree.mapFiles change).createAlong paths =
      Prod.map id (·.mapFiles change) (tree.createAlong paths) := by
  induction paths with
  | nil => rfl
  | cons path above induction =>
      rw [createAlong, createAlong, makeDirectory_mapFiles, induction]
      split
      · rfl
      cases tree.makeDirectory path with
      | ok made => rfl
      | error fault =>
          cases fault with
          | notFound =>
              rcases tree.createAlong above with ⟨answer, reached⟩
              cases answer with
              | error fault => rfl
              | ok done =>
                  simp only [Except.map, Prod.map, id,
                    makeDirectory_mapFiles, isDirectory_mapFiles]
                  cases reached.makeDirectory path with
                  | ok made => rfl
                  | error fault =>
                      dsimp only [Except.map]
                      split <;> rfl
          | _ =>
              simp only [Except.map, isDirectory_mapFiles]
              split <;> rfl

theorem withParent_mapFiles (tree : Tree) (target : Path) :
    (tree.mapFiles change).withParent target =
      Prod.map id (·.mapFiles change) (tree.withParent target) := by
  rw [withParent, withParent]
  split
  · exact createAlong_mapFiles tree _
  · rfl

theorem pruneAlong_mapFiles (directories : List Path) (tree : Tree) :
    pruneAlong base directories (tree.mapFiles change) =
      (pruneAlong base directories tree).mapFiles change := by
  induction directories generalizing tree with
  | nil => rfl
  | cons directory above induction =>
      rw [pruneAlong, pruneAlong, removeDirectory_mapFiles]
      split
      · cases tree.removeDirectory directory with
        | ok pruned => exact induction pruned
        | error fault => rfl
      · rfl

/-! ### Moving a package -/

theorem placeDirectory_mapFiles
    (alike : (tree.withParent target).2.SharesAlike change source target) :
    placeDirectory source target (tree.mapFiles change) =
      Prod.map id (·.mapFiles change) (placeDirectory source target tree) := by
  have renames := rename_mapFiles alike
  rw [placeDirectory_eq, placeDirectory_eq, withParent_mapFiles]
  generalize tree.withParent target = result at renames
  obtain ⟨made, reached⟩ := result
  cases made with
  | error fault => rfl
  | ok done =>
      simp only [Prod.map, id, renames]
      cases reached.rename source target <;> rfl

@[simp]
theorem pathExists_mapFiles (path : Path) :
    (tree.mapFiles change).pathExists path = tree.pathExists path := by
  simp [pathExists]

end Tree

/-- The same answer, on the tree with changed files. -/
def Effect.mapFiles {α : Type} (change : File → File) (effect : Effect α) :
    Effect α :=
  { effect with tree := effect.tree.mapFiles change }

namespace Tree

/-- Moving a package does not look into files either. -/
theorem movePackage_mapFiles (base : Path) (source target : Identifier)
    (alike : ∀ after, tree.Steps after → ∀ old new,
      after.SharesAlike change old new) :
    movePackage base source target (tree.mapFiles change) =
      (movePackage base source target tree).mapFiles change := by
  have places : ∀ {after} (old new : Path), tree.Steps after →
      placeDirectory old new (after.mapFiles change) =
        Prod.map id (·.mapFiles change) (placeDirectory old new after) :=
    fun old new steps => placeDirectory_mapFiles
      (alike _ (steps.trans (steps_withParent _ new).steps) old new)
  rw [movePackage, movePackage]
  simp only [isDirectory_mapFiles, pathExists_mapFiles,
    rename_mapFiles (alike _ .refl _ _), places _ _ .refl]
  split
  case isFalse => rfl
  split
  · split
    · rfl
    generalize base.join (Path.ofString stagingName) = staging
    cases isParked : tree.rename (source.directoryIn base) staging with
    | error fault => rfl
    | ok parked =>
        have prunes : tree.Steps
            (pruneAbove base (source.directoryIn base) parked) :=
          (steps_of_rename isParked).trans (steps_pruneAlong base _ parked).steps
        have pruned : pruneAbove base (source.directoryIn base)
            (parked.mapFiles change) =
              (pruneAbove base (source.directoryIn base) parked).mapFiles
                change := pruneAlong_mapFiles _ parked
        have restores := places staging (source.directoryIn base)
          (prunes.trans (steps_placeDirectory staging
            (target.directoryIn base) _))
        simp only [Except.map, pruned, places _ _ prunes]
        generalize placeDirectory staging (target.directoryIn base)
          (pruneAbove base (source.directoryIn base) parked) = result
          at restores
        obtain ⟨answer, reached⟩ := result
        cases answer with
        | ok done => rfl
        | error fault =>
            simp only [Prod.map, id, restores]
            rfl
  · rcases placeDirectory (source.directoryIn base) (target.directoryIn base)
      tree with ⟨answer, reached⟩
    cases answer with
    | ok done =>
        exact congrArg (Effect.succeed · true) (pruneAlong_mapFiles _ reached)
    | error fault => rfl

end Tree

end PackageRename
