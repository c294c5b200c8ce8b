import Mathlib.Logic.Relation
import PackageRename.Proofs.Tree.Directories
import PackageRename.Relocation

/-!
# Reshaping a tree

What the operations on directories do to any tree, whatever links are in it: a
directory is made under a name that was free, an empty directory is removed, or
something is moved to another name.  The move of a package is a row of such
steps.
-/

namespace PackageRename

namespace Tree

variable {tree reached : Tree} {path source target : Path} {slot : Slot}

/-! ### What operations have found -/

theorem makeDirectory_eq_ok (made : tree.makeDirectory path = .ok reached) :
    ∃ slot, tree.slot path = .ok slot ∧ slot.name.IsLegal ∧
      tree.node? slot.place = none ∧
      reached = tree.insert slot.parent slot.name .made := by
  obtain ⟨slot, found, made⟩ := bind_eq_ok.mp made
  obtain ⟨undotted, made⟩ := check_eq_ok.mp made
  obtain ⟨node, isNode, made⟩ := bind_eq_ok.mp made
  obtain ⟨fits, isNode⟩ := nodeIn?_eq_ok.mp isNode
  cases node with
  | some present => cases made
  | none =>
      cases made
      exact ⟨slot, found, (Slot.isOf found).isLegal
        (Bool.not_eq_true _ ▸ undotted) fits, isNode, rfl⟩

theorem removeDirectory_eq_ok
    (removed : tree.removeDirectory path = .ok reached) :
    ∃ slot, tree.slot path = .ok slot ∧
      tree.isEmptyDirectory slot.place = true ∧
      reached = tree.remove slot.place := by
  obtain ⟨slot, found, removed⟩ := bind_eq_ok.mp removed
  obtain ⟨-, removed⟩ := check_eq_ok.mp removed
  obtain ⟨-, removed⟩ := check_eq_ok.mp removed
  obtain ⟨-, removed⟩ := check_eq_ok.mp removed
  obtain ⟨node, -, removed⟩ := bind_eq_ok.mp removed
  refine ⟨slot, found, ?_⟩
  cases node with
  | none => cases removed
  | some present =>
      cases present with
      | file _ | link _ _ => cases removed
      | directory =>
          cases empty : tree.isEmptyDirectory slot.place with
          | false => simp [empty] at removed
          | true =>
              simp only [empty, if_true] at removed
              cases removed
              exact ⟨rfl, rfl⟩

/-- Two slots lie apart if neither is what the other lies in. -/
theorem Slot.apart {old new : Slot} (notInto : ¬ old.place <+: new.parent)
    (notAbove : ¬ new.place <+: old.parent) (different : old.place ≠ new.place) :
    Apart old.place new.place := by
  constructor <;> intro isPrefix
  · rcases List.prefix_concat_iff.mp isPrefix with same | into
    · exact different same
    · exact notInto into
  · rcases List.prefix_concat_iff.mp isPrefix with same | above
    · exact different same.symm
    · exact notAbove above

/-- What is known of the two slots of a rename that has changed something. -/
structure Renames (tree : Tree) (old new : Slot) (moved : Node)
    (reached : Tree) : Prop where
  present : tree.node? old.place = some moved
  directory : tree.hasDirectory new.parent = true
  legal : new.name.IsLegal
  apart : Apart old.place new.place
  givesWay : tree.checkReplaced moved new.place = .ok ()
  isReached : reached = (tree.remove new.place).move old.place new.parent
    new.name

theorem Renames.hasMoved {old new : Slot} {moved : Node}
    (renames : Renames tree old new moved reached) :
    tree.HasMoved old.place new.place reached := by
  rw [renames.isReached]
  exact hasMoved_move (by rw [renames.present]; rfl) renames.directory
    renames.apart

theorem rename_eq_ok (renamed : tree.rename source target = .ok reached) :
    ∃ old new moved, tree.slot source = .ok old ∧ tree.slot target = .ok new ∧
      tree.node? old.place = some moved ∧
      if old.place = new.place ∨ tree.sharesNode moved new.place = true then
        reached = tree
      else Renames tree old new moved reached := by
  rw [rename] at renamed
  obtain ⟨-, renamed⟩ := check_eq_ok.mp renamed
  obtain ⟨old, foundOld, renamed⟩ := bind_eq_ok.mp renamed
  obtain ⟨new, foundNew, renamed⟩ := bind_eq_ok.mp renamed
  obtain ⟨undotted, renamed⟩ := check_eq_ok.mp renamed
  obtain ⟨node, isOld, renamed⟩ := bind_eq_ok.mp renamed
  cases node with
  | none => cases renamed
  | some moved =>
      obtain ⟨other, isNew, renamed⟩ := bind_eq_ok.mp renamed
      obtain ⟨-, renamed⟩ := check_eq_ok.mp renamed
      obtain ⟨notInto, renamed⟩ := check_eq_ok.mp renamed
      obtain ⟨notAbove, renamed⟩ := check_eq_ok.mp renamed
      obtain ⟨-, isOld⟩ := nodeIn?_eq_ok.mp isOld
      obtain ⟨fits, isNew⟩ := nodeIn?_eq_ok.mp isNew
      refine ⟨old, new, moved, foundOld, foundNew, isOld, ?_⟩
      split at renamed
      · rename_i same
        cases renamed
        rw [if_pos same]
      · rename_i different
        obtain ⟨done, givesWay, renamed⟩ := bind_eq_ok.mp renamed
        cases renamed
        rw [List.isPrefixOf_iff_prefix] at notInto notAbove
        have apart := Slot.apart notInto notAbove fun same =>
          different (.inl same)
        have isUndotted : new.isDotted = false := by
          simp only [Bool.or_eq_true, not_or, Bool.not_eq_true] at undotted
          exact undotted.2
        rw [if_neg different]
        exact ⟨isOld, (Slot.isOf foundNew).directory,
          (Slot.isOf foundNew).isLegal isUndotted fits, apart, givesWay, rfl⟩

/-! ### Steps -/

/-- What making or removing an empty directory does to a tree. -/
inductive DirectoryStep (tree : Tree) : Tree → Prop
  | make {parent : Place} {name : Name}
      (directory : tree.hasDirectory parent = true) (legal : name.IsLegal)
      (free : tree.node? (parent ++ [name]) = none) :
      DirectoryStep tree (tree.insert parent name .made)
  | remove {slot : Slot} (empty : tree.isEmptyDirectory slot.place = true) :
      DirectoryStep tree (tree.remove slot.place)

/-- Any number of such steps. -/
abbrev DirectorySteps : Tree → Tree → Prop :=
  Relation.ReflTransGen DirectoryStep

/-- What one operation on directories does to a tree. -/
inductive Step (tree : Tree) : Tree → Prop
  | directory {reached : Tree} (step : tree.DirectoryStep reached) :
      Step tree reached
  | rename {old new : Slot} {moved : Node} {reached : Tree}
      (renames : Renames tree old new moved reached) : Step tree reached

/-- Any number of steps. -/
abbrev Steps : Tree → Tree → Prop :=
  Relation.ReflTransGen Step

theorem DirectorySteps.steps (steps : tree.DirectorySteps reached) :
    Steps tree reached :=
  steps.lift id fun _ _ => .directory

theorem steps_of_makeDirectory (made : tree.makeDirectory path = .ok reached) :
    DirectorySteps tree reached := by
  obtain ⟨slot, found, legal, free, rfl⟩ := makeDirectory_eq_ok made
  exact .single (.make (Slot.isOf found).directory legal free)

theorem steps_of_removeDirectory
    (removed : tree.removeDirectory path = .ok reached) :
    DirectorySteps tree reached := by
  obtain ⟨slot, -, empty, rfl⟩ := removeDirectory_eq_ok removed
  exact .single (.remove empty)

theorem steps_of_rename (renamed : tree.rename source target = .ok reached) :
    Steps tree reached := by
  obtain ⟨old, new, moved, -, -, -, found⟩ := rename_eq_ok renamed
  split at found
  · rw [found]
  · exact .single (.rename found)

theorem steps_createAlong (tree : Tree) (paths : List Path) :
    DirectorySteps tree (tree.createAlong paths).2 :=
  createAlong_keeps .refl fun _ _ _ _ reaches isMade =>
    reaches.trans (steps_of_makeDirectory isMade)

/-- The directories on the way to the target of a move. -/
def withParent (tree : Tree) (target : Path) : Except Fault Unit × Tree :=
  match target.parent? with
  | some parent => tree.createDirectories parent
  | none => (.ok (), tree)

theorem steps_withParent (tree : Tree) (target : Path) :
    DirectorySteps tree (tree.withParent target).2 := by
  rw [withParent]
  split
  · exact steps_createAlong tree _
  · exact .refl

theorem placeDirectory_eq (source target : Path) (tree : Tree) :
    placeDirectory source target tree =
      match (tree.withParent target).1 with
      | .error fault => (.error fault, (tree.withParent target).2)
      | .ok () =>
          match (tree.withParent target).2.rename source target with
          | .ok renamed => (.ok (), renamed)
          | .error fault => (.error fault, (tree.withParent target).2) := rfl

theorem steps_placeDirectory (source target : Path) (tree : Tree) :
    Steps tree (placeDirectory source target tree).2 := by
  have makes := (steps_withParent tree target).steps
  rw [placeDirectory_eq]
  split
  · exact makes
  · split
    · rename_i renamed isRenamed
      exact makes.trans (steps_of_rename isRenamed)
    · exact makes

theorem steps_pruneAlong (base : Path) (directories : List Path) (tree : Tree) :
    DirectorySteps tree (pruneAlong base directories tree) := by
  induction directories generalizing tree with
  | nil => exact .refl
  | cons directory above induction =>
      rw [pruneAlong]
      split
      · split
        · rename_i pruned isPruned
          exact (steps_of_removeDirectory isPruned).trans (induction pruned)
        · exact .refl
      · exact .refl

/-- Whatever comes of moving a package, it is a row of steps. -/
theorem steps_movePackage (base : Path) (source target : Identifier)
    (tree : Tree) : Steps tree (movePackage base source target tree).tree := by
  rw [movePackage]
  dsimp only
  split
  case isFalse => exact .refl
  split
  · split
    · exact .refl
    split
    · exact .refl
    · rename_i parked isParked
      have prunes : Steps tree
          (pruneAbove base (source.directoryIn base) parked) :=
        (steps_of_rename isParked).trans (steps_pruneAlong base _ parked).steps
      have places := prunes.trans (steps_placeDirectory
        (base.join (Path.ofString stagingName)) (target.directoryIn base) _)
      split
      · rename_i placed isPlaced
        rw [isPlaced] at places
        exact places
      · rename_i fault reached isPlaced
        rw [isPlaced] at places
        exact places.trans (steps_placeDirectory _ _ _)
  · have places := steps_placeDirectory (source.directoryIn base)
      (target.directoryIn base) tree
    split
    · rename_i placed isPlaced
      rw [isPlaced] at places
      exact places.trans (steps_pruneAlong _ _ _).steps
    · rename_i fault reached isPlaced
      rw [isPlaced] at places
      exact places

/-! ### Legal names -/

theorem DirectoryStep.hasLegalNames {after : Tree}
    (step : tree.DirectoryStep after) (legal : tree.HasLegalNames) :
    after.HasLegalNames := by
  intro place present name member
  cases step with
  | @make parent made directory madeLegal free =>
      rw [node?_insert directory free] at present
      split at present
      · rename_i isPlace
        rw [isPlace, List.mem_append, List.mem_singleton] at member
        rcases member with above | rfl
        · exact legal parent (hasDirectory_isSome directory) name above
        · exact madeLegal
      · exact legal place present name member
  | @remove slot empty =>
      rw [node?_remove (by simp [Slot.place])] at present
      split at present
      · cases present
      · exact legal place present name member

theorem Renames.hasLegalNames {old new : Slot} {moved : Node}
    (renames : Renames tree old new moved reached)
    (legal : tree.HasLegalNames) : reached.HasLegalNames := by
  intro place present name member
  rw [renames.hasMoved.node?] at present
  split at present
  · rename_i below
    obtain ⟨rest, rfl⟩ := below
    rw [List.drop_left] at present
    rw [Slot.place, List.append_assoc, List.mem_append, List.mem_append,
      List.mem_singleton] at member
    rcases member with above | rfl | inside
    · exact legal new.parent (hasDirectory_isSome renames.directory) name above
    · exact renames.legal
    · exact legal _ present name (List.mem_append_right _ inside)
  · split at present
    · cases present
    · exact legal place present name member

theorem Steps.hasLegalNames {after : Tree} (steps : tree.Steps after)
    (legal : tree.HasLegalNames) : after.HasLegalNames := by
  induction steps with
  | refl => exact legal
  | tail _ step induction =>
      cases step with
      | directory step => exact step.hasLegalNames induction
      | rename renames => exact renames.hasLegalNames induction

/-- Moving a package gives nothing a name that a directory cannot hold. -/
theorem HasLegalNames.movePackage (legal : tree.HasLegalNames) (base : Path)
    (source target : Identifier) :
    (movePackage base source target tree).tree.HasLegalNames :=
  (steps_movePackage base source target tree).hasLegalNames legal

end Tree

end PackageRename
