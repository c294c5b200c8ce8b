import PackageRename.Proofs.Clearing
import PackageRename.Proofs.Relocation.Package
import PackageRename.Proofs.Relocation.Views
import PackageRename.Proofs.Tree.Following
import PackageRename.Proofs.Tree.SingleNames

/-!
# Clearing a bytecode root

Files may have several names here, so an update below a bytecode root can show
far away from it.  When the root has been walked without complaint and its
package directory has been moved, nothing of the old name is left below it,
neither in a file nor as the directory that has moved, and what was free of the
old name before still is.
-/

namespace PackageRename.Tree

variable {tree other final : Tree} {base : Path} {place : Place}

/-! ### Trees with shared files, seen without the shares -/

theorem IsOrderly.isLinkFree_unshared (orderly : tree.IsOrderly) :
    tree.unshared.IsLinkFree :=
  Tree.isLinkFree_unshared orderly.linkless

theorem layout_unshared (tree : Tree) : tree.unshared.layout = tree.layout :=
  layout_mapFiles

theorem sameKinds_of_layout (same : other.layout = tree.layout)
    (hidden : Place → Prop) : SameKinds hidden tree other := by
  intro place _
  have kinds := congrArg (Option.map Node.kind) (node?_of_layout same place)
  simpa only [Option.map_map, Function.comp_def, kind_mapFile] using kinds

theorem origin_of_layout (same : other.layout = tree.layout) :
    other.origin = tree.origin := by
  have origins := congrArg Tree.origin same
  exact origins

/-- A base is one for every tree of the same layout. -/
theorem IsBase.of_layout (isBase : tree.IsBase base place)
    (orderly : other.IsOrderly) (same : other.layout = tree.layout) :
    other.unshared.IsBase base place := by
  have alike : other.unshared.layout = tree.layout :=
    (layout_unshared other).trans same
  exact isBase.transfer_inside orderly.isLinkFree_unshared
    (isBase.legal.of_layout alike) (origin_of_layout alike)
    (sameKinds_of_layout alike _)

theorem isFreeAt_unshared {words : List String} :
    tree.unshared.IsFreeAt words place ↔ tree.IsFreeAt words place := by
  have files : ∀ file, tree.unshared.node? place = some (.file file) ↔
      ∃ before, tree.node? place = some (.file before) ∧
        file = before.unshared := by
    intro file
    rw [unshared, node?_mapFiles, mapFile_eq_file]
  constructor
  · intro free file isFile
    exact free file.unshared ((files _).mpr ⟨file, isFile, rfl⟩)
  · intro free file isFile
    obtain ⟨before, wasFile, rfl⟩ := (files _).mp isFile
    exact free before wasFile

/-! ### Moving the package directory -/

variable {source target : Identifier} {change : File → File}

/-- Where neither package lies inside the other, a directory takes the place of
nothing or of another one, so it does not matter which files are shared. -/
theorem IsOrderly.movePackage_mapFiles (orderly : tree.IsOrderly)
    (resolved : tree.resolve base = .ok place)
    (isRoot : tree.hasDirectory place = true)
    (sourcePlain : source.HasPlainSegments)
    (notInside : source.isAncestorOf target = false)
    (notAround : target.isAncestorOf source = false) :
    movePackage base source target (tree.mapFiles change) =
      (movePackage base source target tree).mapFiles change := by
  rw [movePackage, movePackage]
  simp only [isDirectory_mapFiles, notInside, notAround, Bool.or_self,
    Bool.false_eq_true, if_false]
  split
  case isFalse => rfl
  rename_i isDirectory
  have directory : tree.hasDirectory (place ++ source.segments) = true := by
    rw [Identifier.directoryIn_eq_below sourcePlain, ← isDirectory_layout,
      (orderly.leadsTo_layout resolved isRoot).isDirectory sourcePlain]
      at isDirectory
    exact (hasDirectory_layout _).symm.trans isDirectory.2
  have alike : (tree.withParent (target.directoryIn base)).2.SharesAlike change
      (source.directoryIn base) (target.directoryIn base) := by
    intro old new moved foundOld _ isMoved _
    have steps := steps_withParent tree (target.directoryIn base)
    have reachedOrderly := steps.steps.isOrderly orderly
    rw [Identifier.directoryIn_eq_below sourcePlain] at foundOld
    have isOld := orderly.place_slot reachedOrderly steps.steps.origin resolved
      source.segments_ne_nil sourcePlain foundOld
    rw [isOld] at isMoved
    cases moved with
    | directory => rfl
    | link path share => exact absurd isMoved (reachedOrderly.linkless _ _ _)
    | file file =>
        obtain ⟨_, isPlace, wasFile⟩ := steps.carriesFiles.comes isMoved
        rw [Option.some.inj isPlace] at wasFile
        exact absurd wasFile
          (not_file_of_directory directory (List.prefix_refl _))
  rw [placeDirectory_mapFiles alike]
  rcases placeDirectory (source.directoryIn base) (target.directoryIn base)
    tree with ⟨answer, reached⟩
  cases answer with
  | ok done =>
      exact congrArg (Effect.succeed · true) (pruneAlong_mapFiles _ reached)
  | error fault => rfl

/-- Everything at and below a place can be reached below the path that leads
there. -/
def Fits (tree : Tree) (base : Path) (place : Place) : Prop :=
  ∀ rest, (tree.node? (place ++ rest)).isSome →
    (base.below rest).bytes.length ≤ pathLimit

theorem SameKinds.fits_iff {hidden : Place → Prop}
    (same : SameKinds hidden tree other)
    (seen : ∀ rest, ¬ hidden (place ++ rest)) :
    other.Fits base place ↔ tree.Fits base place := by
  simp only [Fits, same.isSome (seen _)]

/-- A walk without complaint has reached all there is. -/
theorem IsOrderly.fits_of_settlesAll (orderly : tree.IsOrderly)
    (resolved : tree.resolve base = .ok place)
    (isRoot : tree.hasDirectory place = true)
    {substitutions : List Substitution} {strategy : WriteStrategy}
    (settles : SettlesAll substitutions strategy tree (tree.visits base)) :
    tree.Fits base place := by
  have leads := orderly.leadsTo_layout resolved isRoot
  have sound := leads.settlesAll_visits_iff.mp
    ((visits_layout base).symm ▸ settles.layout)
  intro rest present
  refine sound.fits leads.free ?_
  rw [node?_layout, Option.isSome_map]
  exact present

theorem isAncestorOf_of_apart (outerPlain : source.HasPlainSegments)
    (innerPlain : target.HasPlainSegments)
    (apart : Apart source.segments target.segments) :
    source.isAncestorOf target = false := by
  rw [Bool.eq_false_iff, ne_eq, Identifier.isAncestorOf_iff outerPlain innerPlain]
  exact fun inside => apart.1 inside.1

/-- A move that does not fail takes the package directory to its new place, or
there is none. -/
theorem IsOrderly.movePackage_cases (orderly : tree.IsOrderly)
    (isBase : tree.unshared.IsBase base place)
    (sourcePlain : source.HasPlainSegments)
    (targetPlain : target.HasPlainSegments)
    (apart : Apart source.segments target.segments)
    (fits : tree.Fits base place) {moved : Bool}
    (answered : (movePackage base source target tree).answer = .ok moved) :
    (tree.hasDirectory (place ++ source.segments) = false ∧
        (movePackage base source target tree).tree = tree) ∨
      (tree.hasDirectory (place ++ source.segments) = true ∧
        (base.below target.segments).bytes.length ≤ pathLimit ∧
        tree.unshared.HasRelocated place (place ++ source.segments)
          (place ++ target.segments)
          (movePackage base source target tree).tree.unshared) := by
  have directories : ∀ inner,
      tree.unshared.hasDirectory inner = tree.hasDirectory inner :=
    hasDirectory_mapFiles
  have seen : tree.unshared.isDirectory (source.directoryIn base) =
      tree.isDirectory (source.directoryIn base) :=
    isDirectory_mapFiles _
  have isDirectory_iff : tree.unshared.isDirectory (source.directoryIn base) =
      true ↔ (base.below source.segments).bytes.length ≤ pathLimit ∧
        tree.hasDirectory (place ++ source.segments) = true := by
    rw [Identifier.directoryIn_eq_below sourcePlain,
      isBase.isDirectory sourcePlain, directories]
  have different : source ≠ target := by
    rintro rfl
    exact apart.1 (List.prefix_refl _)
  have unshares : movePackage base source target tree.unshared =
      (movePackage base source target tree).mapFiles File.unshared :=
    orderly.movePackage_mapFiles
      ((resolve_mapFiles base).symm.trans isBase.resolved)
      ((directories place).symm.trans isBase.directory) sourcePlain
      (isAncestorOf_of_apart sourcePlain targetPlain apart)
      (isAncestorOf_of_apart targetPlain sourcePlain apart.symm)
  cases directory : tree.hasDirectory (place ++ source.segments) with
  | false =>
      refine .inl ⟨rfl, ?_⟩
      have missing : tree.isDirectory (source.directoryIn base) = false := by
        rw [Bool.eq_false_iff, ← seen, ne_eq, isDirectory_iff, directory]
        exact fun isDirectory => Bool.false_ne_true isDirectory.2
      rw [movePackage_of_missing missing]
      rfl
  | true =>
      have isDirectory := isDirectory_iff.mpr
        ⟨fits _ (hasDirectory_isSome directory), directory⟩
      have can := isBase.isGround.canMove sourcePlain targetPlain different
        isDirectory (by rw [unshares]; exact answered)
      obtain ⟨final, isMoved, relocated, -⟩ := isBase.isGround.movePackage
        sourcePlain targetPlain different isDirectory can
      have isFinal : (movePackage base source target tree).tree.unshared =
          final := by
        rw [unshares] at isMoved
        exact congrArg Effect.tree isMoved
      refine .inr ⟨rfl, can.fits, ?_⟩
      rw [isFinal]
      exact relocated

/-! ### A root that is cleared -/

/-- What the package directory holds can be reached in its new place. -/
def MovesShort (tree : Tree) (base : Path) (place : Place)
    (names : Renaming) : Prop :=
  tree.hasDirectory (place ++ names.source.segments) = true →
    ∀ rest, (tree.node? (place ++ (names.source.segments ++ rest))).isSome →
      (base.below (names.target.segments ++ rest)).bytes.length ≤ pathLimit

/-- A tree after a bytecode root in it has been updated and its package
directory has been moved. -/
structure HasCleared (names : Renaming) (base : Path) (place : Place)
    (tree after : Tree) : Prop where
  orderly : after.IsOrderly
  origin : after.origin = tree.origin
  kinds : SameKinds (Inside place) tree after
  keeps : ∀ words, (∀ word ∈ words, word ∈ names.inBytecode.map (·.sought)) →
    ∀ other, ¬ place <+: other → tree.IsFreeAt words other →
      after.IsFreeAt words other
  free : after.IsFreeBelow (names.inBytecode.map (·.sought)) place
  gone : after.hasDirectory (place ++ names.source.segments) = false
  fits : after.Fits base place ↔ tree.MovesShort base place names

theorem sameKinds_unshared (tree : Tree) (hidden : Place → Prop) :
    SameKinds hidden tree tree.unshared :=
  sameKinds_of_layout (layout_unshared tree) hidden

section Relocated

variable {old new : List Name} {after : Tree}
variable (relocated : tree.unshared.HasRelocated place (place ++ old)
  (place ++ new) after.unshared)

include relocated

/-- Apart from what lies in the root, the move leaves everything where it
is. -/
theorem sameKinds_of_relocated (isRoot : tree.hasDirectory place = true)
    (someNew : new ≠ []) : SameKinds (Inside place) tree after := by
  have directory : tree.unshared.hasDirectory place = true :=
    (hasDirectory_mapFiles place).trans isRoot
  have moves : SameKinds (Inside place) tree.unshared after.unshared := by
    intro other notInside
    by_cases below : place <+: other
    · obtain rfl : other = place := by
        by_contra different
        exact notInside ⟨below, different⟩
      rw [kind_of_hasDirectory (relocated.above other (List.prefix_append _ _)
        fun same => someNew (List.self_eq_append_right.mp same)),
        kind_of_hasDirectory directory]
    · rw [relocated.outside directory below]
  exact ((sameKinds_unshared tree _).trans moves).trans
    (sameKinds_unshared after _).symm

theorem hasDirectory_of_relocated (apart : Apart old new) :
    after.hasDirectory (place ++ old) = false := by
  have apartBelow : Apart (place ++ old) (place ++ new) :=
    Apart.append_left.mpr apart
  have left : after.unshared.node? (place ++ old) = none :=
    relocated.left _ (List.prefix_refl _) apartBelow.2 apartBelow.1
  have seen : after.unshared.hasDirectory (place ++ old) =
      after.hasDirectory (place ++ old) :=
    hasDirectory_mapFiles _
  rw [← seen, hasDirectory, left]
  rfl

/-- What is free of a word at all places of the root still is. -/
theorem isFreeBelow_of_relocated {words : List String}
    (free : tree.IsFreeBelow words place) : after.IsFreeBelow words place := by
  intro rest
  refine isFreeAt_unshared.mp fun file isFile => ?_
  rcases relocated.cases_of_isSome (by rw [isFile]; rfl) with
    ⟨more, -, same⟩ | ⟨-, isDirectory⟩ | ⟨-, same⟩
  · rw [same, List.append_assoc] at isFile
    exact isFreeAt_unshared.mpr (free _) file isFile
  · rw [hasDirectory, isFile] at isDirectory
    cases isDirectory
  · rw [same] at isFile
    exact isFreeAt_unshared.mpr (free rest) file isFile

/-- After the move everything in the root can be reached if that is so of what
has moved. -/
theorem fits_relocated_iff (fits : tree.Fits base place)
    (targetFits : (base.below new).bytes.length ≤ pathLimit)
    (plain : Path.ArePlain new) :
    after.Fits base place ↔
      ∀ rest, (tree.node? (place ++ (old ++ rest))).isSome →
        (base.below (new ++ rest)).bytes.length ≤ pathLimit := by
  have seen : ∀ (tree : Tree) inner,
      (tree.unshared.node? inner).isSome = (tree.node? inner).isSome :=
    fun tree inner => (sameKinds_unshared tree fun _ => False).isSome id
  constructor
  · intro afterFits rest present
    apply afterFits
    rw [← seen, ← List.append_assoc, relocated.arrived, List.append_assoc, seen]
    exact present
  · intro short rest present
    rw [← seen] at present
    rcases relocated.cases_of_isSome present with
      ⟨more, isNew, same⟩ | ⟨above, -⟩ | ⟨-, same⟩
    · rw [List.append_assoc, List.append_cancel_left_eq] at isNew
      rw [isNew]
      apply short
      rwa [same, List.append_assoc, seen] at present
    · obtain ⟨more, isNew⟩ := (List.prefix_append_right_inj place).mp above
      rw [← isNew] at targetFits plain
      exact Nat.le_trans (Path.length_below_le_append plain) targetFits
    · rw [same, seen] at present
      exact fits rest present

end Relocated

section Cleared

variable {names : Renaming} {strategy : WriteStrategy} {moved : Bool}

/-- The walk and the move clear the root if both succeed. -/
theorem IsOrderly.hasCleared (orderly : tree.IsOrderly)
    (isBase : tree.unshared.IsBase base place)
    (sourcePlain : names.source.HasPlainSegments)
    (targetPlain : names.target.HasPlainSegments)
    (apart : Apart names.source.segments names.target.segments)
    (clear : Substitution.Clear names.inBytecode)
    (settles : SettlesAll names.inBytecode strategy tree (tree.visits base))
    (answered : (movePackage base names.source names.target
      ((tree.visits base).foldl (settle names.inBytecode strategy)
        tree)).answer = .ok moved) :
    tree.HasCleared names base place
      (movePackage base names.source names.target
        ((tree.visits base).foldl (settle names.inBytecode strategy)
          tree)).tree := by
  have resolved : tree.resolve base = .ok place :=
    (resolve_mapFiles base).symm.trans isBase.resolved
  have isRoot : tree.hasDirectory place = true :=
    (hasDirectory_mapFiles place).symm.trans isBase.directory
  have fits := orderly.fits_of_settlesAll resolved isRoot settles
  have sameLayout : ((tree.visits base).foldl
      (settle names.inBytecode strategy) tree).layout = tree.layout :=
    layout_foldl_settle (tree.visits base)
  have free := orderly.isFreeBelow_visits clear resolved settles
  have keeps : ∀ words, (∀ word ∈ words,
      word ∈ names.inBytecode.map (·.sought)) → ∀ other,
      tree.IsFreeAt words other → ((tree.visits base).foldl
        (settle names.inBytecode strategy) tree).IsFreeAt words other :=
    fun _ sought _ wasFree => wasFree.foldl_settle clear sought
  generalize (tree.visits base).foldl (settle names.inBytecode strategy) tree =
    updated at answered sameLayout free keeps
  have alike := sameKinds_of_layout sameLayout fun _ => False
  have updatedOrderly := orderly.of_layout sameLayout
  have updatedFits : updated.Fits base place := fun rest present =>
    fits rest ((alike.isSome id).symm.trans present)
  have updatedRoot := (alike.hasDirectory id).trans isRoot
  have steps := steps_movePackage base names.source names.target updated
  have origin := steps.origin.trans (origin_of_layout sameLayout)
  rcases updatedOrderly.movePackage_cases (isBase.of_layout updatedOrderly
      (sameLayout.trans (layout_unshared tree).symm)) sourcePlain
      targetPlain apart updatedFits answered with
    ⟨none, stays⟩ | ⟨directory, targetFits, relocated⟩
  · rw [stays]
    refine ⟨updatedOrderly, origin_of_layout sameLayout,
      sameKinds_of_layout sameLayout _,
      fun words sought other _ => keeps words sought other, free, none,
      iff_of_true updatedFits fun directory => ?_⟩
    rw [← alike.hasDirectory id, none] at directory
    cases directory
  · refine ⟨steps.isOrderly updatedOrderly, origin,
      (sameKinds_of_layout sameLayout _).trans (sameKinds_of_relocated relocated
        updatedRoot names.target.segments_ne_nil), ?_,
      isFreeBelow_of_relocated relocated free, ?_, ?_⟩
    · intro words sought other outside wasFree
      refine isFreeAt_unshared.mp fun file isFile => ?_
      rw [relocated.outside ((hasDirectory_mapFiles place).trans updatedRoot)
        outside] at isFile
      exact isFreeAt_unshared.mpr (keeps words sought other wasFree) file isFile
    · exact hasDirectory_of_relocated relocated apart
    · rw [fits_relocated_iff relocated updatedFits targetFits targetPlain,
        MovesShort, ← alike.hasDirectory id, directory]
      simp only [alike.isSome id, forall_const]

end Cleared

end PackageRename.Tree
