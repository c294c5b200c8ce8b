import PackageRename.Proofs.Renaming
import PackageRename.Proofs.Tree.Reshaping
import PackageRename.Proofs.Tree.Settling

/-!
# Trees without symbolic links

Files may have several names here.  The layout of such a tree is free of links
altogether, and the layout is all that lookups and walks depend on.  What a path
leads to can be read off the path, so it leads to the same place in every such
tree in which it leads anywhere.
-/

namespace PackageRename

/-- The file that stands in a layout for every file. -/
abbrev File.blank : File :=
  File.fresh [] 0

namespace Tree

variable {tree other : Tree} {path base : Path} {place reached : Place}
variable {substitutions : List Substitution} {strategy : WriteStrategy}

/-- Nothing in the tree is a symbolic link, and all names are legal. -/
structure IsOrderly (tree : Tree) : Prop where
  linkless : ∀ place target share, tree.node? place ≠ some (.link target share)
  legal : tree.HasLegalNames

theorem HasLegalNames.of_layout (legal : tree.HasLegalNames)
    (same : other.layout = tree.layout) : other.HasLegalNames := by
  intro place present
  apply legal place
  have nodes := congrArg Option.isSome (node?_of_layout same place)
  rwa [Option.isSome_map, Option.isSome_map, Bool.eq_iff_iff, iff_true_left
    present] at nodes

namespace IsOrderly

theorem of_layout (orderly : tree.IsOrderly)
    (same : other.layout = tree.layout) : other.IsOrderly := by
  refine ⟨fun place target share isLink => ?_, orderly.legal.of_layout same⟩
  have kinds := node?_of_layout same place
  rw [isLink] at kinds
  obtain ⟨node, isNode, isMapped⟩ := Option.map_eq_some_iff.mp kinds.symm
  cases node with
  | directory => cases isMapped
  | file present => cases isMapped
  | link target share => exact orderly.linkless _ _ _ isNode

/-- Without its files a tree without symbolic links has no links at all. -/
theorem isLinkFree_layout (orderly : tree.IsOrderly) :
    tree.layout.IsLinkFree := by
  constructor
  · intro place target share
    have layoutOrderly : tree.layout.IsOrderly := orderly.of_layout layout_mapFiles
    exact layoutOrderly.linkless place target share
  · intro first second file shared isFile _ isSome _
    rw [node?_layout, mapFile_eq_file] at isFile
    obtain ⟨before, -, rfl⟩ := isFile
    cases isSome

/-! ### What paths lead to -/

theorem leadsTo_layout (orderly : tree.IsOrderly)
    (resolved : tree.resolve base = .ok place)
    (directory : tree.hasDirectory place = true) :
    tree.layout.LeadsTo base place where
  free := orderly.isLinkFree_layout
  legal := orderly.legal.of_layout layout_mapFiles
  resolved := (resolve_layout base).trans resolved
  directory := (hasDirectory_layout place).trans directory

theorem resolve_eq_ok (orderly : tree.IsOrderly) :
    tree.resolve path = .ok place ↔
      checkPath path = .ok () ∧
        (tree.node? (tree.startOf path)).isSome = true ∧
        tree.layout.enter (tree.startOf path) path.pieces = .ok place := by
  rw [← resolve_layout]
  refine (Tree.resolve_eq_ok orderly.isLinkFree_layout).trans ?_
  rw [node?_layout, Option.isSome_map]
  rfl

end IsOrderly

/-- Where pieces lead can be read off them. -/
theorem enter_unique {start : Place} {pieces : List Name}
    (entered : tree.enter start pieces = .ok place)
    (again : other.enter start pieces = .ok reached) : place = reached := by
  induction pieces generalizing start with
  | nil =>
      cases entered
      cases again
      rfl
  | cons piece rest induction =>
      obtain ⟨-, next, takes, onward⟩ := enter_cons_eq_ok.mp entered
      obtain ⟨-, other, takesAgain, further⟩ := enter_cons_eq_ok.mp again
      rw [← takes.unique takesAgain] at further
      exact induction onward further

/-- What a path below a base names lies below what the base leads to. -/
theorem IsOrderly.place_slot (orderly : tree.IsOrderly)
    (otherOrderly : other.IsOrderly) (origin : other.origin = tree.origin)
    (resolved : tree.resolve base = .ok place) {names : List Name}
    (nonempty : names ≠ []) (plain : Path.ArePlain names) {slot : Slot}
    (found : other.slot (base.below names) = .ok slot) :
    slot.place = place ++ names := by
  obtain ⟨front, last, rfl⟩ :=
    (List.eq_nil_or_concat names).resolve_left nonempty
  rw [List.concat_eq_append] at *
  have isOf := Slot.isOf found
  have isPieces : (base.below (front ++ [last])).pieces =
      base.stem ++ (front ++ [last]) := Path.pieces_below nonempty plain
  have written : last ≠ [] := plain.last.nonempty
  have named : unslashed (base.stem ++ (front ++ [last])) =
      base.stem ++ (front ++ [last]) := by
    simp [unslashed, written]
  have isName : slot.name = last := by
    rw [isOf.name, isPieces, named]
    simp
  have follows := isOf.follows
  rw [isPieces, named, ← List.append_assoc, List.dropLast_concat,
    ← follow_layout, follow_eq_enter otherOrderly.isLinkFree_layout] at follows
  split at follows
  case isFalse => cases follows
  have isStart : other.layout.startOf (base.below (front ++ [last])) =
      tree.startOf base := by
    rw [startOf, startOf, Path.isAbsolute_below plain]
    exact congrArg (fun start => if base.isAbsolute = true then [] else start)
      origin
  rw [isStart, enter_append] at follows
  obtain ⟨stemPlace, isStem, onward⟩ := bind_eq_ok.mp follows
  have isPlace : place = stemPlace := by
    obtain ⟨-, -, entered⟩ := orderly.resolve_eq_ok.mp resolved
    have stem : tree.layout.enter (tree.startOf base) (base.stem ++ []) =
        .ok place := enter_stem entered []
    rw [List.append_nil] at stem
    exact enter_unique stem isStem
  obtain ⟨isParent, -⟩ :=
    enter_eq_ok (fun name member => plain name
      (List.mem_append_left _ member)) onward
  rw [Slot.place, isParent, isName, isPlace, List.append_assoc]

/-! ### Steps -/

theorem Step.linkless {after : Tree} (step : tree.Step after)
    (linkless : ∀ place target share,
      tree.node? place ≠ some (.link target share)) :
    ∀ place target share, after.node? place ≠ some (.link target share) := by
  intro place target share isLink
  cases step with
  | directory step =>
      cases step with
      | @make parent made directory legal free =>
          rw [node?_insert directory free] at isLink
          split at isLink
          · cases isLink
          · exact linkless _ _ _ isLink
      | @remove slot empty =>
          rw [node?_remove (by simp [Slot.place])] at isLink
          split at isLink
          · cases isLink
          · exact linkless _ _ _ isLink
  | rename renames =>
      rw [renames.hasMoved.node?] at isLink
      split at isLink
      · exact linkless _ _ _ isLink
      · split at isLink
        · cases isLink
        · exact linkless _ _ _ isLink

theorem Step.origin {after : Tree} (step : tree.Step after) :
    after.origin = tree.origin := by
  cases step with
  | directory step =>
      cases step with
      | make directory legal free => exact origin_insert _ _ _
      | remove empty => exact origin_remove _
  | rename renames => exact renames.hasMoved.origin

theorem Steps.origin {after : Tree} (steps : tree.Steps after) :
    after.origin = tree.origin := by
  induction steps with
  | refl => rfl
  | tail _ step induction => exact step.origin.trans induction

/-- Reshaping keeps a tree orderly. -/
theorem Steps.isOrderly {after : Tree} (steps : tree.Steps after)
    (orderly : tree.IsOrderly) : after.IsOrderly := by
  refine ⟨?_, steps.hasLegalNames orderly.legal⟩
  induction steps with
  | refl => exact orderly.linkless
  | tail _ step induction => exact step.linkless induction

/-! ### Walks -/

theorem visitsFrom_mapFiles {change : File → File} (depth : Nat)
    (above : List Path) (visited : Visited) :
    (tree.mapFiles change).visitsFrom depth above visited =
      tree.visitsFrom depth above visited := by
  induction depth generalizing above visited with
  | zero => cases visited <;> rfl
  | succ depth induction =>
      cases visited with
      | file path => rfl
      | failure path fault => rfl
      | directory path =>
          simp only [visitsFrom, list_mapFiles, classify_mapFiles, induction]

@[simp]
theorem visits_mapFiles {change : File → File} (path : Path) :
    (tree.mapFiles change).visits path = tree.visits path := by
  simp only [visits, kindOf_mapFiles, classify_mapFiles, visitsFrom_mapFiles]

@[simp]
theorem visits_layout (path : Path) : tree.layout.visits path = tree.visits path :=
  visits_mapFiles path

theorem isDirectory_of_list {children : List (Name × Kind)}
    (listed : tree.list path = .ok children) : tree.isDirectory path = true := by
  obtain ⟨place, resolved, listed⟩ := bind_eq_ok.mp listed
  rw [isDirectory, resolved]
  split at listed
  · assumption
  · cases listed

/-- What a walk comes upon keeps the path under which it was listed. -/
theorem classify_cases (tree : Tree) (path : Path) (above : List Path)
    (kind : Kind) :
    tree.classify above path kind = .directory path ∨
      tree.classify above path kind = .file path ∨
      ∃ fault, tree.classify above path kind = .failure path fault := by
  cases kind with
  | directory => exact .inl rfl
  | file => exact .inr (.inl rfl)
  | link =>
      rw [classify]
      split
      · exact .inr (.inr ⟨_, rfl⟩)
      · split
        · split
          · exact .inr (.inr ⟨_, rfl⟩)
          · exact .inl rfl
        · exact .inr (.inl rfl)

/-! ### Walks of a layout -/

theorem eq_blank_of_layout {file : File}
    (isFile : tree.layout.node? place = some (.file file)) :
    file = File.blank := by
  rw [node?_layout, mapFile_eq_file] at isFile
  obtain ⟨before, -, isBlank⟩ := isFile
  exact isBlank

/-- A blank file says nothing that could be sought. -/
theorem updateFile_blank (isFile : tree.fileAt path = .ok (place, File.blank)) :
    updateFile path substitutions strategy tree =
      .succeed tree .unchanged := by
  have decoded : Utf8.decode? File.blank.contents = some "" :=
    Utf8.decode?_encode ""
  have unchanged : (Substitution.applyAll substitutions "").1 = "" := by
    induction substitutions with
    | nil => rfl
    | cons substitution rest induction =>
        have same : substitution.apply "" = "" := by
          rw [Substitution.apply]
          split
          · rfl
          · exact congrArg String.ofList Text.replace_nil
        rw [Substitution.applyAll_cons, same, induction]
  rw [PackageRename.updateFile, isFile]
  simp only [decoded, unchanged, or_true, if_true]

theorem layout_settle_layout (visited : Visited) :
    tree.layout.settle substitutions strategy visited = tree.layout := by
  cases visited with
  | directory path => rfl
  | failure path fault => rfl
  | file path =>
      rw [settle]
      cases found : tree.layout.fileAt path with
      | error fault => rw [updateFile_of_missing found]; rfl
      | ok at_ =>
          obtain ⟨place, file⟩ := at_
          obtain rfl := eq_blank_of_layout (fileAt_eq_ok.mp found).2
          rw [updateFile_blank found]
          rfl

theorem Settles.layout {visited : Visited}
    (settles : Settles substitutions strategy tree visited) :
    Settles substitutions strategy tree.layout visited := by
  cases visited with
  | directory path => trivial
  | failure path fault => exact settles
  | file path =>
      rw [Settles] at settles ⊢
      cases found : tree.fileAt path with
      | error fault =>
          rw [updateFile_of_missing found] at settles
          cases settles
      | ok at_ =>
          obtain ⟨place, file⟩ := at_
          obtain ⟨resolved, isFile⟩ := fileAt_eq_ok.mp found
          have isBlank : tree.layout.fileAt path = .ok (place, File.blank) := by
            refine fileAt_eq_ok.mpr ⟨(resolve_layout path).trans resolved, ?_⟩
            rw [node?_layout, isFile]
            rfl
          rw [updateFile_blank isBlank]
          rfl

/-- A walk without complaint is one in the layout too. -/
theorem SettlesAll.layout {items : List Visited}
    (settles : SettlesAll substitutions strategy tree items) :
    SettlesAll substitutions strategy tree.layout items := by
  induction items generalizing tree with
  | nil => trivial
  | cons visited rest induction =>
      refine ⟨Settles.layout settles.1, ?_⟩
      have rested := induction settles.2
      rwa [layout_settle, ← layout_settle_layout] at rested

end Tree

end PackageRename
