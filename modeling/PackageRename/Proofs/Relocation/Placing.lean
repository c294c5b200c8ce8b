import PackageRename.Proofs.Tree.Directories
import PackageRename.Relocation

/-!
# Placing a directory and pruning behind it

The two halves of a move: giving a directory a new place with all directories on
the way to it, and removing what the old place has left empty.
-/

namespace PackageRename

namespace Tree

variable {tree moved pruned placed : Tree} {base : Path} {place old new : Place}
variable {source target : List Name}

theorem inside_of_append {inner : Place}
    (isPrefix : place ++ target <+: inner) (nonempty : target ≠ []) :
    Inside place inner := by
  refine ⟨(List.prefix_append _ _).trans isPrefix, fun same => nonempty ?_⟩
  rwa [same, append_prefix_iff] at isPrefix

theorem Apart.nonempty_left {first second : List Name}
    (apart : Apart first second) : first ≠ [] :=
  fun empty => apart.1 (empty ▸ List.nil_prefix)

theorem Apart.nonempty_right {first second : List Name}
    (apart : Apart first second) : second ≠ [] :=
  apart.symm.nonempty_left

/-- Of two places that lie apart none has a node of the other below it. -/
theorem Apart.not_both {first second : Place} (apart : Apart first second)
    (below : first <+: place) : ¬ second <+: place := by
  intro alsoBelow
  rcases List.prefix_or_prefix_of_prefix below alsoBelow with before | after
  · exact apart.1 before
  · exact apart.2 after

/-! ### What a move does place by place -/

namespace HasMoved

theorem arrived (isMoved : tree.HasMoved old new moved) (rest : List Name) :
    moved.node? (new ++ rest) = tree.node? (old ++ rest) := by
  rw [isMoved.node?, if_pos (List.prefix_append _ _), List.drop_left]

theorem left (isMoved : tree.HasMoved old new moved)
    (elsewhere : ¬ new <+: place) (below : old <+: place) :
    moved.node? place = none := by
  rw [isMoved.node?, if_neg elsewhere, if_pos below]

theorem kept (isMoved : tree.HasMoved old new moved)
    (elsewhere : ¬ new <+: place) (outside : ¬ old <+: place) :
    moved.node? place = tree.node? place := by
  rw [isMoved.node?, if_neg elsewhere, if_neg outside]

/-- Every node has come from the old place or has been there before. -/
theorem cases_of_isSome (isMoved : tree.HasMoved old new moved)
    (present : (moved.node? place).isSome) :
    (∃ rest, place = new ++ rest ∧
        moved.node? place = tree.node? (old ++ rest)) ∨
      (¬ new <+: place ∧ ¬ old <+: place ∧
        moved.node? place = tree.node? place) := by
  by_cases below : new <+: place
  · obtain ⟨rest, isPlace⟩ := below
    subst isPlace
    exact .inl ⟨rest, rfl, isMoved.arrived rest⟩
  · by_cases behind : old <+: place
    · rw [isMoved.left below behind] at present
      cases present
    · exact .inr ⟨below, behind, isMoved.kept below behind⟩

theorem isGround
    (isMoved : tree.HasMoved (place ++ source) (place ++ target) moved)
    (ground : tree.IsGround base place) (someSource : source ≠ [])
    (someTarget : target ≠ []) (legal : ∀ name ∈ target, Name.IsLegal name) :
    moved.IsGround base place := by
  -- What stands below the base has stood there before.
  have comes : ∀ names, (moved.node? (place ++ names)).isSome →
      ∃ before, moved.node? (place ++ names) = tree.node? (place ++ before) ∧
        ∀ name ∈ names, name ∈ target ∨ name ∈ before := by
    intro names present
    rcases isMoved.cases_of_isSome present with
      ⟨rest, isNames, comes⟩ | ⟨-, -, comes⟩
    · rw [List.append_assoc, List.append_cancel_left_eq] at isNames
      rw [List.append_assoc] at comes
      refine ⟨source ++ rest, comes, fun name member => ?_⟩
      rw [isNames] at member
      exact (List.mem_append.mp member).imp_right (List.mem_append_right _)
    · exact ⟨names, comes, fun name member => .inr member⟩
  refine ground.transfer isMoved.origin ?_ ?_ ?_
  · intro other outside
    exact isMoved.kept
      (fun below => outside (inside_of_append below someTarget))
      (fun below => outside (inside_of_append below someSource))
  · intro names link share isLink
    obtain ⟨before, same, -⟩ := comes names (by rw [isLink]; rfl)
    exact ground.linkless before link share (same.symm.trans isLink)
  · intro names present name member
    obtain ⟨before, same, isFrom⟩ := comes names present
    rcases isFrom name member with inTarget | inBefore
    · exact legal name inTarget
    · exact ground.legal before (same ▸ present) name inBefore

end HasMoved

/-! ### Placing a directory -/

/-- The tree with a directory at a new place, and directories on the way. -/
structure HasPlaced (tree : Tree) (old new : Place) (placed : Tree) :
    Prop where
  origin : placed.origin = tree.origin
  arrived : ∀ rest, placed.node? (new ++ rest) = tree.node? (old ++ rest)
  above : ∀ place, place <+: new → place ≠ new →
    placed.hasDirectory place = true
  onWay : ∀ place, place <+: new → place ≠ new →
    placed.node? place = some ((tree.node? place).getD .made)
  left : ∀ place, old <+: place → placed.node? place = none
  kept : ∀ place, ¬ new <+: place → ¬ place <+: new → ¬ old <+: place →
    placed.node? place = tree.node? place

/-- What lies beside the new place is left alone with all below it. -/
theorem HasPlaced.kept_below (isPlaced : tree.HasPlaced old new placed)
    {inner : Place} (elsewhere : ¬ new <+: place) (notAbove : ¬ place <+: new)
    (below : place <+: inner) (outside : ¬ old <+: inner) :
    placed.node? inner = tree.node? inner :=
  isPlaced.kept inner
    (fun arrived => (List.prefix_or_prefix_of_prefix below arrived).elim
      notAbove elsewhere)
    (fun above => notAbove (below.trans above)) outside

theorem hasPlaced_of_made {made : Tree} {parent : Place} {name : Name}
    (apart : Apart old (parent ++ [name])) (isMade : tree.HasMade parent made)
    (isMoved : made.HasMoved old (parent ++ [name]) placed) :
    tree.HasPlaced old (parent ++ [name]) placed where
  origin := isMoved.origin.trans isMade.origin
  arrived := by
    intro rest
    rw [isMoved.arrived, isMade.node?, if_neg]
    intro above
    exact apart.1 ((List.prefix_append _ _).trans
      (above.trans (List.prefix_append _ _)))
  above := by
    intro place above different
    have isParent := (List.prefix_concat_iff.mp above).resolve_left different
    rw [Tree.hasDirectory, isMoved.kept]
    · exact hasDirectory_upward isMade.hasDirectory isParent
    · exact fun below => different (above.eq_of_length_le below.length_le)
    · exact fun below => apart.1 (below.trans above)
  onWay := by
    intro place above different
    rw [isMoved.kept, isMade.node?, if_pos]
    · exact (List.prefix_concat_iff.mp above).resolve_left different
    · exact fun below => different (above.eq_of_length_le below.length_le)
    · exact fun below => apart.1 (below.trans above)
  left := by
    intro place below
    exact isMoved.left (apart.not_both below) below
  kept := by
    intro place elsewhere notAbove outside
    rw [isMoved.kept elsewhere outside, isMade.node?, if_neg]
    exact fun above => notAbove (above.trans (List.prefix_append _ _))

/-- What has to hold of a tree so that a directory can be placed. -/
structure CanPlace (tree : Tree) (base : Path) (place : Place)
    (target : List Name) : Prop where
  short : ∀ name ∈ target, name.length ≤ nameLimit
  fits : (base.below target).bytes.length ≤ pathLimit
  opened : tree.IsOpen place target
  vacant : ∀ rest, rest ≠ [] → tree.node? (place ++ (target ++ rest)) = none

theorem CanPlace.missing_or_empty (can : tree.CanPlace base place target) :
    tree.node? (place ++ target) = none ∨
      tree.isEmptyDirectory (place ++ target) = true := by
  rcases can.opened target (List.prefix_refl _) with missing | directory
  · exact .inl missing
  · right
    refine isEmptyDirectory_iff.mpr ⟨directory, fun rest nonempty => ?_⟩
    rw [List.append_assoc]
    exact can.vacant rest nonempty

theorem placeDirectory_below {front : List Name} {last : Name}
    (plain : Path.ArePlain (front ++ [last])) :
    placeDirectory (base.below source) (base.below (front ++ [last])) tree =
      match tree.createDirectories (base.under front) with
      | (.error fault, reached) => (.error fault, reached)
      | (.ok (), reached) =>
          match reached.rename (base.below source)
              (base.below (front ++ [last])) with
          | .ok renamed => (.ok (), renamed)
          | .error fault => (.error fault, reached) := by
  rw [placeDirectory, Path.parent?_below plain]
  simp only
  rcases tree.createDirectories (base.under front) with ⟨made, reached⟩
  cases made <;> rfl

theorem HasMade.missing_or_empty {front : List Name} {last : Name}
    {made : Tree} (isMade : tree.HasMade (place ++ front) made) :
    (made.node? (place ++ (front ++ [last])) = none ∨
        made.isEmptyDirectory (place ++ (front ++ [last])) = true) ↔
      (tree.node? (place ++ (front ++ [last])) = none ∨
        tree.isEmptyDirectory (place ++ (front ++ [last])) = true) := by
  have same : ∀ rest, made.node? (place ++ (front ++ [last]) ++ rest) =
      tree.node? (place ++ (front ++ [last]) ++ rest) := by
    intro rest
    have behind := isMade.node?_behind (List.cons_ne_nil last rest)
    simpa using behind
  have here := same []
  rw [List.append_nil] at here
  rw [isEmptyDirectory_iff, isEmptyDirectory_iff, Tree.hasDirectory,
    Tree.hasDirectory, here]
  simp only [same]

/-- Where nothing is in the way, a directory is placed by making what is missing
on the way and renaming it then. -/
theorem IsGround.placeDirectory_eq_rename (ground : tree.IsGround base place)
    {front : List Name} {last : Name} (plain : Path.ArePlain (front ++ [last]))
    (short : ∀ name ∈ front, name.length ≤ nameLimit)
    (fits : (base.below front).bytes.length ≤ pathLimit)
    (opened : tree.IsOpen place front) :
    ∃ made, tree.HasMade (place ++ front) made ∧ made.IsGround base place ∧
      PackageRename.placeDirectory (base.below source)
          (base.below (front ++ [last])) tree =
        match made.rename (base.below source)
            (base.below (front ++ [last])) with
        | .ok renamed => (.ok (), renamed)
        | .error fault => (.error fault, made) := by
  obtain ⟨made, isCreated, isMade⟩ :=
    ground.createDirectories plain.left short fits opened
  refine ⟨made, isMade, isMade.isGround ground plain.left short, ?_⟩
  rw [placeDirectory_below plain, isCreated]

/-- Where it can be placed, a directory is. -/
theorem IsGround.placeDirectory (ground : tree.IsGround base place)
    (plain : Path.ArePlain target)
    (apart : Apart source target)
    (sourceFits : (base.below source).bytes.length ≤ pathLimit)
    (directory : tree.hasDirectory (place ++ source) = true)
    (can : tree.CanPlace base place target) :
    ∃ placed, placeDirectory (base.below source) (base.below target) tree =
        (.ok (), placed) ∧
      tree.HasPlaced (place ++ source) (place ++ target) placed ∧
      placed.IsGround base place := by
  rcases List.eq_nil_or_concat target with empty | ⟨front, last, isTarget⟩
  · exact absurd empty apart.nonempty_right
  rw [List.concat_eq_append] at isTarget
  subst isTarget
  obtain ⟨made, isMade, madeGround, isRename⟩ :=
    ground.placeDirectory_eq_rename plain
      (fun name member => can.short name (List.mem_append_left _ member))
      (Nat.le_trans (Path.length_below_le_append plain) can.fits)
      can.opened.left
  have madeDirectory := isMade.keeps directory
  have replaces : made.checkReplaced .made (place ++ (front ++ [last])) =
      .ok () :=
    checkReplaced_made_eq_ok.mpr
      (isMade.missing_or_empty.mpr can.missing_or_empty)
  have renamed := madeGround.rename sourceFits madeDirectory plain can.fits
    isMade.hasDirectory apart
  rw [if_neg (Nat.not_lt.mpr (can.short last (by simp))), replaces] at renamed
  have placeApart : Apart (place ++ source) (place ++ front ++ [last]) := by
    rw [List.append_assoc]
    exact Apart.append_left.mpr apart
  have isMoved := hasMoved_move (hasDirectory_isSome madeDirectory)
    isMade.hasDirectory placeApart
  have isPlaced := hasPlaced_of_made placeApart isMade isMoved
  rw [List.append_assoc] at isMoved isPlaced
  refine ⟨_, ?_, isPlaced, isMoved.isGround madeGround apart.nonempty_left (by simp)
    fun name member => ⟨plain name member, can.short name member⟩⟩
  rw [isRename, renamed]
  rfl

/-- A directory that is placed could be. -/
theorem IsGround.canPlace (ground : tree.IsGround base place)
    (plain : Path.ArePlain target)
    (apart : Apart source target)
    (sourceFits : (base.below source).bytes.length ≤ pathLimit)
    (directory : tree.hasDirectory (place ++ source) = true)
    (placed : (PackageRename.placeDirectory (base.below source)
      (base.below target) tree).1 = .ok ()) :
    tree.CanPlace base place target := by
  rcases List.eq_nil_or_concat target with empty | ⟨front, last, isTarget⟩
  · exact absurd empty apart.nonempty_right
  rw [List.concat_eq_append] at isTarget
  subst isTarget
  have created : (tree.createDirectories (base.under front)).1 = .ok () := by
    rw [placeDirectory_below plain] at placed
    split at placed
    · cases placed
    · rename_i isCreated
      rw [isCreated]
  obtain ⟨frontShort, frontFits, frontOpen⟩ :=
    ground.of_createDirectories plain.left created
  obtain ⟨made, isMade, madeGround, isRename⟩ :=
    ground.placeDirectory_eq_rename plain frontShort frontFits frontOpen
  obtain ⟨renamed, isRenamed⟩ : ∃ renamed, made.rename (base.below source)
      (base.below (front ++ [last])) = .ok renamed := by
    rw [isRename] at placed
    split at placed
    · exact ⟨_, by assumption⟩
    · cases placed
  obtain ⟨lastShort, fits, free⟩ := madeGround.of_rename sourceFits
    (isMade.keeps directory) plain isMade.hasDirectory apart isRenamed
  have available := isMade.missing_or_empty.mp free
  refine ⟨List.forall_mem_append.mpr
      ⟨frontShort, List.forall_mem_singleton.mpr lastShort⟩, fits,
    isOpen_concat_iff.mpr ⟨frontOpen, available.imp_right fun empty =>
      (isEmptyDirectory_iff.mp empty).1⟩, fun rest nonempty => ?_⟩
  rw [← List.append_assoc]
  rcases available with missing | empty
  · exact node?_append_of_missing missing rest
  · exact (isEmptyDirectory_iff.mp empty).2 rest nonempty

/-- A directory that cannot be placed leaves the tree as it was: either nothing
is made, or nothing has been missing. -/
theorem IsGround.eq_of_placeDirectory_error (ground : tree.IsGround base place)
    (plain : Path.ArePlain target)
    (short : ∀ name ∈ target, name.length ≤ nameLimit)
    (fits : (base.below target).bytes.length ≤ pathLimit)
    (apart : Apart source target)
    (sourceFits : (base.below source).bytes.length ≤ pathLimit)
    (directory : tree.hasDirectory (place ++ source) = true)
    {fault : Fault} {reached : Tree}
    (refused : PackageRename.placeDirectory (base.below source)
      (base.below target) tree = (.error fault, reached)) : reached = tree := by
  rcases List.eq_nil_or_concat target with empty | ⟨front, last, isTarget⟩
  · exact absurd empty apart.nonempty_right
  rw [List.concat_eq_append] at isTarget
  subst isTarget
  have frontShort : ∀ name ∈ front, name.length ≤ nameLimit :=
    fun name member => short name (List.mem_append_left _ member)
  have frontFits : (base.below front).bytes.length ≤ pathLimit :=
    Nat.le_trans (Path.length_below_le_append plain) fits
  by_cases opened : tree.IsOpen place front
  · obtain ⟨made, isMade, madeGround, isRename⟩ :=
      ground.placeDirectory_eq_rename plain frontShort frontFits opened
    have renamed := madeGround.rename sourceFits (isMade.keeps directory) plain
      fits isMade.hasDirectory apart
    rw [if_neg (Nat.not_lt.mpr (short last (by simp)))] at renamed
    rw [isRename, renamed] at refused
    cases replaces : made.checkReplaced .made
        (place ++ (front ++ [last])) with
    | ok free =>
        rw [replaces] at refused
        cases refused
    | error occupied =>
        rw [replaces] at refused
        obtain rfl : made = reached := congrArg Prod.snd refused
        have present : (tree.node? (place ++ (front ++ [last]))).isSome := by
          rw [Option.isSome_iff_ne_none]
          intro missing
          have free := checkReplaced_made_eq_ok.mpr
            (isMade.missing_or_empty.mpr (.inl missing))
          rw [replaces] at free
          cases free
        rw [← List.append_assoc] at present
        exact isMade.eq_of_hasDirectory
          (hasDirectory_of_append present (by simp))
  · obtain ⟨obstacle, isBlocked⟩ :=
      ground.createDirectories_of_blocked plain.left frontShort frontFits opened
    rw [placeDirectory_below plain, isBlocked] at refused
    exact (congrArg Prod.snd refused).symm

/-! ### Pruning -/

/-- Inside a place, on a way, and with nothing at or below it that is not on the
way. -/
structure IsBarren (tree : Tree) (place way idle : Place) : Prop where
  inside : Inside place idle
  above : idle <+: way
  barren : ∀ inner, idle <+: inner → (tree.node? inner).isSome → inner <+: way

/-- The tree without the barren directories on a way. -/
structure HasPruned (tree : Tree) (place way : Place) (pruned : Tree) :
    Prop where
  origin : pruned.origin = tree.origin
  removed : ∀ other, tree.IsBarren place way other → pruned.node? other = none
  kept : ∀ other, ¬ tree.IsBarren place way other →
    pruned.node? other = tree.node? other

theorem hasPruned_of_filled {way : Place} {rest : List Name}
    (present : (tree.node? (way ++ rest)).isSome) (nonempty : rest ≠ []) :
    tree.HasPruned place way tree := by
  have filled : ∀ other, ¬ tree.IsBarren place way other := by
    intro other isBarren
    exact nonempty (append_prefix_iff.mp (isBarren.barren (way ++ rest)
      (isBarren.above.trans (List.prefix_append _ _)) present))
  exact ⟨rfl, fun other isBarren => absurd isBarren (filled other),
    fun _ _ => rfl⟩

theorem HasPruned.isGround {way : Place}
    (isPruned : tree.HasPruned place way pruned)
    (ground : tree.IsGround base place) : pruned.IsGround base place := by
  have comes : ∀ other, (pruned.node? other).isSome →
      pruned.node? other = tree.node? other := by
    intro other present
    apply isPruned.kept
    intro isBarren
    rw [isPruned.removed other isBarren] at present
    cases present
  refine ground.transfer isPruned.origin ?_ ?_ ?_
  · intro other outside
    exact isPruned.kept other fun isBarren => outside isBarren.inside
  · intro names link share isLink
    rw [comes _ (by rw [isLink]; rfl)] at isLink
    exact ground.linkless names link share isLink
  · intro names present
    rw [comes _ present] at present
    exact ground.legal names present

theorem isBarren_of_empty (empty : tree.isEmptyDirectory old = true)
    (inside : Inside place old) : tree.IsBarren place old old := by
  refine ⟨inside, List.prefix_refl _, ?_⟩
  rintro inner ⟨rest, isInner⟩ present
  subst isInner
  cases rest with
  | nil => simp
  | cons name more =>
      rw [(isEmptyDirectory_iff.mp empty).2 _ (List.cons_ne_nil _ _)] at present
      cases present

/-- After the last directory on a way is gone, the others are pruned as if the
way ended before it. -/
theorem HasPruned.of_removed {way : Place} {last : Name} {bare : Tree}
    (empty : tree.isEmptyDirectory (way ++ [last]) = true)
    (onWay : place <+: way)
    (isPruned :
      (tree.remove (way ++ [last])).HasPruned place way bare) :
    tree.HasPruned place (way ++ [last]) bare := by
  have removed := @node?_remove tree (way ++ [last]) (by simp)
  have inside : Inside place (way ++ [last]) := by
    obtain ⟨more, rfl⟩ := onWay
    rw [List.append_assoc]
    exact inside_append_iff.mpr (by simp)
  have lastBarren := isBarren_of_empty empty inside
  -- What is barren up to the last directory is barren without it.
  have shorten : ∀ other, other ≠ way ++ [last] →
      tree.IsBarren place (way ++ [last]) other →
      (tree.remove (way ++ [last])).IsBarren place way other := by
    intro other different isBarren
    refine ⟨isBarren.inside,
      (List.prefix_concat_iff.mp isBarren.above).resolve_left different, ?_⟩
    intro inner below present
    rw [removed] at present
    split at present
    · cases present
    · rename_i elsewhere
      refine (List.prefix_concat_iff.mp
        (isBarren.barren inner below present)).resolve_left ?_
      exact fun same => elsewhere (same ▸ List.prefix_refl _)
  refine ⟨isPruned.origin.trans (origin_remove _), ?_, ?_⟩
  · intro other isBarren
    by_cases same : other = way ++ [last]
    · subst same
      rw [isPruned.kept, removed, if_pos (List.prefix_refl _)]
      exact fun isBarren =>
        List.cons_ne_nil _ _ (append_prefix_iff.mp isBarren.above)
    · exact isPruned.removed other (shorten other same isBarren)
  · intro other notBarren
    have elsewhere : ¬ (way ++ [last] <+: other ∧
        (tree.node? other).isSome) := by
      rintro ⟨below, present⟩
      have same := lastBarren.barren other below present
      exact notBarren (below.eq_of_length_le same.length_le ▸ lastBarren)
    rw [isPruned.kept, removed]
    · split
      · rename_i below
        cases isNode : tree.node? other with
        | none => rfl
        | some node => exact absurd ⟨below, by rw [isNode]; rfl⟩ elsewhere
      · rfl
    · intro isBarren
      apply notBarren
      refine ⟨isBarren.inside,
        isBarren.above.trans (List.prefix_append _ _), ?_⟩
      intro inner below present
      by_cases behind : way ++ [last] <+: inner
      · exact lastBarren.barren inner behind present
      · refine (isBarren.barren inner below ?_).trans (List.prefix_append _ _)
        rw [removed, if_neg behind]
        exact present

/-- Removing a directory below the base leaves a ground. -/
theorem IsGround.remove (ground : tree.IsGround base place)
    (nonempty : target ≠ []) :
    (tree.remove (place ++ target)).IsGround base place := by
  have removed := @node?_remove tree (place ++ target) (by simp [nonempty])
  refine ground.transfer (origin_remove _) ?_ ?_ ?_
  · intro other outside
    rw [removed, if_neg]
    exact fun below => outside (inside_of_append below nonempty)
  · intro names link share isLink
    rw [removed] at isLink
    split at isLink
    · cases isLink
    · exact ground.linkless names link share isLink
  · intro names present
    rw [removed] at present
    split at present
    · cases present
    · exact ground.legal names present

theorem exists_below_of_filled (directory : tree.hasDirectory place = true)
    (filled : tree.isEmptyDirectory place = false) :
    ∃ rest, rest ≠ [] ∧ (tree.node? (place ++ rest)).isSome := by
  by_contra nothing
  refine Bool.eq_false_iff.mp filled
    (isEmptyDirectory_iff.mpr ⟨directory, fun rest nonempty => ?_⟩)
  rw [← Option.not_isSome_iff_eq_none]
  exact fun present => nothing ⟨rest, nonempty, present⟩

/-- Pruning upwards from a directory removes the barren ones. -/
theorem IsGround.pruneAlong (ground : tree.IsGround base place)
    (fits : (base.below source).bytes.length ≤ pathLimit)
    (directory : tree.hasDirectory (place ++ source) = true) :
    tree.HasPruned place (place ++ source)
      (pruneAlong base (base.under source :: (base.under source).ancestors)
        tree) := by
  induction source using List.reverseRecOn generalizing tree with
  | nil =>
      have notBelow : (base.under []).isStrictlyBelow base = false := by
        rw [Bool.eq_false_iff, ne_eq,
          Path.isStrictlyBelow_under ground.written (by simp [Path.ArePlain])]
        simp
      rw [PackageRename.pruneAlong, notBelow, if_neg Bool.false_ne_true,
        List.append_nil]
      refine ⟨rfl, fun other isBarren => ?_, fun _ _ => rfl⟩
      exact absurd isBarren.inside (not_inside_above isBarren.above)
  | append_singleton front last induction =>
      have plain := ground.plain_names (hasDirectory_isSome directory)
      have nonempty : front ++ [last] ≠ [] := by simp
      have strictlyBelow :
          (base.below (front ++ [last])).isStrictlyBelow base = true :=
        (Path.isStrictlyBelow_below plain).mpr nonempty
      rw [Path.under_of_ne_nil nonempty, PackageRename.pruneAlong,
        if_pos strictlyBelow,
        ground.removeDirectory fits directory]
      cases empty : tree.isEmptyDirectory (place ++ (front ++ [last])) with
      | true =>
          rw [if_pos rfl]
          simp only
          rw [Path.ancestors_below ground.written plain]
          have keptParent : (tree.remove
              (place ++ (front ++ [last]))).hasDirectory (place ++ front) =
              true := by
            rw [Tree.hasDirectory, node?_remove (by simp), if_neg (by simp)]
            exact hasDirectory_upward directory (by simp)
          have isPruned := induction (ground.remove nonempty)
            (Nat.le_trans (Path.length_below_le_append plain) fits) keptParent
          rw [← List.append_assoc] at empty isPruned ⊢
          exact isPruned.of_removed empty (List.prefix_append _ _)
      | false =>
          rw [if_neg Bool.false_ne_true]
          obtain ⟨rest, some, present⟩ := exists_below_of_filled directory empty
          exact hasPruned_of_filled present some

end Tree

end PackageRename
