import PackageRename.Proofs.Path.Within
import PackageRename.Proofs.Relocation.Placing
import PackageRename.Proofs.Tree.Reshaping

/-!
# Changes inside a ground

A path that lies inside a base has its slot inside the ground the base leads to.
Making, removing or renaming a directory there leaves the ground a ground, and
everything outside as it was.  Directories on the way to the base are there
already and are not made.
-/

namespace PackageRename

open PackageRename.Path

namespace Tree

variable {tree reached : Tree} {base path : Path} {place : Place} {slot : Slot}

/-! ### Slots inside a ground -/

theorem steps_unslashed (pieces : List Name) :
    steps (unslashed pieces) = steps pieces := by
  have isReversed : ∀ pieces : List Name,
      steps pieces.reverse = (steps pieces).reverse := fun pieces =>
    List.filter_reverse ..
  have isDropped : ∀ pieces : List Name,
      steps (pieces.dropWhile (· = [])) = steps pieces := by
    intro pieces
    induction pieces with
    | nil => rfl
    | cons piece rest induction =>
        rw [List.dropWhile_cons]
        split
        · rename_i empty
          rw [induction, steps_cons_of_spelling]
          exact isSpelling_iff.mpr (.inl (of_decide_eq_true empty))
        · rfl
  rw [unslashed, isReversed, isDropped, isReversed, List.reverse_reverse]

/-- The pieces of a path that count end in the name of its slot, unless that is
spelling. -/
theorem Slot.IsOf.steps (isOf : slot.IsOf tree path)
    (nonempty : unslashed path.pieces ≠ []) :
    Path.steps path.pieces =
      Path.steps (unslashed path.pieces).dropLast ++ Path.steps [slot.name] := by
  obtain ⟨front, last, isPieces⟩ :=
    (List.eq_nil_or_concat (unslashed path.pieces)).resolve_left nonempty
  rw [List.concat_eq_append] at isPieces
  have isLast : slot.name = last := by
    rw [isOf.name, isPieces, List.getLast?_concat]
    rfl
  rw [← steps_unslashed, isPieces, List.dropLast_concat, isLast, steps_append]

/-- Behind the pieces of a base that count, following names leads below the
place of the base. -/
theorem LeadsInto.follows (leads : tree.LeadsInto base place)
    {pieces front : List Name} {parent : Place}
    (sameStart : path.isAbsolute = base.isAbsolute)
    (isSteps : steps pieces = steps base.pieces ++ front)
    (plain : ArePlain front) (follows : tree.follow path pieces = .ok parent) :
    parent = place ++ front := by
  have stepped := follow_steps follows
  rw [isSteps] at stepped
  by_cases empty : front = []
  · rw [empty, List.append_nil] at stepped ⊢
    rw [follow_eq_of_normal sameStart rfl, resolve_steps leads.resolved]
      at stepped
    exact (Except.ok.inj stepped).symm
  · have isStem : steps base.stem = steps base.pieces := by
      by_cases closed : base.IsClosed
      · rw [closed.stem]
      · rw [pieces_of_not_isClosed closed, steps_append]
        exact (List.append_nil _).symm
    have isNormal : normal (steps base.pieces ++ front) =
        normal (base.stem ++ front) := by
      apply normal_eq_of_steps
      · rw [steps_append, steps_append, steps_steps, isStem]
      · rw [endsInSpelling_append empty, endsInSpelling_append empty]
    rw [follow_eq_of_normal rfl isNormal, leads.follow_stem sameStart plain]
      at stepped
    exact (enter_eq_ok plain stepped).1

/-- The slot of a path inside the base lies inside the ground. -/
theorem LeadsInto.slot_inside (leads : tree.LeadsInto base place)
    (inside : path.LiesInside base) (found : tree.slot path = .ok slot) :
    ∃ front, slot.parent = place ++ front := by
  have isOf := Slot.isOf found
  have nulless := (checkPath_eq_ok.mp isOf.checked).1
  have sameStart := inside.liesWithin.isAbsolute
  obtain ⟨names, nonempty, isComponents⟩ := inside
  obtain ⟨plain, isSteps⟩ := steps_of_components isComponents nulless
  have written : unslashed path.pieces ≠ [] := by
    intro empty
    rw [← steps_unslashed, empty] at isSteps
    exact nonempty (List.append_eq_nil_iff.mp isSteps.symm).2
  rw [isOf.steps written] at isSteps
  cases spelling : isSpelling slot.name with
  | true =>
      rw [steps_cons_of_spelling spelling] at isSteps
      exact ⟨names, leads.follows sameStart
        ((List.append_nil _).symm.trans isSteps) plain isOf.follows⟩
  | false =>
      obtain ⟨front, last, isNames⟩ :=
        (List.eq_nil_or_concat names).resolve_left nonempty
      rw [List.concat_eq_append] at isNames
      rw [steps_cons spelling, isNames, ← List.append_assoc] at isSteps
      exact ⟨front, leads.follows sameStart
        (List.append_inj' isSteps rfl).1 (isNames ▸ plain).left isOf.follows⟩

/-! ### The way to a base -/

/-- Whatever a lookup passes through is there. -/
theorem isSome_of_follow {front rest : List Name} {piece : Name}
    {parent : Place} (plain : piece.IsPlain)
    (follows : tree.follow path front = .ok parent)
    (goesOn : tree.follow path (front ++ piece :: rest) = .ok place) :
    (tree.node? (parent ++ [piece])).isSome := by
  obtain ⟨start, trail, isStart, isTrail, isParent⟩ := follow_eq_ok.mp follows
  obtain ⟨other, final, isOther, isFinal, -⟩ := follow_eq_ok.mp goesOn
  cases isStart.symm.trans isOther
  have atTop : Trail.Leads tree [] := trivial
  obtain ⟨leads, -⟩ := extend?_eq_some atTop rfl isStart
  rcases descendThrough_splits linkLimit leads front (piece :: rest) with
    ⟨fault, failed, -⟩ | ⟨found, left, isFound, foundLeads, isWhole⟩
  · rw [isTrail] at failed
    cases failed
  · cases isTrail.symm.trans isFound
    rw [isWhole] at isFinal
    obtain ⟨-, next, takes⟩ := descendThrough_cons_eq_ok foundLeads isFinal
    obtain ⟨-, -, present⟩ := takes.of_undotted plain.undotted plain.notParent
    exact isParent ▸ present

/-- On the way to the base nothing is free. -/
theorem makeDirectory_above (resolved : tree.resolve base = .ok place)
    (above : path.components <+: base.components) :
    tree.makeDirectory path ≠ .ok reached := by
  intro made
  obtain ⟨slot, found, legal, free, -⟩ := makeDirectory_eq_ok made
  have isOf := Slot.isOf found
  have written := (checkPath_eq_ok.mp isOf.checked).2.1
  have sameStart := isAbsolute_of_prefix written above
  obtain ⟨more, isBase⟩ := above
  have isName : steps [slot.name] = [slot.name] :=
    steps_cons legal.plain.not_isSpelling []
  have nonempty : unslashed path.pieces ≠ [] := by
    intro empty
    have isEmpty := isOf.name
    rw [empty] at isEmpty
    exact legal.plain.nonempty isEmpty
  have isSteps : steps base.pieces =
      steps (unslashed path.pieces).dropLast ++
        slot.name :: steps (more.map Component.piece) := by
    rw [steps_pieces base, ← isBase, List.map_append, steps_append,
      ← steps_pieces path, isOf.steps nonempty, isName, List.append_assoc]
    rfl
  have goesOn := resolve_steps resolved
  rw [isSteps, ← follow_eq_of_normal sameStart rfl] at goesOn
  have present := isSome_of_follow legal.plain (follow_steps isOf.follows) goesOn
  rw [Slot.place] at free
  rw [free] at present
  cases present

/-! ### Changes that stay inside -/

/-- The ground is still one, and nothing outside has changed. -/
structure HasStayed (tree : Tree) (base : Path) (place : Place)
    (reached : Tree) : Prop where
  ground : reached.IsGround base place
  outside : ∀ other, ¬ Inside place other →
    reached.node? other = tree.node? other

theorem IsGround.hasStayed (ground : tree.IsGround base place) :
    tree.HasStayed base place tree :=
  ⟨ground, fun _ _ => rfl⟩

theorem HasStayed.trans {final : Tree}
    (first : tree.HasStayed base place reached)
    (second : reached.HasStayed base place final) :
    tree.HasStayed base place final :=
  ⟨second.ground, fun other isOutside =>
    (second.outside other isOutside).trans (first.outside other isOutside)⟩

theorem LeadsInto.legal_above (leads : tree.LeadsInto base place)
    {names : List Name} (directory : tree.hasDirectory (place ++ names) = true) :
    ∀ name ∈ names, Name.IsLegal name :=
  leads.legal names (hasDirectory_isSome directory)

theorem HasStayed.of_makeDirectory (ground : tree.IsGround base place)
    (lies : path.LiesInside base ∨ path.components <+: base.components)
    (made : tree.makeDirectory path = .ok reached) :
    tree.HasStayed base place reached := by
  rcases lies with inside | above
  · obtain ⟨slot, found, legal, free, isReached⟩ := makeDirectory_eq_ok made
    obtain ⟨front, isParent⟩ := ground.slot_inside inside found
    have directory := (Slot.isOf found).directory
    rw [isParent] at directory
    rw [Slot.place, isParent] at free
    rw [isReached, isParent]
    have allLegal : ∀ name ∈ front ++ [slot.name], Name.IsLegal name :=
      List.forall_mem_append.mpr
        ⟨ground.legal_above directory, List.forall_mem_singleton.mpr legal⟩
    have isMade := hasMade_insert directory free
    rw [List.append_assoc] at isMade
    refine ⟨isMade.isGround ground
      (fun name member => (allLegal name member).plain)
      (fun name member => (allLegal name member).fits), fun other outside => ?_⟩
    rw [node?_insert directory free, if_neg]
    intro same
    rw [same, List.append_assoc] at outside
    exact outside (inside_append_iff.mpr (by simp))
  · exact absurd made (makeDirectory_above ground.resolved above)

theorem HasStayed.of_removeDirectory (ground : tree.IsGround base place)
    (inside : path.LiesInside base)
    (removed : tree.removeDirectory path = .ok reached) :
    tree.HasStayed base place reached := by
  obtain ⟨slot, found, empty, isReached⟩ := removeDirectory_eq_ok removed
  obtain ⟨front, isParent⟩ := ground.slot_inside inside found
  have isPlace : slot.place = place ++ (front ++ [slot.name]) := by
    rw [Slot.place, isParent, List.append_assoc]
  have isNode : ∀ other, reached.node? other =
      if slot.place <+: other then none else tree.node? other := by
    rw [isReached]
    exact node?_remove (by simp [Slot.place])
  have outside : ∀ other, ¬ Inside place other →
      reached.node? other = tree.node? other := by
    intro other isOutside
    rw [isNode, if_neg]
    intro below
    exact isOutside (inside_of_append (isPlace ▸ below) (by simp))
  refine ⟨ground.transfer ?_ outside ?_ ?_, outside⟩
  · rw [isReached, origin_remove]
  · intro names target share isLink
    rw [isNode] at isLink
    split at isLink
    · cases isLink
    · exact ground.linkless names target share isLink
  · intro names present
    rw [isNode] at present
    split at present
    · cases present
    · exact ground.legal names present

theorem HasStayed.of_rename {source target : Path}
    (ground : tree.IsGround base place) (sourceInside : source.LiesInside base)
    (targetInside : target.LiesInside base)
    (renamed : tree.rename source target = .ok reached) :
    tree.HasStayed base place reached := by
  obtain ⟨old, new, moved, foundOld, foundNew, -, found⟩ := rename_eq_ok renamed
  split at found
  · rw [found]
    exact ground.hasStayed
  · obtain ⟨oldFront, isOldParent⟩ := ground.slot_inside sourceInside foundOld
    obtain ⟨newFront, isNewParent⟩ := ground.slot_inside targetInside foundNew
    have isMoved := found.hasMoved
    have directory := found.directory
    rw [isNewParent] at directory
    rw [Slot.place, Slot.place, isOldParent, isNewParent, List.append_assoc,
      List.append_assoc] at isMoved
    refine ⟨isMoved.isGround ground (by simp) (by simp)
      (List.forall_mem_append.mpr ⟨ground.legal_above directory,
        List.forall_mem_singleton.mpr found.legal⟩), fun other outside => ?_⟩
    exact isMoved.kept
      (fun below => outside (inside_of_append below (by simp)))
      (fun below => outside (inside_of_append below (by simp)))

theorem IsGround.hasStayed_createAlong (ground : tree.IsGround base place)
    {paths : List Path} (lie : ∀ path ∈ paths,
      path.LiesInside base ∨ path.components <+: base.components) :
    tree.HasStayed base place (tree.createAlong paths).2 :=
  createAlong_keeps ground.hasStayed fun path member _ _ stays isMade =>
    stays.trans (.of_makeDirectory stays.ground (lie path member) isMade)

end Tree

end PackageRename
