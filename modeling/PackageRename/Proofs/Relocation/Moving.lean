import PackageRename.Proofs.Relocation.Placing

/-!
# Moving a directory

When a directory can be moved, and what the tree looks like afterwards, place by
place.  Whether the directory is parked on the way makes no difference to the
outcome.
-/

namespace PackageRename

namespace Tree

variable {tree parked bare placed final : Tree} {base : Path}
variable {place old new : Place} {source target : List Name}

/-- A directory inside a place from which one only comes to another place. -/
structure IsDeserted (tree : Tree) (place old idle : Place) : Prop where
  inside : Inside place idle
  above : idle <+: old
  deserted : ∀ inner, idle <+: inner → (tree.node? inner).isSome →
    inner <+: old ∨ old <+: inner

/-- One place lies at or below the other. -/
def Nested (first second : Place) : Prop :=
  first <+: second ∨ second <+: first

theorem Nested.append_left {front first second : Place} :
    Nested (front ++ first) (front ++ second) ↔ Nested first second := by
  simp [Nested]

theorem apart_of_not_nested {first second : Place}
    (notNested : ¬ Nested first second) : Apart first second :=
  not_or.mp notNested

/-- What lies on the way to the old place is comparable with the new one. -/
theorem Nested.upward {first second other : Place}
    (nested : Nested first second) (above : other <+: first) :
    Nested other second := by
  rcases nested with before | after
  · exact .inl (above.trans before)
  · exact List.prefix_or_prefix_of_prefix above after

/-- A directory that is pruned by a move.  On the way to the new place that only
happens while the moved directory is parked. -/
structure IsPruned (tree : Tree) (place old new idle : Place) : Prop where
  deserted : tree.IsDeserted place old idle
  proper : ¬ old <+: idle
  spent : Nested old new ∨ ¬ idle <+: new

/-- The tree with everything from an old place at a new one, directories on the
way to the new place, and no deserted directories on the way to the old one.
Directories that have been on the way keep their modes unless they are moved or
pruned before the way is made. -/
structure HasRelocated (tree : Tree) (place old new : Place) (final : Tree) :
    Prop where
  origin : final.origin = tree.origin
  arrived : ∀ rest, final.node? (new ++ rest) = tree.node? (old ++ rest)
  above : ∀ other, other <+: new → other ≠ new →
    final.hasDirectory other = true
  remade : ∀ other, other <+: new → other ≠ new →
    old <+: other ∨ tree.IsPruned place old new other →
    final.node? other = some .made
  onWay : ∀ other, other <+: new → other ≠ new → ¬ old <+: other →
    ¬ tree.IsPruned place old new other →
    final.node? other = some ((tree.node? other).getD .made)
  left : ∀ other, old <+: other → ¬ new <+: other → ¬ other <+: new →
    final.node? other = none
  deserted : ∀ other, tree.IsDeserted place old other → ¬ new <+: other →
    ¬ other <+: new → final.node? other = none
  kept : ∀ other, ¬ new <+: other → ¬ other <+: new → ¬ old <+: other →
    ¬ tree.IsDeserted place old other → final.node? other = tree.node? other

/-- The tree with some directories made anew: they are there, with the mode of
new ones. -/
structure HasRemade (tree : Tree) (gone : Place → Prop) (final : Tree) :
    Prop where
  origin : final.origin = tree.origin
  remade : ∀ other, gone other → final.node? other = some .made
  kept : ∀ other, ¬ gone other → final.node? other = tree.node? other

/-- Making directories anew that have the mode of new ones changes nothing. -/
theorem HasRemade.eq_of_made {gone : Place → Prop}
    (isRemade : tree.HasRemade gone final)
    (wasMade : ∀ other, gone other → tree.node? other = some .made) :
    final = tree := by
  refine eq_of_node? isRemade.origin fun other => ?_
  by_cases isGone : gone other
  · rw [isRemade.remade other isGone, wasMade other isGone]
  · exact isRemade.kept other isGone

/-- What is there after a move has come with it, or lies on the way to the new
place, or was there before. -/
theorem HasRelocated.cases_of_isSome
    (relocated : tree.HasRelocated place old new final) {inner : Place}
    (present : (final.node? inner).isSome) :
    (∃ rest, inner = new ++ rest ∧
        final.node? inner = tree.node? (old ++ rest)) ∨
      (inner <+: new ∧ final.hasDirectory inner = true) ∨
      (¬ old <+: inner ∧ final.node? inner = tree.node? inner) := by
  by_cases below : new <+: inner
  · obtain ⟨rest, rfl⟩ := below
    exact .inl ⟨rest, rfl, relocated.arrived rest⟩
  by_cases above : inner <+: new
  · refine .inr (.inl ⟨above, relocated.above inner above ?_⟩)
    rintro rfl
    exact below (List.prefix_refl _)
  by_cases moved : old <+: inner
  · rw [relocated.left inner moved below above] at present
    cases present
  by_cases deserted : tree.IsDeserted place old inner
  · rw [relocated.deserted inner deserted below above] at present
    cases present
  exact .inr (.inr ⟨moved, relocated.kept inner below above moved deserted⟩)

/-! ### A move without parking -/

section Placed

variable {way : Place} {last : Name}
variable (isPlaced : tree.HasPlaced (way ++ [last]) new placed)

include isPlaced

/-- Beside the new place, a directory that has led to the old one alone has been
left barren, and no other. -/
theorem HasPlaced.isBarren_iff {other : Place} (elsewhere : ¬ new <+: other)
    (notAbove : ¬ other <+: new) (outside : ¬ way ++ [last] <+: other) :
    placed.IsBarren place way other ↔
      tree.IsDeserted place (way ++ [last]) other := by
  have isWay : way <+: way ++ [last] := List.prefix_append _ _
  constructor
  · intro isBarren
    refine ⟨isBarren.inside, isBarren.above.trans isWay, ?_⟩
    intro inner further present
    by_cases behind : way ++ [last] <+: inner
    · exact .inr behind
    · refine .inl ((isBarren.barren inner further ?_).trans isWay)
      rw [isPlaced.kept_below elsewhere notAbove further behind]
      exact present
  · intro isDeserted
    refine ⟨isDeserted.inside, ?_, ?_⟩
    · refine (List.prefix_concat_iff.mp isDeserted.above).resolve_left ?_
      exact fun same => outside (same ▸ List.prefix_refl _)
    · intro inner further present
      have notBehind : ¬ way ++ [last] <+: inner := by
        intro behind
        rw [isPlaced.left inner behind] at present
        cases present
      rw [isPlaced.kept_below elsewhere notAbove further notBehind] at present
      have onWay := (isDeserted.deserted inner further present).resolve_right
        notBehind
      exact (List.prefix_concat_iff.mp onWay).resolve_left
        fun same => notBehind (same ▸ List.prefix_refl _)

/-- The new place and the way to it are not barren. -/
theorem HasPlaced.not_isBarren (apart : Apart (way ++ [last]) new)
    (directory : tree.hasDirectory (way ++ [last]) = true) {other : Place}
    (onWay : new <+: other ∨ other <+: new) :
    ¬ placed.IsBarren place way other := by
  intro isBarren
  have isWay : way <+: way ++ [last] := List.prefix_append _ _
  rcases onWay with below | above
  · exact apart.2 (below.trans (isBarren.above.trans isWay))
  · have arrived := isPlaced.arrived []
    rw [List.append_nil, List.append_nil] at arrived
    have present : (placed.node? new).isSome := by
      rw [arrived]
      exact hasDirectory_isSome directory
    exact apart.2 ((isBarren.barren new above present).trans isWay)

theorem hasRelocated_of_placed (apart : Apart (way ++ [last]) new)
    (directory : tree.hasDirectory (way ++ [last]) = true)
    (isPruned : placed.HasPruned place way final) :
    tree.HasRelocated place (way ++ [last]) new final := by
  -- Nothing is left at and below the old place.
  have gone : ∀ other, way ++ [last] <+: other → final.node? other = none := by
    intro other below
    rw [isPruned.kept, isPlaced.left other below]
    exact fun isBarren => List.cons_ne_nil _ _
      (append_prefix_iff.mp (below.trans isBarren.above))
  have keptAbove : ∀ other, other <+: new →
      final.node? other = placed.node? other := fun other above =>
    isPruned.kept _ (isPlaced.not_isBarren apart directory (.inr above))
  refine ⟨isPruned.origin.trans isPlaced.origin, ?_, ?_, ?_, ?_, ?_, ?_, ?_⟩
  · intro rest
    rw [isPruned.kept _ (isPlaced.not_isBarren apart directory
      (.inl (List.prefix_append _ _)))]
    exact isPlaced.arrived rest
  · intro other above different
    rw [hasDirectory, keptAbove other above]
    exact isPlaced.above other above different
  · rintro other above - (below | ⟨-, -, nested | elsewhere⟩)
    · exact absurd (below.trans above) apart.1
    · exact absurd nested (not_or.mpr apart)
    · exact absurd above elsewhere
  · intro other above different _ _
    rw [keptAbove other above]
    exact isPlaced.onWay other above different
  · exact fun other below _ _ => gone other below
  · intro other isDeserted elsewhere notAbove
    by_cases below : way ++ [last] <+: other
    · exact gone other below
    · exact isPruned.removed other
        ((isPlaced.isBarren_iff elsewhere notAbove below).mpr isDeserted)
  · intro other elsewhere notAbove outside notDeserted
    rw [isPruned.kept other (mt
        (isPlaced.isBarren_iff elsewhere notAbove outside).mp notDeserted),
      isPlaced.kept other elsewhere notAbove outside]

end Placed

/-! ### A move with parking -/

section Parking

variable {way : Place} {last park : Name}
variable (apart : Apart (way ++ [last]) (place ++ [park]))
variable (free : tree.node? (place ++ [park]) = none)
variable (isMoved : tree.HasMoved (way ++ [last]) (place ++ [park]) parked)

include apart free isMoved

/-- While a directory is parked, the directories that have led to it alone are
barren, and no others. -/
theorem isBarren_of_parked_iff {other : Place} :
    parked.IsBarren place way other ↔
      tree.IsDeserted place (way ++ [last]) other ∧
        ¬ way ++ [last] <+: other := by
  have isWay : way <+: way ++ [last] := List.prefix_append _ _
  constructor
  · intro isBarren
    refine ⟨⟨isBarren.inside, isBarren.above.trans isWay, ?_⟩, fun below =>
      List.cons_ne_nil _ _ (append_prefix_iff.mp (below.trans isBarren.above))⟩
    intro inner further present
    by_cases behind : way ++ [last] <+: inner
    · exact .inr behind
    have notParked : ¬ place ++ [park] <+: inner := by
      rintro ⟨rest, rfl⟩
      rw [node?_append_of_missing free] at present
      cases present
    refine .inl ((isBarren.barren inner further ?_).trans isWay)
    rwa [isMoved.kept notParked behind]
  · rintro ⟨isDeserted, proper⟩
    refine ⟨isDeserted.inside, (List.prefix_concat_iff.mp
      isDeserted.above).resolve_left fun same => proper (same ▸
        List.prefix_refl _), ?_⟩
    intro inner further present
    have notParked : ¬ place ++ [park] <+: inner := by
      intro isParked
      rcases List.prefix_or_prefix_of_prefix further isParked with
        onWay | below
      · -- Inside the place nothing leads to where the directory is parked.
        rcases List.prefix_concat_iff.mp onWay with same | outside
        · exact apart.2 (same ▸ isDeserted.above)
        · exact not_inside_above outside isDeserted.inside
      · exact apart.2 (below.trans isDeserted.above)
    have notBehind : ¬ way ++ [last] <+: inner := by
      intro behind
      rw [isMoved.left notParked behind] at present
      cases present
    rw [isMoved.kept notParked notBehind] at present
    have above := (isDeserted.deserted inner further present).resolve_right
      notBehind
    exact (List.prefix_concat_iff.mp above).resolve_left
      fun same => notBehind (same ▸ List.prefix_refl _)

theorem hasRelocated_of_parked (nested : Nested (way ++ [last]) new)
    (isPruned : parked.HasPruned place way bare)
    (isPlaced : bare.HasPlaced (place ++ [park]) new final) :
    tree.HasRelocated place (way ++ [last]) new final := by
  have isWay : way <+: way ++ [last] := List.prefix_append _ _
  have isBarren_iff := @isBarren_of_parked_iff _ _ _ _ _ _ apart free isMoved
  -- Where the directory is parked does not lie on the way to the new place.
  have notParked : ∀ other, other <+: new → other ≠ new →
      ¬ place ++ [park] <+: other := by
    intro other above different isParked
    have isDirectory := isPlaced.above other above different
    rw [hasDirectory, isPlaced.left other isParked] at isDirectory
    cases isDirectory
  refine ⟨isPlaced.origin.trans (isPruned.origin.trans isMoved.origin), ?_,
    isPlaced.above, ?_, ?_, ?_, ?_, ?_⟩
  · intro rest
    rw [isPlaced.arrived, isPruned.kept, isMoved.arrived]
    intro isBarren
    exact apart.2 ((List.prefix_append _ _).trans
      (isBarren.above.trans isWay))
  · intro other above different gone
    have missing : bare.node? other = none := by
      by_cases isBarren : parked.IsBarren place way other
      · exact isPruned.removed other isBarren
      rw [isPruned.kept other isBarren]
      refine isMoved.left (notParked other above different) ?_
      exact gone.resolve_right fun isPruned => isBarren
        (isBarren_iff.mpr ⟨isPruned.deserted, isPruned.proper⟩)
    rw [isPlaced.onWay other above different, missing]
    rfl
  · intro other above different outside notPruned
    rw [isPlaced.onWay other above different, isPruned.kept,
      isMoved.kept (notParked other above different) outside]
    intro isBarren
    obtain ⟨isDeserted, proper⟩ := isBarren_iff.mp isBarren
    exact notPruned ⟨isDeserted, proper, .inl nested⟩
  · intro other below elsewhere notAbove
    rw [isPlaced.kept other elsewhere notAbove (apart.not_both below)]
    by_cases isBarren : parked.IsBarren place way other
    · exact isPruned.removed other isBarren
    · rw [isPruned.kept other isBarren]
      exact isMoved.left (apart.not_both below) below
  · intro other isDeserted elsewhere notAbove
    exact absurd (nested.upward isDeserted.above)
      (not_or.mpr ⟨notAbove, elsewhere⟩)
  · intro other elsewhere notAbove outside notDeserted
    by_cases isParked : place ++ [park] <+: other
    · obtain ⟨rest, isOther⟩ := isParked
      subst isOther
      rw [isPlaced.left _ (List.prefix_append _ _),
        node?_append_of_missing free]
    · rw [isPlaced.kept other elsewhere notAbove isParked, isPruned.kept,
        isMoved.kept isParked outside]
      exact fun isBarren => notDeserted (isBarren_iff.mp isBarren).1

end Parking

/-! ### When a directory can be moved -/

/-- The name under which a package directory is parked. -/
def parkName : Name :=
  Utf8.encode stagingName

theorem parkName_isLegal : parkName.IsLegal := by
  decide

/-- What has to hold of a tree so that a directory can be moved: the new path can
be written, the directory can be parked if one place is nested in the other,
and nothing but the moved directory itself is in the way. -/
structure CanMove (tree : Tree) (base : Path) (place : Place)
    (source target : List Name) : Prop where
  short : ∀ name ∈ target, name.length ≤ nameLimit
  fits : (base.below target).bytes.length ≤ pathLimit
  parks : Nested source target →
    (base.below [parkName]).bytes.length ≤ pathLimit ∧
      tree.node? (place ++ [parkName]) = none
  opened : ∀ front, front <+: target → ¬ source <+: front →
    tree.node? (place ++ front) = none ∨
      tree.hasDirectory (place ++ front) = true
  vacant : ∀ rest, rest ≠ [] →
    (tree.node? (place ++ (target ++ rest))).isSome →
    Nested (target ++ rest) source

theorem Apart.not_nested_append {first second rest : Place}
    (apart : Apart first second) : ¬ Nested (second ++ rest) first := by
  rintro (before | after)
  · exact apart.2 ((List.prefix_append _ _).trans before)
  · exact apart.not_prefix_append after

/-- Apart from each other, moving a directory is placing it. -/
theorem canMove_iff_of_apart (apart : Apart source target) :
    tree.CanMove base place source target ↔
      tree.CanPlace base place target := by
  constructor
  · intro can
    refine ⟨can.short, can.fits, ?_, ?_⟩
    · intro front isPrefix
      exact can.opened front isPrefix
        fun behind => apart.1 (behind.trans isPrefix)
    · intro rest nonempty
      cases isNode : tree.node? (place ++ (target ++ rest)) with
      | none => rfl
      | some node =>
          exact absurd (can.vacant rest nonempty (by rw [isNode]; rfl))
            apart.not_nested_append
  · intro can
    refine ⟨can.short, can.fits, ?_, ?_, ?_⟩
    · exact fun nested => absurd nested (not_or.mpr apart)
    · exact fun front isPrefix _ => can.opened front isPrefix
    · intro rest nonempty present
      rw [can.vacant rest nonempty] at present
      cases present

section Parked

variable {front : List Name} {last park : Name}

/-- What is left of the tree while the directory is parked. -/
theorem node?_bare (isMoved : tree.HasMoved (place ++ (front ++ [last]))
      (place ++ [park]) parked)
    (isPruned : parked.HasPruned place (place ++ front) bare)
    {names : List Name} (elsewhere : ¬ [park] <+: names) :
    bare.node? (place ++ names) = none ∨
      (¬ front ++ [last] <+: names ∧
        bare.node? (place ++ names) = tree.node? (place ++ names)) := by
  have away : ¬ place ++ [park] <+: place ++ names :=
    fun isPrefix => elsewhere ((List.prefix_append_right_inj _).mp isPrefix)
  by_cases isBarren : parked.IsBarren place (place ++ front) (place ++ names)
  · exact .inl (isPruned.removed _ isBarren)
  · rw [isPruned.kept _ isBarren]
    by_cases behind : place ++ (front ++ [last]) <+: place ++ names
    · exact .inl (isMoved.left away behind)
    · exact .inr ⟨fun isPrefix => behind
        ((List.prefix_append_right_inj _).mpr isPrefix),
        isMoved.kept away behind⟩

/-- While the directory is parked, what stands below a place it can be moved to
lies on the way to where it was. -/
theorem onWay_of_parked (apart : Apart [park] target)
    (isMoved : tree.HasMoved (place ++ (front ++ [last])) (place ++ [park])
      parked)
    (can : tree.CanMove base place (front ++ [last]) target) {rest : List Name}
    (nonempty : rest ≠ [])
    (present : (parked.node? (place ++ (target ++ rest))).isSome) :
    target ++ rest <+: front := by
  have away : ¬ place ++ [park] <+: place ++ (target ++ rest) := by
    rw [List.prefix_append_right_inj]
    exact fun isParked => apart.not_both isParked (List.prefix_append _ _)
  have notBehind : ¬ place ++ (front ++ [last]) <+: place ++ (target ++ rest) := by
    intro behind
    rw [isMoved.left away behind] at present
    cases present
  rw [isMoved.kept away notBehind] at present
  rw [List.prefix_append_right_inj] at notBehind
  have above := (can.vacant rest nonempty present).resolve_right notBehind
  refine (List.prefix_concat_iff.mp above).resolve_left ?_
  exact fun whole => notBehind (whole ▸ List.prefix_refl _)

/-- While it is parked, a directory can be placed where it can be moved. -/
theorem canPlace_of_canMove (apart : Apart [park] target)
    (isMoved : tree.HasMoved (place ++ (front ++ [last])) (place ++ [park])
      parked)
    (isPruned : parked.HasPruned place (place ++ front) bare)
    (can : tree.CanMove base place (front ++ [last]) target) :
    bare.CanPlace base place target := by
  refine ⟨can.short, can.fits, ?_, ?_⟩
  · intro first isPrefix
    have elsewhere : ¬ [park] <+: first :=
      fun isParked => apart.1 (isParked.trans isPrefix)
    rcases node?_bare isMoved isPruned elsewhere with gone | ⟨outside, same⟩
    · exact .inl gone
    · rw [hasDirectory, same]
      exact can.opened first isPrefix outside
  · intro rest nonempty
    have elsewhere : ¬ [park] <+: target ++ rest :=
      fun isParked => apart.not_both isParked (List.prefix_append _ _)
    rcases node?_bare isMoved isPruned elsewhere with gone | ⟨outside, same⟩
    · exact gone
    cases isNode : tree.node? (place ++ (target ++ rest)) with
    | none => rw [same, isNode]
    | some node =>
        have present : (parked.node? (place ++ (target ++ rest))).isSome := by
          rw [isMoved.kept, isNode]
          · rfl
          · rwa [List.prefix_append_right_inj]
          · rwa [List.prefix_append_right_inj]
        apply isPruned.removed
        refine ⟨inside_append_iff.mpr (by simp [nonempty]), ?_, ?_⟩
        · rw [List.prefix_append_right_inj]
          exact onWay_of_parked apart isMoved can nonempty present
        · rintro inner ⟨more, isInner⟩ innerPresent
          rw [List.append_assoc, List.append_assoc] at isInner
          subst isInner
          rw [List.prefix_append_right_inj]
          exact onWay_of_parked apart isMoved can (by simp [nonempty])
            innerPresent

/-- While it is parked, a directory can be moved where it can be placed. -/
theorem canMove_of_canPlace (nested : Nested (front ++ [last]) target)
    (apart : Apart [park] target)
    (directory : tree.hasDirectory (place ++ (front ++ [last])) = true)
    (isMoved : tree.HasMoved (place ++ (front ++ [last])) (place ++ [park])
      parked)
    (isPruned : parked.HasPruned place (place ++ front) bare)
    (parks : (base.below [parkName]).bytes.length ≤ pathLimit ∧
      tree.node? (place ++ [parkName]) = none)
    (can : bare.CanPlace base place target) :
    tree.CanMove base place (front ++ [last]) target := by
  refine ⟨can.short, can.fits, fun _ => parks, ?_, ?_⟩
  · intro first isPrefix outside
    right
    have above : first <+: front ++ [last] := by
      rcases nested with before | after
      · exact (List.prefix_or_prefix_of_prefix isPrefix before).resolve_right
          outside
      · exact isPrefix.trans after
    exact hasDirectory_upward directory
      ((List.prefix_append_right_inj _).mpr above)
  · intro rest nonempty present
    rcases nested with before | after
    · exact .inr (before.trans (List.prefix_append _ _))
    · apply Classical.byContradiction
      intro strange
      obtain ⟨notAbove, notBehind⟩ := not_or.mp strange
      have vacant := can.vacant rest nonempty
      rw [isPruned.kept, isMoved.kept] at vacant
      · rw [vacant] at present
        cases present
      · rw [List.prefix_append_right_inj]
        exact fun isParked => apart.not_both isParked (List.prefix_append _ _)
      · rw [List.prefix_append_right_inj]
        exact notBehind
      · intro isBarren
        have onWay := isBarren.above
        rw [List.prefix_append_right_inj] at onWay
        exact notAbove (onWay.trans (List.prefix_append _ _))

end Parked

end Tree

end PackageRename
