import PackageRename.Proofs.Relocation.Moving
import PackageRename.Proofs.Tree.Settling

/-!
# Moves seen from the base

What stands below a base, by the names that lead there, and what a move makes of
it.  This is all that matters about a tree when the directory of a package is
moved.
-/

namespace PackageRename

/-- What stands below a place, by the names that lead there. -/
abbrev View := List Name → Option Node

def Tree.view (tree : Tree) (place : Place) : View :=
  fun names => tree.node? (place ++ names)

namespace View

/-- The view with changed files. -/
def revise (change : File → File) (view : View) : View :=
  fun names => (view names).map (Node.mapFile change)

def HasDirectory (view : View) (names : List Name) : Prop :=
  ∃ mode, view names = some (.directory mode)

/-- A directory below the base from which one only comes to the source. -/
structure IsDeserted (view : View) (source idle : List Name) : Prop where
  nonempty : idle ≠ []
  above : idle <+: source
  deserted : ∀ inner, idle <+: inner → (view inner).isSome →
    Tree.Nested inner source

/-- A directory below the base that is pruned when the source is moved to the
target. -/
structure IsPruned (view : View) (source target idle : List Name) : Prop where
  deserted : view.IsDeserted source idle
  proper : ¬ source <+: idle
  spent : Tree.Nested source target ∨ ¬ idle <+: target

variable {view : View} {source target names : List Name}
variable {change : File → File}

theorem revise_eq_none : view.revise change names = none ↔ view names = none :=
  Option.map_eq_none_iff

theorem revise_eq_directory {mode : Nat} :
    view.revise change names = some (.directory mode) ↔
      view names = some (.directory mode) := by
  rw [revise]
  constructor
  · intro isDirectory
    obtain ⟨node, isNode, isChanged⟩ := Option.map_eq_some_iff.mp isDirectory
    cases node with
    | directory other =>
        cases isChanged
        exact isNode
    | file file => cases isChanged
    | link target share => cases isChanged
  · intro isDirectory
    rw [isDirectory]
    rfl

theorem hasDirectory_revise :
    (view.revise change).HasDirectory names ↔ view.HasDirectory names := by
  simp only [HasDirectory, revise_eq_directory]

theorem isSome_revise :
    (view.revise change names).isSome = (view names).isSome :=
  Option.isSome_map

theorem isDeserted_revise :
    (view.revise change).IsDeserted source names ↔
      view.IsDeserted source names := by
  have isSome : ∀ inner, (view.revise change inner).isSome =
      (view inner).isSome := fun _ => isSome_revise
  constructor
  · intro isDeserted
    refine ⟨isDeserted.nonempty, isDeserted.above, fun inner below present =>
      isDeserted.deserted inner below ?_⟩
    rwa [isSome]
  · intro isDeserted
    refine ⟨isDeserted.nonempty, isDeserted.above, fun inner below present =>
      isDeserted.deserted inner below ?_⟩
    rwa [← isSome]

theorem isPruned_revise :
    (view.revise change).IsPruned source target names ↔
      view.IsPruned source target names :=
  ⟨fun ⟨deserted, proper, spent⟩ =>
      ⟨isDeserted_revise.mp deserted, proper, spent⟩,
    fun ⟨deserted, proper, spent⟩ =>
      ⟨isDeserted_revise.mpr deserted, proper, spent⟩⟩

/-- One view shows what moving a source to a target makes of another. -/
structure Relocates (source target : List Name) (before after : View) :
    Prop where
  arrived : ∀ rest, after (target ++ rest) = before (source ++ rest)
  above : ∀ names, names <+: target → names ≠ target →
    after.HasDirectory names
  remade : ∀ names, names <+: target → names ≠ target →
    source <+: names ∨ before.IsPruned source target names →
    after names = some .made
  onWay : ∀ names, names <+: target → names ≠ target → ¬ source <+: names →
    ¬ before.IsPruned source target names →
    after names = some ((before names).getD .made)
  left : ∀ names, source <+: names → ¬ target <+: names →
    ¬ names <+: target → after names = none
  deserted : ∀ names, before.IsDeserted source names → ¬ target <+: names →
    ¬ names <+: target → after names = none
  kept : ∀ names, ¬ target <+: names → ¬ names <+: target →
    ¬ source <+: names → ¬ before.IsDeserted source names →
    after names = before names

/-- What there is after a move has come with it, or lies on the way to the
target, or was there before. -/
theorem Relocates.cases_of_isSome {before after : View}
    (relocates : Relocates source target before after)
    (present : (after names).isSome) :
    (∃ rest, names = target ++ rest ∧ after names = before (source ++ rest)) ∨
      (names <+: target ∧ after.HasDirectory names) ∨
      (¬ source <+: names ∧ after names = before names) := by
  by_cases below : target <+: names
  · obtain ⟨rest, rfl⟩ := below
    exact .inl ⟨rest, rfl, relocates.arrived rest⟩
  by_cases above : names <+: target
  · refine .inr (.inl ⟨above, relocates.above names above ?_⟩)
    rintro rfl
    exact below (List.prefix_refl _)
  by_cases moved : source <+: names
  · rw [relocates.left names moved below above] at present
    cases present
  by_cases deserted : before.IsDeserted source names
  · rw [relocates.deserted names deserted below above] at present
    cases present
  exact .inr (.inr ⟨moved, relocates.kept names below above moved deserted⟩)

/-- What renaming a package makes of a view: the files are changed, and then
the package directory is moved if there is one. -/
structure Renames (source target : List Name) (change : File → File)
    (before after : View) : Prop where
  moved : before.HasDirectory source →
    Relocates source target (before.revise change) after
  unmoved : ¬ before.HasDirectory source → after = before.revise change

end View

namespace Tree

variable {tree final : Tree} {place : Place} {source target names : List Name}

theorem hasDirectory_view :
    (tree.view place).HasDirectory names ↔
      tree.hasDirectory (place ++ names) = true :=
  hasDirectory_iff_node?.symm

theorem isDeserted_view :
    (tree.view place).IsDeserted source names ↔
      tree.IsDeserted place (place ++ source) (place ++ names) := by
  constructor
  · intro isDeserted
    refine ⟨inside_append_iff.mpr isDeserted.nonempty,
      (List.prefix_append_right_inj _).mpr isDeserted.above, ?_⟩
    rintro inner ⟨rest, isInner⟩ present
    rw [List.append_assoc] at isInner
    subst isInner
    rw [List.prefix_append_right_inj, List.prefix_append_right_inj]
    exact isDeserted.deserted _ (List.prefix_append _ _) present
  · intro isDeserted
    refine ⟨inside_append_iff.mp isDeserted.inside,
      (List.prefix_append_right_inj _).mp isDeserted.above, ?_⟩
    intro inner below present
    have nested := isDeserted.deserted (place ++ inner)
      ((List.prefix_append_right_inj _).mpr below) present
    rwa [List.prefix_append_right_inj, List.prefix_append_right_inj] at nested

theorem isPruned_view :
    (tree.view place).IsPruned source target names ↔
      tree.IsPruned place (place ++ source) (place ++ target)
        (place ++ names) := by
  constructor
  · rintro ⟨deserted, proper, spent⟩
    refine ⟨isDeserted_view.mp deserted, ?_, ?_⟩
    · rwa [List.prefix_append_right_inj]
    · rwa [Nested.append_left, List.prefix_append_right_inj]
  · rintro ⟨deserted, proper, spent⟩
    rw [List.prefix_append_right_inj] at proper
    rw [Nested.append_left, List.prefix_append_right_inj] at spent
    exact ⟨isDeserted_view.mpr deserted, proper, spent⟩

/-- A move seen from the base. -/
theorem HasRelocated.relocates
    (isRelocated : tree.HasRelocated place (place ++ source) (place ++ target)
      final) :
    View.Relocates source target (tree.view place) (final.view place) := by
  constructor
  · intro rest
    rw [view, view, ← List.append_assoc, ← List.append_assoc]
    exact isRelocated.arrived rest
  · intro names above different
    refine hasDirectory_view.mpr (isRelocated.above _
      ((List.prefix_append_right_inj _).mpr above) ?_)
    rwa [ne_eq, List.append_cancel_left_eq]
  · intro names above different gone
    refine isRelocated.remade _ ((List.prefix_append_right_inj _).mpr above) ?_
      (gone.imp (List.prefix_append_right_inj _).mpr isPruned_view.mp)
    rwa [ne_eq, List.append_cancel_left_eq]
  · intro names above different outside notPruned
    refine isRelocated.onWay _ ((List.prefix_append_right_inj _).mpr above) ?_
      ?_ fun isPruned => notPruned (isPruned_view.mpr isPruned)
    · rwa [ne_eq, List.append_cancel_left_eq]
    · rwa [List.prefix_append_right_inj]
  · intro names below elsewhere notAbove
    refine isRelocated.left _ ?_ ?_ ?_ <;> rwa [List.prefix_append_right_inj]
  · intro names isDeserted elsewhere notAbove
    refine isRelocated.deserted _ (isDeserted_view.mp isDeserted) ?_ ?_ <;>
      rwa [List.prefix_append_right_inj]
  · intro names elsewhere notAbove outside notDeserted
    refine isRelocated.kept _ ?_ ?_ ?_ ?_
    · rwa [List.prefix_append_right_inj]
    · rwa [List.prefix_append_right_inj]
    · rwa [List.prefix_append_right_inj]
    · exact fun isDeserted => notDeserted (isDeserted_view.mpr isDeserted)

/-- A move changes nothing outside the base. -/
theorem HasRelocated.outside
    (isRelocated : tree.HasRelocated place (place ++ source) (place ++ target)
      final) (directory : tree.hasDirectory place = true)
    {other : Place} (outside : ¬ place <+: other) :
    final.node? other = tree.node? other := by
  by_cases above : other <+: place
  · rw [isRelocated.onWay]
    · exact some_getD_of_hasDirectory (hasDirectory_upward directory above)
    · exact above.trans (List.prefix_append _ _)
    · intro same
      exact outside (same ▸ List.prefix_append _ _)
    · exact fun below => outside ((List.prefix_append _ _).trans below)
    · exact fun isPruned => outside isPruned.deserted.inside.1
  · have notBelow : ∀ names, ¬ place ++ names <+: other :=
      fun names below => outside ((List.prefix_append _ _).trans below)
    refine isRelocated.kept other (notBelow target) ?_ (notBelow source) ?_
    · intro onWay
      rcases reaches_or_ends onWay with before | ⟨rest, isOther, -⟩
      · exact above before
      · exact outside (isOther ▸ List.prefix_append _ _)
    · exact fun isDeserted => outside isDeserted.inside.1

theorem HasRelocated.isLinkFree {old new : Place}
    (isRelocated : tree.HasRelocated place old new final)
    (free : tree.IsLinkFree) : final.IsLinkFree where
  linkless := by
    intro inner target share isLink
    rcases isRelocated.cases_of_isSome (by rw [isLink]; rfl) with
      ⟨rest, -, same⟩ | ⟨-, isDirectory⟩ | ⟨-, same⟩
    · exact free.linkless _ target share (same.symm.trans isLink)
    · rw [hasDirectory, isLink] at isDirectory
      cases isDirectory
    · exact free.linkless _ target share (same.symm.trans isLink)
  unshared := by
    -- A file comes from one place, and no two files come from the same.
    have comes : ∀ {inner : Place} {file : File},
        final.node? inner = some (.file file) →
        ∃ before, tree.node? before = some (.file file) ∧
          ((∃ rest, inner = new ++ rest ∧ before = old ++ rest) ∨
            (inner = before ∧ ¬ old <+: before)) := by
      intro inner file isFile
      rcases isRelocated.cases_of_isSome (by rw [isFile]; rfl) with
        ⟨rest, isInner, same⟩ | ⟨-, isDirectory⟩ | ⟨outside, same⟩
      · exact ⟨old ++ rest, same.symm.trans isFile, .inl ⟨rest, isInner, rfl⟩⟩
      · rw [hasDirectory, isFile] at isDirectory
        cases isDirectory
      · exact ⟨inner, same.symm.trans isFile, .inr ⟨rfl, outside⟩⟩
    intro first second file other isFirst isSecond shared same
    obtain ⟨firstBefore, wasFirst, firstFrom⟩ := comes isFirst
    obtain ⟨secondBefore, wasSecond, secondFrom⟩ := comes isSecond
    obtain rfl := free.unshared wasFirst wasSecond shared same
    rcases firstFrom with ⟨rest, rfl, rfl⟩ | ⟨rfl, outside⟩
    · rcases secondFrom with ⟨more, rfl, sameRest⟩ | ⟨-, outside⟩
      · rw [List.append_cancel_left sameRest]
      · exact absurd (List.prefix_append _ _) outside
    · rcases secondFrom with ⟨rest, -, rfl⟩ | ⟨rfl, -⟩
      · exact absurd (List.prefix_append _ _) outside
      · rfl

/-- A base is one after a move in it. -/
theorem HasRelocated.isBase {base : Path}
    (isRelocated : tree.HasRelocated place (place ++ source) (place ++ target)
      final) (isBase : tree.IsBase base place) (someTarget : target ≠ [])
    (legal : ∀ name ∈ target, Name.IsLegal name) : final.IsBase base place := by
  refine isBase.transfer_inside (isRelocated.isLinkFree isBase.free) ?_
    isRelocated.origin ?_
  · intro inner present name member
    rcases isRelocated.cases_of_isSome present with
      ⟨rest, isInner, same⟩ | ⟨above, -⟩ | ⟨-, same⟩
    · rw [isInner, List.mem_append, List.mem_append] at member
      rw [same] at present
      rcases member with (inPlace | inTarget) | inRest
      · exact isBase.legal _ present name (by simp [inPlace])
      · exact legal name inTarget
      · exact isBase.legal _ present name (by simp [inRest])
    · rcases List.mem_append.mp (above.subset member) with inPlace | inTarget
      · exact isBase.legal place (hasDirectory_isSome isBase.directory) name
          inPlace
      · exact legal name inTarget
    · exact isBase.legal inner (same ▸ present) name member
  · intro inner notInside
    by_cases below : place <+: inner
    · obtain rfl : inner = place := by
        by_contra different
        exact notInside ⟨below, different⟩
      rw [kind_of_hasDirectory isBase.directory,
        kind_of_hasDirectory (isRelocated.above inner (List.prefix_append _ _)
          fun same => someTarget (List.self_eq_append_right.mp same))]
    · rw [isRelocated.outside isBase.directory below]

/-! ### Conditions that depend on the view alone -/

variable {other : Tree} {base : Path}

theorem CanMove.of_view (can : tree.CanMove base place source target)
    (same : other.view place = tree.view place) :
    other.CanMove base place source target := by
  have nodes : ∀ names, other.node? (place ++ names) =
      tree.node? (place ++ names) := fun names => congrFun same names
  refine ⟨can.short, can.fits, ?_, ?_, ?_⟩
  · intro nested
    rw [nodes]
    exact can.parks nested
  · intro front isPrefix outside
    rw [hasDirectory, nodes]
    exact can.opened front isPrefix outside
  · intro rest nonempty present
    rw [nodes] at present
    exact can.vacant rest nonempty present

theorem CanMove.of_kinds (can : tree.CanMove base place source target)
    (same : ∀ inner, (other.node? inner).map Node.kind =
      (tree.node? inner).map Node.kind) :
    other.CanMove base place source target := by
  have sameKinds : SameKinds (fun _ => False) tree other :=
    fun inner _ => same inner
  have missing : ∀ inner, other.node? inner = none ↔
      tree.node? inner = none := by
    intro inner
    rw [← Option.map_eq_none_iff (f := Node.kind), same inner,
      Option.map_eq_none_iff]
  refine ⟨can.short, can.fits, ?_, ?_, ?_⟩
  · intro nested
    rw [missing]
    exact can.parks nested
  · intro front isPrefix outside
    rw [missing, sameKinds.hasDirectory id]
    exact can.opened front isPrefix outside
  · intro rest nonempty present
    rw [sameKinds.isSome id] at present
    exact can.vacant rest nonempty present

theorem IsSound.of_view {substitutions : List Substitution}
    {strategy : WriteStrategy}
    (sound : tree.IsSound base place substitutions strategy)
    (leads : tree.LeadsTo base place) (otherLeads : other.LeadsTo base place)
    (origin : other.origin = tree.origin)
    (same : other.view place = tree.view place) :
    other.IsSound base place substitutions strategy := by
  have nodes : ∀ names, other.node? (place ++ names) =
      tree.node? (place ++ names) := fun names => congrFun same names
  constructor
  · intro names file isFile
    have present : (other.node? (place ++ names)).isSome := by
      rw [isFile]
      rfl
    have wasPresent := nodes names ▸ present
    rw [nodes] at isFile
    obtain ⟨fits, revisable, can⟩ := sound.files names file isFile
    rw [← canWrite_congr leads.free otherLeads.free origin
      (leads.resolve fits wasPresent) (otherLeads.resolve fits present)] at can
    exact ⟨fits, revisable, can⟩
  · intro names directory
    rw [hasDirectory, nodes] at directory
    exact sound.directories names directory

end Tree

end PackageRename
