import PackageRename.Proofs.Relocation.Views

/-!
# Moving back

A directory that has been moved can be moved back, and then everything is where
it was, provided that no directory on the way to its new place was empty: such a
directory would be pruned on the way back.  Directories that have been pruned on
the way there come back as new ones.
-/

namespace PackageRename

open PackageRename.Tree

namespace View

variable {source target names : List Name} {view moved back : View}

/-- What stands below something stands below a directory. -/
def IsStanding (view : View) : Prop :=
  ∀ front rest, rest ≠ [] → (view (front ++ rest)).isSome →
    view.HasDirectory front

/-- One view shows what another does, with some directories made anew. -/
structure Remakes (gone : List Name → Prop) (before after : View) : Prop where
  remade : ∀ names, gone names → after names = some .made
  kept : ∀ names, ¬ gone names → after names = before names

theorem HasDirectory.some_getD (directory : view.HasDirectory names) :
    some ((view names).getD .made) = view names := by
  obtain ⟨mode, isDirectory⟩ := directory
  rw [isDirectory]
  rfl

theorem HasDirectory.isSome (directory : view.HasDirectory names) :
    (view names).isSome := by
  obtain ⟨mode, isDirectory⟩ := directory
  rw [isDirectory]
  rfl

theorem IsStanding.directory (standing : view.IsStanding)
    (directory : view.HasDirectory source) (above : names <+: source) :
    view.HasDirectory names := by
  obtain ⟨rest, isSource⟩ := above
  subst isSource
  by_cases nonempty : rest = []
  · rwa [nonempty, List.append_nil] at directory
  · exact standing names rest nonempty directory.isSome

theorem IsStanding.none (standing : view.IsStanding)
    (missing : view source = none) (below : source <+: names) :
    view names = none := by
  obtain ⟨rest, isNames⟩ := below
  subst isNames
  by_cases nonempty : rest = []
  · rwa [nonempty, List.append_nil]
  · by_contra present
    obtain ⟨mode, directory⟩ := standing source rest nonempty
      (Option.isSome_iff_ne_none.mpr present)
    rw [missing] at directory
    cases directory

/-- A target that a source can be moved to and back from: nothing but the source
is in the way, and no directory on the way is empty. -/
structure IsReturn (view : View) (source target : List Name) : Prop where
  opened : ∀ front, front <+: target → ¬ source <+: front →
    view front = none ∨ view.HasDirectory front
  vacant : ∀ rest, rest ≠ [] → (view (target ++ rest)).isSome →
    Nested (target ++ rest) source
  filled : ∀ front, front <+: target → front ≠ [] →
    view.HasDirectory front → ∃ name, (view (front ++ [name])).isSome

/-- Where the target does not lead to the source nothing has stood at it: it
could only have been an empty directory. -/
theorem IsReturn.free (isReturn : view.IsReturn source target)
    (apart : ¬ Nested target source) : view target = none := by
  obtain ⟨notAbove, notBelow⟩ := not_or.mp apart
  rcases isReturn.opened target (List.prefix_refl _) notBelow with
    missing | directory
  · exact missing
  · have nonempty : target ≠ [] := fun empty =>
      notAbove (empty ▸ List.nil_prefix)
    obtain ⟨name, present⟩ := isReturn.filled target (List.prefix_refl _)
      nonempty directory
    rcases isReturn.vacant [name] (List.cons_ne_nil _ _) present with
      above | below
    · exact absurd ((List.prefix_append _ _).trans above) notAbove
    · exact absurd (List.prefix_or_prefix_of_prefix (List.prefix_append _ _)
        below) apart

/-- So nothing has stood at or below the target but what leads to the source. -/
theorem IsReturn.none_below (isReturn : view.IsReturn source target)
    (below : target <+: names) (apart : ¬ Nested names source) :
    view names = none := by
  obtain ⟨rest, rfl⟩ := below
  by_cases nonempty : rest = []
  · rw [nonempty, List.append_nil] at apart ⊢
    exact isReturn.free apart
  · exact Option.not_isSome_iff_eq_none.mp
      fun present => apart (isReturn.vacant rest nonempty present)

section There

variable (standing : view.IsStanding)
variable (directory : view.HasDirectory source)
variable (isReturn : view.IsReturn source target)
variable (there : Relocates source target view moved)

include there

/-- What stands aside from both places is not touched by the first move. -/
theorem moved_of_apart (notSource : ¬ Nested names source)
    (notTarget : ¬ Nested names target) : moved names = view names := by
  obtain ⟨notAbove, notBelow⟩ := not_or.mp notTarget
  obtain ⟨notAboveSource, notBelowSource⟩ := not_or.mp notSource
  exact there.kept names notBelow notAbove notBelowSource
    fun isDeserted => notAboveSource isDeserted.above

include standing

/-- A directory on the way to the target that was missing leads nowhere else
after the first move. -/
theorem moved_isDeserted (missing : view names = none)
    (nonempty : names ≠ []) (above : names <+: target)
    (apart : ¬ Nested names source) : moved.IsDeserted target names := by
  refine ⟨nonempty, above, fun inner below present => ?_⟩
  by_contra notTarget
  have notSource : ¬ Nested inner source := by
    rintro (aboveSource | belowSource)
    · exact apart (.inl (below.trans aboveSource))
    · exact apart (List.prefix_or_prefix_of_prefix below belowSource)
  rw [moved_of_apart there notSource notTarget,
    standing.none missing below] at present
  cases present

omit standing in
include isReturn in
/-- A directory on the way to the target that was there leads elsewhere, too. -/
theorem moved_not_isDeserted (present : view.HasDirectory names)
    (above : names <+: target) (apart : ¬ Nested names source) :
    ¬ moved.IsDeserted target names := by
  intro isDeserted
  obtain ⟨rest, isTarget⟩ := above
  subst isTarget
  induction rest generalizing names with
  | nil =>
      rw [List.append_nil] at isReturn
      obtain ⟨mode, isDirectory⟩ := present
      rw [isReturn.free apart] at isDirectory
      cases isDirectory
  | cons next rest induction =>
      have isSplit : names ++ next :: rest = (names ++ [next]) ++ rest := by simp
      have stillApart : ∀ name, ¬ Nested (names ++ [name]) source := by
        intro name
        rintro (aboveSource | belowSource)
        · exact apart (.inl ((List.prefix_append _ _).trans aboveSource))
        · exact apart (List.prefix_or_prefix_of_prefix
            (List.prefix_append _ _) belowSource)
      have stillDeserted : names ++ [next] <+: names ++ next :: rest := by
        rw [isSplit]
        exact List.prefix_append _ _
      rcases isReturn.opened (names ++ [next]) stillDeserted
        (not_or.mp (stillApart next)).2 with missing | isDirectory
      · obtain ⟨name, isThere⟩ := isReturn.filled names
          (List.prefix_append _ _) isDeserted.nonempty present
        have different : name ≠ next := by
          intro same
          rw [same, missing] at isThere
          cases isThere
        have notTarget : ¬ Nested (names ++ [name]) (names ++ next :: rest) := by
          rw [Nested.append_left]
          rintro (ahead | behind)
          · exact different (List.cons_prefix_cons.mp ahead).1
          · exact different (List.cons_prefix_cons.mp behind).1.symm
        have movedThere := moved_of_apart there (stillApart name)
          notTarget
        exact notTarget (isDeserted.deserted _ (List.prefix_append _ _)
          (by rw [movedThere]; exact isThere))
      · rw [isSplit] at isReturn there isDeserted
        refine induction isDirectory (stillApart next) isReturn there ?_
        refine ⟨by simp, List.prefix_append _ _, fun inner below isThere => ?_⟩
        exact isDeserted.deserted inner
          ((List.prefix_append _ _).trans below) isThere

omit standing in
/-- A directory that leads to the source is not there as it was, after the first
move, if it is one of those that are pruned. -/
theorem moved_of_isPruned (isPruned : view.IsPruned source target names)
    (elsewhere : ¬ target <+: names) :
    (moved names).getD .made = .made := by
  by_cases onWay : names <+: target
  · rw [there.remade names onWay (fun same => elsewhere (same ▸ List.prefix_refl _))
      (.inr isPruned)]
    rfl
  · rw [there.deserted names isPruned.deserted elsewhere onWay]
    rfl

omit standing in
/-- Any other directory that leads to the source is as it was. -/
theorem moved_of_not_isPruned (present : view.HasDirectory names)
    (below : ¬ source <+: names) (elsewhere : ¬ target <+: names)
    (spared : ¬ view.IsPruned source target names) :
    moved names = view names := by
  by_cases onWay : names <+: target
  · rw [there.onWay names onWay (fun same => elsewhere (same ▸ List.prefix_refl _))
      below spared]
    exact present.some_getD
  · exact there.kept names elsewhere onWay below
      fun isDeserted => spared ⟨isDeserted, below, .inr onWay⟩

omit standing there in
include isReturn in
/-- From below the target one only comes to the source. -/
theorem isPruned_of_below (someTarget : target ≠ []) (below : target <+: names)
    (above : names <+: source) (proper : ¬ source <+: names) :
    view.IsPruned source target names := by
  refine ⟨⟨?_, above, fun inner further present => ?_⟩, proper,
    .inl (.inr (below.trans above))⟩
  · rintro rfl
    exact someTarget (List.prefix_nil.mp below)
  · obtain ⟨rest, rfl⟩ := below.trans further
    by_cases atTarget : rest = []
    · rw [atTarget, List.append_nil]
      exact .inl (below.trans above)
    · exact isReturn.vacant rest atTarget present

omit standing in
include isReturn in
/-- What is not pruned on the way there is not pruned on the way back, if it
leads to the source. -/
theorem moved_not_isPruned (above : names <+: source)
    (below : ¬ source <+: names)
    (spared : ¬ view.IsPruned source target names) :
    ¬ moved.IsPruned target source names := by
  rintro ⟨isDeserted, -, spent⟩
  have nested : Nested target source :=
    spent.resolve_right (not_not_intro above)
  refine spared ⟨⟨isDeserted.nonempty, above, fun inner further present => ?_⟩,
    below, .inl nested.symm⟩
  by_contra notSource
  have notTarget : ¬ Nested inner target := by
    rintro (onWay | inTarget)
    · exact notSource (nested.upward onWay)
    · obtain ⟨rest, rfl⟩ := inTarget
      by_cases atTarget : rest = []
      · rw [atTarget, List.append_nil] at notSource
        exact notSource nested
      · exact notSource (isReturn.vacant rest atTarget present)
  rw [← moved_of_apart there notSource notTarget] at present
  exact notTarget (isDeserted.deserted inner further present)

end There

/-- Moving there and back leaves everything where it was; only the directories
that have been pruned on the way there are new ones. -/
theorem Relocates.trans_back (standing : view.IsStanding)
    (directory : view.HasDirectory source) (someTarget : target ≠ [])
    (isReturn : view.IsReturn source target)
    (there : Relocates source target view moved)
    (comesBack : Relocates target source moved back) :
    Remakes (view.IsPruned source target) view back := by
  refine ⟨fun names isPruned => ?_, fun names spared => ?_⟩
  · have above := isPruned.deserted.above
    have different : names ≠ source :=
      fun same => isPruned.proper (same ▸ List.prefix_refl _)
    by_cases anew : target <+: names ∨ moved.IsPruned target source names
    · exact comesBack.remade names above different anew
    · obtain ⟨elsewhere, kept⟩ := not_or.mp anew
      rw [comesBack.onWay names above different elsewhere kept,
        moved_of_isPruned there isPruned elsewhere]
  by_cases below : source <+: names
  · obtain ⟨rest, isNames⟩ := below
    subst isNames
    rw [comesBack.arrived, there.arrived]
  by_cases above : names <+: source
  · have present := standing.directory directory above
    have elsewhere : ¬ target <+: names := fun inTarget =>
      spared (isPruned_of_below isReturn someTarget inTarget above below)
    rw [comesBack.onWay names above (fun same => below (same ▸ List.prefix_refl _))
        elsewhere (moved_not_isPruned isReturn there above below spared),
      moved_of_not_isPruned there present below elsewhere spared]
    exact present.some_getD
  have notSource : ¬ Nested names source := not_or.mpr ⟨above, below⟩
  by_cases inTarget : target <+: names
  · rw [comesBack.left names inTarget below above,
      isReturn.none_below inTarget notSource]
  by_cases onWay : names <+: target
  · have nonempty : names ≠ [] := by
      intro empty
      exact above (empty ▸ List.nil_prefix)
    rcases isReturn.opened names onWay below with missing | isDirectory
    · rw [missing]
      exact comesBack.deserted names
        (moved_isDeserted standing there missing nonempty onWay notSource) below
        above
    · have kept := comesBack.kept names below above inTarget
        (moved_not_isDeserted isReturn there isDirectory onWay
          notSource)
      exact kept.trans
        (moved_of_not_isPruned there isDirectory below inTarget spared)
  · have notTarget : ¬ Nested names target := not_or.mpr ⟨onWay, inTarget⟩
    have kept := comesBack.kept names below above inTarget
      fun isDeserted => onWay isDeserted.above
    rw [kept, moved_of_apart there notSource notTarget]

/-! ### Changed files on the way -/

variable {change : File → File}

theorem IsStanding.revise (standing : view.IsStanding)
    (change : File → File) : (view.revise change).IsStanding := by
  intro front rest nonempty present
  rw [isSome_revise] at present
  exact hasDirectory_revise.mpr (standing front rest nonempty present)

theorem IsReturn.revise (isReturn : view.IsReturn source target)
    (change : File → File) : (view.revise change).IsReturn source target := by
  refine ⟨fun front above outside => ?_, fun rest nonempty present => ?_,
    fun front above nonempty directory => ?_⟩
  · rw [revise_eq_none, hasDirectory_revise]
    exact isReturn.opened front above outside
  · rw [isSome_revise] at present
    exact isReturn.vacant rest nonempty present
  · obtain ⟨name, present⟩ := isReturn.filled front above nonempty
      (hasDirectory_revise.mp directory)
    exact ⟨name, by rwa [isSome_revise]⟩

/-- Changing files before and after a move comes to the same. -/
theorem Relocates.revise (relocates : Relocates source target view moved)
    (change : File → File) :
    Relocates source target (view.revise change) (moved.revise change) := by
  refine ⟨fun rest => ?_, fun names above different => ?_,
    fun names above different anew => ?_,
    fun names above different outside spared => ?_,
    fun names below elsewhere notAbove => ?_,
    fun names isDeserted elsewhere notAbove => ?_,
    fun names elsewhere notAbove outside notDeserted => ?_⟩
  · rw [View.revise, View.revise, relocates.arrived]
  · exact hasDirectory_revise.mpr (relocates.above names above different)
  · exact revise_eq_directory.mpr (relocates.remade names above different
      (anew.imp_right isPruned_revise.mp))
  · rw [View.revise, View.revise, relocates.onWay names above different outside
      fun isPruned => spared (isPruned_revise.mpr isPruned)]
    cases view names <;> rfl
  · exact revise_eq_none.mpr (relocates.left names below elsewhere notAbove)
  · exact revise_eq_none.mpr (relocates.deserted names
      (isDeserted_revise.mp isDeserted) elsewhere notAbove)
  · rw [View.revise, View.revise, relocates.kept names elsewhere notAbove outside
      fun isDeserted => notDeserted (isDeserted_revise.mpr isDeserted)]

/-- Where the package directory goes to a free place and comes back, renaming
there and back only changes the files. -/
theorem Renames.trans_back {changeBack : File → File}
    (standing : view.IsStanding)
    (someTarget : target ≠ [])
    (isReturn : view.HasDirectory source → view.IsReturn source target)
    (free : view target = none)
    (there : Renames source target change view moved)
    (comesBack : Renames target source changeBack moved back) :
    Remakes
      (fun names => view.HasDirectory source ∧ view.IsPruned source target names)
      ((view.revise change).revise changeBack) back := by
  by_cases directory : view.HasDirectory source
  · have relocates := there.moved directory
    have arrived : moved.HasDirectory target := by
      have isArrived := relocates.arrived []
      rw [List.append_nil, List.append_nil] at isArrived
      rw [HasDirectory, isArrived]
      exact hasDirectory_revise.mpr directory
    have remakes := Relocates.trans_back
      ((standing.revise change).revise changeBack)
      (hasDirectory_revise.mpr (hasDirectory_revise.mpr directory)) someTarget
      (((isReturn directory).revise change).revise changeBack)
      (relocates.revise changeBack) (comesBack.moved arrived)
    exact ⟨fun names gone => remakes.remade names
        (isPruned_revise.mpr (isPruned_revise.mpr gone.2)),
      fun names spared => remakes.kept names fun isPruned => spared
        ⟨directory, isPruned_revise.mp (isPruned_revise.mp isPruned)⟩⟩
  · have unmoved := there.unmoved directory
    have stillFree : ¬ moved.HasDirectory target := by
      rw [HasDirectory, unmoved, revise_eq_none.mpr free]
      simp
    rw [comesBack.unmoved stillFree, unmoved]
    exact ⟨fun names gone => absurd gone.1 directory, fun _ _ => rfl⟩

end View

namespace Tree

variable {tree after : Tree} {base : Path} {place : Place}
variable {source target : List Name} {change : File → File}

theorem isStanding_view : (tree.view place).IsStanding := by
  intro front rest nonempty present
  rw [view, ← List.append_assoc] at present
  exact hasDirectory_view.mpr (hasDirectory_of_append present nonempty)

/-- A directory that has been moved can be moved back. -/
theorem CanMove.back (can : tree.CanMove base place source target)
    (directory : tree.hasDirectory (place ++ source) = true)
    (there : View.Relocates source target ((tree.view place).revise change)
      (after.view place))
    (short : ∀ name ∈ source, name.length ≤ nameLimit)
    (fits : (base.below source).bytes.length ≤ pathLimit)
    (sourceApart : Apart [parkName] source)
    (targetApart : Apart [parkName] target) :
    after.CanMove base place target source := by
  have isDirectory : ∀ front, front <+: source →
      ((tree.view place).revise change).HasDirectory front :=
    fun front above => View.hasDirectory_revise.mpr (hasDirectory_view.mpr
      (hasDirectory_upward directory
        ((List.prefix_append_right_inj _).mpr above)))
  refine ⟨short, fits, fun nested => ?_, fun front above notTarget => ?_,
    fun rest nonempty present => ?_⟩
  · obtain ⟨parkFits, free⟩ := can.parks nested.symm
    refine ⟨parkFits, ?_⟩
    have aside := View.moved_of_apart there (not_or.mpr sourceApart)
      (not_or.mpr targetApart)
    exact aside.trans (View.revise_eq_none.mpr free)
  · by_cases missing : after.view place front = none
    · exact .inl missing
    refine .inr (hasDirectory_view.mp ?_)
    rcases there.cases_of_isSome (Option.isSome_iff_ne_none.mpr missing) with
      ⟨rest, isFront, -⟩ | ⟨-, made⟩ | ⟨-, kept⟩
    · exact absurd ⟨rest, isFront.symm⟩ notTarget
    · exact made
    · rw [View.HasDirectory, kept]
      exact isDirectory front above
  · by_contra notNested
    obtain ⟨notAbove, notBelow⟩ := not_or.mp notNested
    have left := there.left (source ++ rest) (List.prefix_append _ _) notBelow
      notAbove
    rw [view] at left
    rw [left] at present
    cases present

end Tree

end PackageRename
