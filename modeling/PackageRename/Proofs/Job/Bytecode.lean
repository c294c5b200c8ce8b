import PackageRename.Proofs.Job.Quiet
import PackageRename.Proofs.Relocation.Package
import PackageRename.Proofs.Relocation.Views

/-!
# Renaming in the bytecode roots

What the bytecode stage makes of one root, and that the roots do not disturb one
another: each can be renamed if it could be as the first.
-/

namespace PackageRename

namespace Tree

variable {tree other : Tree} {base : Path} {place : Place} {names : Renaming}
variable {strategy : WriteStrategy}

/-- What has to hold so that the package below a base can be renamed. -/
structure IsReady (tree : Tree) (base : Path) (place : Place)
    (names : Renaming) (strategy : WriteStrategy) : Prop where
  sound : tree.IsSound base place names.inBytecode strategy
  movable : tree.hasDirectory (place ++ names.source.segments) = true →
    tree.CanMove base place names.source.segments names.target.segments

theorem IsReady.of_view (ready : tree.IsReady base place names strategy)
    (leads : tree.LeadsTo base place) (otherLeads : other.LeadsTo base place)
    (origin : other.origin = tree.origin)
    (same : other.view place = tree.view place) :
    other.IsReady base place names strategy := by
  refine ⟨ready.sound.of_view leads otherLeads origin same,
    fun directory => ?_⟩
  have here : other.node? (place ++ names.source.segments) =
      tree.node? (place ++ names.source.segments) := congrFun same _
  rw [hasDirectory, here] at directory
  exact (ready.movable directory).of_view same

theorem isReady_congr (leads : tree.LeadsTo base place)
    (otherLeads : other.LeadsTo base place) (origin : other.origin = tree.origin)
    (same : other.view place = tree.view place) :
    other.IsReady base place names strategy ↔
      tree.IsReady base place names strategy :=
  ⟨fun ready => ready.of_view otherLeads leads origin.symm same.symm,
    fun ready => ready.of_view leads otherLeads origin same⟩

/-- Updating all files below a sound base revises each of them. -/
theorem IsSound.hasRevised {substitutions : List Substitution}
    (sound : tree.IsSound base place substitutions strategy)
    (leads : tree.LeadsTo base place) :
    tree.HasRevised (File.revised strategy substitutions) (place <+: ·)
      ((tree.visits base).foldl (settle substitutions strategy) tree) := by
  refine leads.hasRevised_visits.congr_of_changed
    fun inner file isFile changed => ?_
  constructor
  · rintro ⟨rest, isInner, -⟩
    exact ⟨rest, isInner.symm⟩
  · rintro ⟨rest, isInner⟩
    subst isInner
    obtain ⟨fits, -, can⟩ := sound.files rest file isFile
    exact ⟨rest, rfl, fits, can (by_contra fun keeps =>
      changed (File.revised_eq_self keeps))⟩

theorem HasRevised.view {change : File → File} {revised : Tree}
    (isRevised : tree.HasRevised change (place <+: ·) revised) :
    revised.view place = (tree.view place).revise change :=
  funext fun rest => isRevised.inside _ (List.prefix_append place rest)

/-- Whether there is a directory of the old package does not depend on what is
in the files. -/
theorem IsSound.isDirectory_directoryIn {substitutions : List Substitution}
    {change : File → File} {revised : Tree}
    (sound : tree.IsSound base place substitutions strategy)
    (isRevised : tree.HasRevised change (place <+: ·) revised)
    (isBase : revised.IsBase base place)
    (sourcePlain : names.source.HasPlainSegments) :
    revised.isDirectory (names.source.directoryIn base) =
      tree.hasDirectory (place ++ names.source.segments) := by
  have same := isRevised.hasDirectory (place ++ names.source.segments)
  rw [Identifier.directoryIn_eq_below sourcePlain, Bool.eq_iff_iff,
    isBase.isDirectory sourcePlain, same]
  exact ⟨fun present => present.2,
    fun present => ⟨sound.directories _ present, present⟩⟩

/-- The tree with the package below one base renamed, and nothing else
changed. -/
structure HasRenamedBase (tree : Tree) (base : Path) (place : Place)
    (names : Renaming) (strategy : WriteStrategy) (final : Tree) : Prop where
  origin : final.origin = tree.origin
  inside : View.Renames names.source.segments names.target.segments
    (File.revised strategy names.inBytecode) (tree.view place)
    (final.view place)
  outside : ∀ other, ¬ place <+: other → final.node? other = tree.node? other
  isBase : final.IsBase base place

section Base

variable {revised : Tree} (isBase : tree.IsBase base place)
variable (sourcePlain : names.source.HasPlainSegments)
variable (targetPlain : names.target.HasPlainSegments)
variable (different : names.source ≠ names.target)
variable (isRevised : tree.HasRevised (File.revised strategy names.inBytecode)
  (place <+: ·) revised)

include isBase sourcePlain targetPlain different isRevised

/-- Once the files below a base that is ready are updated, the package can be
moved, and is renamed then. -/
theorem IsReady.hasRenamedBase (ready : tree.IsReady base place names strategy) :
    ∃ moved final, movePackage base names.source names.target revised =
        .succeed final moved ∧
      tree.HasRenamedBase base place names strategy final := by
  have revisedBase := isRevised.isBase (fun _ => File.share_revised) isBase
  have isDirectory := ready.sound.isDirectory_directoryIn isRevised revisedBase
    sourcePlain
  cases directory : tree.hasDirectory (place ++ names.source.segments) with
  | true =>
      rw [directory] at isDirectory
      have can := (ready.movable directory).of_kinds
        fun inner => isRevised.kind inner
      obtain ⟨final, isFinal, isRelocated, -⟩ :=
        revisedBase.isGround.movePackage sourcePlain targetPlain different
          isDirectory can
      refine ⟨true, final, isFinal, isRelocated.origin.trans isRevised.origin,
        ⟨fun _ => ?_, fun absent => ?_⟩, fun other outside => ?_,
        isRelocated.isBase revisedBase names.target.segments_ne_nil
          fun segment member => ⟨targetPlain segment member,
            can.short _ member⟩⟩
      · rw [← isRevised.view]
        exact isRelocated.relocates
      · exact absurd (hasDirectory_view.mpr directory) absent
      · rw [isRelocated.outside revisedBase.directory outside,
          isRevised.outside other outside]
  | false =>
      rw [directory] at isDirectory
      refine ⟨false, revised, movePackage_of_missing isDirectory,
        isRevised.origin, ⟨fun present => ?_, fun _ => isRevised.view⟩,
        fun other outside => isRevised.outside other outside, revisedBase⟩
      rw [hasDirectory_view, directory] at present
      cases present

/-- The package is moved only if the base was ready. -/
theorem IsSound.isReady_of_moved {moved : Bool}
    (sound : tree.IsSound base place names.inBytecode strategy)
    (answered : (movePackage base names.source names.target revised).answer =
      .ok moved) :
    tree.IsReady base place names strategy := by
  have revisedBase := isRevised.isBase (fun _ => File.share_revised) isBase
  have isDirectory := sound.isDirectory_directoryIn isRevised revisedBase
    sourcePlain
  refine ⟨sound, fun directory => ?_⟩
  exact (revisedBase.isGround.canMove sourcePlain targetPlain different
    (isDirectory.trans directory) answered).of_kinds
      fun inner => (isRevised.kind inner).symm

end Base

end Tree

namespace JobM

variable {context : JobContext} {names : Renaming} {before : Tree}
variable {place : Place} {name : String}

/-! ### One root -/

section Root

variable (quiet : context.observer = .passive)
variable (isBase : before.IsBase (context.root.join (Path.ofString name)) place)
variable (sourcePlain : names.source.HasPlainSegments)
variable (targetPlain : names.target.HasPlainSegments)
variable (different : names.source ≠ names.target)

include quiet isBase sourcePlain targetPlain different

/-- A root that is ready is renamed, and nothing outside changes. -/
theorem completes_updateBytecodeRoot
    (ready : before.IsReady (context.root.join (Path.ofString name)) place
      names context.options.writeStrategy) :
    ∃ after, Completes (updateBytecodeRoot context names name) before after
        True ∧
      before.HasRenamedBase (context.root.join (Path.ofString name)) place
        names context.options.writeStrategy after := by
  have walks := completes_walk_visitBytecode quiet
    (isBase.settlesAll_visits_iff.mpr ready.sound)
  have isRevised := ready.sound.hasRevised isBase.toLeadsTo
  obtain ⟨moved, after, isAfter, isRenamed⟩ :=
    ready.hasRenamedBase isBase sourcePlain targetPlain different isRevised
  have relocates := completes_relocate quiet name
    (congrArg Effect.answer isAfter)
  rw [isAfter] at relocates
  exact ⟨after, walks.clean_bind fun _ => relocates, isRenamed⟩

/-- A root that is not ready makes the job fail. -/
theorem fails_updateBytecodeRoot
    (notReady : ¬ before.IsReady (context.root.join (Path.ofString name)) place
      names context.options.writeStrategy) :
    Fails (updateBytecodeRoot context names name) before := by
  by_cases sound : before.IsSound (context.root.join (Path.ofString name))
      place names.inBytecode context.options.writeStrategy
  · have walks := completes_walk_visitBytecode quiet
      (isBase.settlesAll_visits_iff.mpr sound)
    have isRevised := sound.hasRevised isBase.toLeadsTo
    refine walks.bind_fails fun _ => ?_
    cases answered : (movePackage (context.root.join (Path.ofString name))
        names.source names.target ((before.visits (context.root.join
          (Path.ofString name))).foldl (Tree.settle names.inBytecode
            context.options.writeStrategy) before)).answer with
    | error error => exact fails_relocate quiet answered
    | ok moved =>
        exact absurd (sound.isReady_of_moved isBase sourcePlain targetPlain
          different isRevised answered) notReady
  · refine (fails_walk_visitBytecode quiet fun settles => ?_).bind _
    exact sound (isBase.settlesAll_visits_iff.mp settles)

end Root

end JobM

end PackageRename
