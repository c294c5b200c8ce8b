import PackageRename.Proofs.Job.Setting
import PackageRename.Proofs.Job.Succeeding
import PackageRename.Proofs.Relocation.Clearing
import PackageRename.Proofs.Tree.Sought

/-!
# What a job leaves behind

A job that succeeds without warnings leaves nothing of the old name behind, in
any file that it works on or as a directory.  Files may have several names;
symbolic links there are none.
-/

namespace PackageRename

namespace Job

variable {job : Job} {world later : World} {home place : Place}
variable {roots done : List String} {name : String}

open PackageRename.Tree

/-- A package without symbolic links whose parts lie apart, and a job on it
whose old name does not meet its new one and that nothing stands in the way
of. -/
structure SharedArrangement (job : Job) (world : World) (home : Place)
    (roots : List String) : Prop where
  orderly : world.tree.IsOrderly
  resolved : world.tree.resolve job.root = .ok home
  directory : world.tree.hasDirectory home = true
  found : bytecodeRoots job.root job.options world.tree = .ok roots
  sourcePlain : job.names.source.HasPlainSegments
  targetPlain : job.names.target.HasPlainSegments
  settling : job.names.IsSettling
  unclaimed : RootKey.of job.root world.tree ∉ world.held
  apart : (job.parts roots).Pairwise world.tree.LeadApart

/-- An arrangement in which nothing is looked for strictly inside a bytecode
root on the way to the root, the resources or the manifest, so that they stay in
place while package directories move. -/
structure SharedSetting (job : Job) (world : World) (home : Place)
    (roots : List String) : Prop
    extends SharedArrangement job world home roots where
  aside : ∀ passed, world.tree.Passes job.root passed → ∀ name ∈ roots,
    ¬ Inside (rootPlace home name) passed
  steady : ∀ path ∈ [job.resourcePath, job.manifestPath],
    ∀ sought ∈ world.tree.sought path, ∀ name ∈ roots,
      ¬ Inside (rootPlace home name) sought

/-- The places on the way can be tried one by one. -/
theorem SharedArrangement.setting
    (arrangement : job.SharedArrangement world home roots)
    (aside : ∀ passed ∈ world.tree.passed job.root, ∀ name ∈ roots,
      ¬ Inside (rootPlace home name) passed)
    (steady : ∀ path ∈ [job.resourcePath, job.manifestPath],
      ∀ sought ∈ world.tree.sought path, ∀ name ∈ roots,
        ¬ Inside (rootPlace home name) sought) :
    job.SharedSetting world home roots :=
  ⟨arrangement, fun passed passes => aside passed (mem_passed passes), steady⟩

namespace SharedArrangement

variable (arrangement : job.SharedArrangement world home roots)

include arrangement

theorem different : job.names.source ≠ job.names.target :=
  fun same => arrangement.settling.name.notWithin
    (same ▸ List.infix_refl job.names.source.name.toList)

theorem written : job.names.source.name ≠ "" := by
  have named := not_isEmpty_of_plain arrangement.sourcePlain
  rwa [Identifier.isEmpty, decide_eq_false_iff_not] at named

theorem opens : job.Opens world roots :=
  ⟨not_isEmpty_of_plain arrangement.sourcePlain,
    not_isEmpty_of_plain arrangement.targetPlain, arrangement.different,
    arrangement.unclaimed, arrangement.found⟩

theorem leadsTo : world.tree.unshared.LeadsTo job.root home where
  free := arrangement.orderly.isLinkFree_unshared
  legal := arrangement.orderly.legal.of_layout (layout_unshared _)
  resolved := (resolve_mapFiles _).trans arrangement.resolved
  directory := (hasDirectory_mapFiles _).trans arrangement.directory

/-- Neither package directory lies inside the other. -/
theorem segments_apart :
    Apart job.names.source.segments job.names.target.segments :=
  ⟨fun inside => arrangement.settling.name.notWithin
      (Utf8.encode_infix_iff.mp (Identifier.name_prefix inside).isInfix),
    fun inside => arrangement.settling.name.notAround
      (Utf8.encode_infix_iff.mp (Identifier.name_prefix inside).isInfix)⟩

end SharedArrangement

namespace SharedSetting

variable (setting : job.SharedSetting world home roots)

include setting

theorem isPackage :
    world.tree.unshared.IsPackage job.root home roots := by
  have found : bytecodeRoots job.root job.options world.tree.unshared =
      .ok roots :=
    (bytecodeRoots_of_layout (layout_unshared _) _ _).trans setting.found
  refine ⟨setting.leadsTo,
    fun _ member => (setting.leadsTo.of_mem_bytecodeRoots found member).1,
    fun _ member => (setting.leadsTo.of_mem_bytecodeRoots found member).2,
    fun passed passes => setting.aside passed ?_⟩
  obtain ⟨front, isFront, leads⟩ := passes
  exact ⟨front, isFront, (follow_mapFiles _ _).symm.trans leads⟩

theorem nodup_roots : roots.Nodup :=
  setting.leadsTo.nodup_bytecodeRoots
    ((bytecodeRoots_of_layout (layout_unshared _) _ _).trans setting.found)

theorem resolve_root (member : name ∈ roots) :
    world.tree.resolve (job.bytecodePath name) = .ok (rootPlace home name) :=
  (resolve_mapFiles _).symm.trans (setting.isPackage.isBase member).resolved

theorem resource_apart (resolved : world.tree.resolve job.resourcePath = .ok place)
    (member : name ∈ roots) : Apart place (rootPlace home name) :=
  ((List.pairwise_cons.mp setting.apart).1 (job.bytecodePath name)
    (List.mem_cons_of_mem _ (List.mem_map_of_mem member))).apart resolved
    (setting.resolve_root member)

theorem resource_seen (resolved : world.tree.resolve job.resourcePath = .ok place)
    (rest : Place) :
    ¬ ∃ name ∈ roots, Inside (rootPlace home name) (place ++ rest) := by
  rintro ⟨name, member, inside⟩
  exact (setting.resource_apart resolved member).symm.not_prefix_append inside.1

theorem manifest_apart (resolved : world.tree.resolve job.manifestPath = .ok place)
    (member : name ∈ roots) : Apart place (rootPlace home name) :=
  ((List.pairwise_cons.mp (List.pairwise_cons.mp setting.apart).2).1
    (job.bytecodePath name) (List.mem_map_of_mem member)).apart resolved
    (setting.resolve_root member)

end SharedSetting

/-! ### A tree that is tidied root by root -/

/-- The words that the text stages and the bytecode stage seek. -/
def textWords (job : Job) : List String :=
  job.names.inText.map (·.sought)

def bytecodeWords (job : Job) : List String :=
  job.names.inBytecode.map (·.sought)

theorem textWords_subset (job : Job) :
    ∀ word ∈ job.textWords, word ∈ job.bytecodeWords := by
  intro word member
  obtain rfl := List.mem_singleton.mp member
  exact List.mem_cons_of_mem _ List.mem_cons_self

/-- The tree while the bytecode roots are renamed: nothing of the old name is
left in the resources, in the manifest and in the roots that are done, and
nothing has moved elsewhere. -/
structure HasTidied (job : Job) (world : World) (home : Place)
    (done : List String) (tree : Tree) : Prop where
  orderly : tree.IsOrderly
  origin : tree.origin = world.tree.origin
  kinds : SameKinds (fun inner => ∃ name ∈ done,
    Inside (rootPlace home name) inner) world.tree tree
  resources : ∀ place, world.tree.resolve job.resourcePath = .ok place →
    world.tree.hasDirectory place = true →
    tree.IsFreeBelow job.textWords place
  manifest : ∀ place, world.tree.resolve job.manifestPath = .ok place →
    tree.IsFreeAt job.textWords place
  free : ∀ name ∈ done,
    tree.IsFreeBelow job.bytecodeWords (rootPlace home name)
  gone : ∀ name ∈ done, tree.hasDirectory
    (rootPlace home name ++ job.names.source.segments) = false
  fits : ∀ name ∈ done,
    (tree.Fits (job.bytecodePath name) (rootPlace home name) ↔
      world.tree.MovesShort (job.bytecodePath name) (rootPlace home name)
        job.names)

/-- Clearing one more root keeps what is tidy so. -/
theorem HasTidied.concat (setting : job.SharedSetting world home roots)
    {tree after : Tree} (tidied : job.HasTidied world home done tree)
    (member : name ∈ roots) (fresh : name ∉ done)
    (cleared : tree.HasCleared job.names (job.bytecodePath name)
      (rootPlace home name) after) :
    job.HasTidied world home (done ++ [name]) after := by
  have elsewhere : ∀ other ∈ done, ∀ rest,
      ¬ rootPlace home name <+: rootPlace home other ++ rest := by
    intro other isDone rest
    have different : name ≠ other := fun same => fresh (same ▸ isDone)
    exact (apart_rootPlace different).not_prefix_append
  have notInside : ∀ other ∈ done, ∀ rest,
      ¬ Inside (rootPlace home name) (rootPlace home other ++ rest) :=
    fun other isDone rest inside => elsewhere other isDone rest inside.1
  have undone : ∀ rest, ¬ ∃ other ∈ done,
      Inside (rootPlace home other) (rootPlace home name ++ rest) := by
    rintro rest ⟨other, isDone, inside⟩
    have different : other ≠ name := fun same => fresh (same ▸ isDone)
    exact (apart_rootPlace different).not_prefix_append inside.1
  refine ⟨cleared.orderly, cleared.origin.trans tidied.origin, ?_, ?_, ?_, ?_,
    ?_, ?_⟩
  · refine (tidied.kinds.mono ?_).trans (cleared.kinds.mono ?_)
    · rintro inner ⟨other, isDone, inside⟩
      exact ⟨other, List.mem_append_left _ isDone, inside⟩
    · exact fun inner inside => ⟨name, List.mem_concat_self, inside⟩
  · intro place resolved directory rest
    exact cleared.keeps _ job.textWords_subset _
      (setting.resource_apart resolved member).symm.not_prefix_append
      (tidied.resources place resolved directory rest)
  · intro place resolved
    exact cleared.keeps _ job.textWords_subset _
      (setting.manifest_apart resolved member).2
      (tidied.manifest place resolved)
  · intro other isDone
    rcases List.mem_append.mp isDone with before | last
    · exact fun rest => cleared.keeps _ (fun _ isWord => isWord) _
        (elsewhere other before rest) (tidied.free other before rest)
    · obtain rfl := List.mem_singleton.mp last
      exact cleared.free
  · intro other isDone
    rcases List.mem_append.mp isDone with before | last
    · rw [cleared.kinds.hasDirectory (notInside other before _)]
      exact tidied.gone other before
    · obtain rfl := List.mem_singleton.mp last
      exact cleared.gone
  · intro other isDone
    rcases List.mem_append.mp isDone with before | last
    · rw [cleared.kinds.fits_iff (notInside other before)]
      exact tidied.fits other before
    · obtain rfl := List.mem_singleton.mp last
      rw [cleared.fits, MovesShort, MovesShort,
        tidied.kinds.hasDirectory (undone _)]
      simp only [tidied.kinds.isSome (undone _)]

theorem layout_afterResources (job : Job) (tree : Tree) :
    (job.afterResources tree).layout = tree.layout := by
  rw [afterResources]
  split
  · exact layout_foldl_settle _
  · rfl

/-- The text stages tidy the resources and the manifest. -/
theorem hasTidied_afterManifest (setting : job.SharedSetting world home roots)
    (clean : job.CleanResources world.tree)
    (updates : (updateFile job.manifestPath job.names.inText
      job.options.writeStrategy (job.afterResources world.tree)).answer.isOk =
        true) :
    job.HasTidied world home [] (job.afterManifest world.tree) := by
  have clear := setting.settling.clear_inText setting.written
  have sameResources := job.layout_afterResources world.tree
  have same : (job.afterManifest world.tree).layout = world.tree.layout :=
    (layout_updateFile _).trans sameResources
  refine ⟨setting.orderly.of_layout same, origin_of_layout same,
    sameKinds_of_layout same _, ?_, ?_, nofun, nofun, nofun⟩
  · intro place resolved directory rest
    have isDirectory : world.tree.isDirectory job.resourcePath = true := by
      rw [Tree.isDirectory, resolved]
      exact directory
    have freed := setting.orderly.isFreeBelow_visits clear resolved
      (clean isDirectory)
    have updated : job.afterResources world.tree =
        (world.tree.visits job.resourcePath).foldl
          (settle job.names.inText job.options.writeStrategy) world.tree :=
      if_pos isDirectory
    rw [← updated] at freed
    exact (freed rest).updateFile clear fun _ isWord => isWord
  · intro place resolved
    refine isFreeAt_updateFile clear updates ?_
    rwa [resolve_of_layout sameResources]

theorem HasTidied.kinds_unshared {tree : Tree}
    (tidied : job.HasTidied world home done tree) :
    SameKinds (fun inner => ∃ name ∈ done, Inside (rootPlace home name) inner)
      world.tree.unshared tree.unshared :=
  (sameKinds_unshared world.tree _).symm.trans
    (tidied.kinds.trans (sameKinds_unshared tree _))

/-- The package stays where it is. -/
theorem HasTidied.isPackage (setting : job.SharedSetting world home roots)
    {tree : Tree} (tidied : job.HasTidied world home done tree)
    (chosen : ∀ name ∈ done, name ∈ roots) :
    tree.unshared.IsPackage job.root home roots := by
  refine setting.isPackage.transfer tidied.orderly.isLinkFree_unshared
    (tidied.orderly.legal.of_layout (layout_unshared _)) tidied.origin
    (tidied.kinds_unshared.mono ?_)
  rintro inner ⟨name, isDone, inside⟩
  exact ⟨name, chosen name isDone, inside⟩

/-- Renaming roots tidies them. -/
theorem RenamesRoots.hasTidied (setting : job.SharedSetting world home roots)
    {rest : List String} {tree after : Tree}
    (renames : job.RenamesRoots tree rest after)
    (tidied : job.HasTidied world home done tree)
    (chosen : ∀ name ∈ done ++ rest, name ∈ roots)
    (nodup : (done ++ rest).Nodup) :
    job.HasTidied world home (done ++ rest) after := by
  induction renames generalizing done with
  | nil tree => rwa [List.append_nil]
  | @cons before after name rest moved settles answered later induction =>
      have member := chosen name (List.mem_append_right _ List.mem_cons_self)
      have fresh : name ∉ done := fun isDone =>
        (List.nodup_append.mp nodup).2.2 name isDone name List.mem_cons_self rfl
      have isPackage := tidied.isPackage setting fun other isDone =>
        chosen other (List.mem_append_left _ isDone)
      have cleared := tidied.orderly.hasCleared (isPackage.isBase member)
        setting.sourcePlain setting.targetPlain setting.segments_apart
        (setting.settling.clear_inBytecode setting.written) settles answered
      rw [List.append_cons] at chosen nodup ⊢
      exact induction (tidied.concat setting member fresh cleared) chosen nodup

/-- A job that succeeds without warnings tidies everything. -/
theorem hasTidied_run (setting : job.SharedSetting world home roots)
    (success : (job.run .passive false world).1.result.success = true)
    (noWarnings : (job.run .passive false world).1.result.warnings = []) :
    job.CleanResources world.tree ∧
      job.HasTidied world home roots (job.run .passive false world).2.tree := by
  obtain ⟨renamed, warned⟩ := setting.opens.of_success success
  have clean := warned.mp noWarnings
  exact ⟨clean, renamed.bytecode.hasTidied setting
    (hasTidied_afterManifest setting clean renamed.manifest)
    (fun _ member => member) setting.nodup_roots⟩

/-- Only what files contain matters. -/
theorem HasTidied.mapFiles {tree : Tree} {change : File → File}
    (tidied : job.HasTidied world home done tree)
    (keeps : ∀ file, (change file).contents = file.contents) :
    job.HasTidied world home done (tree.mapFiles change) := by
  have same : (tree.mapFiles change).layout = tree.layout := layout_mapFiles
  have kinds := sameKinds_of_layout same fun _ => False
  have free : ∀ {words place}, tree.IsFreeAt words place →
      (tree.mapFiles change).IsFreeAt words place := by
    intro words place wasFree file isFile word member
    rw [node?_mapFiles, mapFile_eq_file] at isFile
    obtain ⟨before, wasFile, rfl⟩ := isFile
    rw [File.Mentions, keeps]
    exact wasFree before wasFile word member
  refine ⟨tidied.orderly.of_layout same, tidied.origin,
    tidied.kinds.trans (sameKinds_of_layout same _),
    fun place resolved directory rest =>
      free (tidied.resources place resolved directory rest),
    fun place resolved => free (tidied.manifest place resolved),
    fun name isDone rest => free (tidied.free name isDone rest), ?_, ?_⟩
  · intro name isDone
    rw [kinds.hasDirectory id]
    exact tidied.gone name isDone
  · intro name isDone
    rw [kinds.fits_iff fun _ => id]
    exact tidied.fits name isDone

end Job

end PackageRename
