import PackageRename.Proofs.Job.Idling
import PackageRename.Proofs.Job.Tidying

/-!
# Running a job again

Where nothing is left of the old name, the job that has removed it finds nothing
to do when it is run again.
-/

namespace PackageRename

namespace Tree

variable {tree other : Tree} {base path : Path} {place : Place}
variable {substitutions : List Substitution} {strategy : WriteStrategy}

theorem IsOrderly.fileAt (orderly : tree.IsOrderly)
    (resolved : tree.resolve base = .ok place)
    (isRoot : tree.hasDirectory place = true) {names : List Name} {file : File}
    (isFile : tree.node? (place ++ names) = some (.file file))
    (fits : (base.below names).bytes.length ≤ pathLimit) :
    tree.fileAt (base.below names) = .ok (place ++ names, file) := by
  refine fileAt_eq_ok.mpr ⟨?_, isFile⟩
  rw [← resolve_layout]
  refine (orderly.leadsTo_layout resolved isRoot).resolve fits ?_
  rw [node?_layout, isFile]
  rfl

/-- A directory that can be walked to its ends rests when it is free of what is
sought. -/
theorem IsOrderly.rests_visits (orderly : tree.IsOrderly)
    (resolved : tree.resolve base = .ok place)
    (isRoot : tree.hasDirectory place = true) (fits : tree.Fits base place)
    (free : tree.IsFreeBelow (substitutions.map (·.sought)) place) :
    ∀ visited ∈ tree.visits base, tree.Rests substitutions strategy visited := by
  intro visited member
  rw [← visits_layout] at member
  obtain ⟨names, encounter⟩ :=
    (orderly.leadsTo_layout resolved isRoot).encounter_of_mem_visits member
  cases encounter with
  | directory _ => trivial
  | failure present long =>
      have isThere := hasDirectory_isSome
        ((hasDirectory_layout (place ++ names)).symm.trans present)
      exact absurd (fits names isThere) (Nat.not_le_of_lt long)
  | file present =>
      rw [node?_layout, mapFile_eq_file] at present
      obtain ⟨file, isFile, -⟩ := present
      have found := orderly.fileAt resolved isRoot isFile
        (fits names (by rw [isFile]; rfl))
      exact updateFile_of_free found (free names)

theorem soughtFrom_layout (tree : Tree) (place : Place) (pieces : List Name) :
    tree.layout.soughtFrom place pieces = tree.soughtFrom place pieces := by
  induction pieces generalizing place with
  | nil => rfl
  | cons piece rest induction =>
      rw [soughtFrom, soughtFrom, hasDirectory_layout]
      simp only [induction]

/-- A path leads to the same place where nothing has changed on the way. -/
theorem IsOrderly.resolve_iff (orderly : tree.IsOrderly)
    (otherOrderly : other.IsOrderly) (origin : other.origin = tree.origin)
    {hidden : Place → Prop} (same : SameKinds hidden tree other)
    (avoids : ∀ inner ∈ tree.sought path, ¬ hidden inner) :
    other.resolve path = .ok place ↔ tree.resolve path = .ok place := by
  have kinds : SameKinds hidden tree.layout other.layout :=
    ((sameKinds_of_layout layout_mapFiles hidden).symm.trans same).trans
      (sameKinds_of_layout layout_mapFiles hidden)
  have seen : tree.layout.resolve path = tree.resolve path :=
    resolve_layout path
  have otherSeen : other.layout.resolve path = other.resolve path :=
    resolve_layout path
  rw [← seen, ← otherSeen]
  refine kinds.resolve_iff orderly.isLinkFree_layout
    otherOrderly.isLinkFree_layout origin fun inner isSought => avoids inner ?_
  rw [sought, ← soughtFrom_layout]
  exact isSought

end Tree

namespace Job

variable {job : Job} {world later : World} {home place : Place}
variable {roots : List String} {name : String}

open PackageRename.Tree

/-- Nothing of the old name is left in the resources, in the manifest and in
the bytecode roots. -/
structure IsTidy (job : Job) (roots : List String) (tree : Tree) : Prop where
  resources : ∀ place, tree.resolve job.resourcePath = .ok place →
    tree.hasDirectory place = true →
    tree.IsFreeBelow [job.names.source.name] place
  manifest : ∃ place file, tree.fileAt job.manifestPath = .ok (place, file) ∧
    ¬ file.Mentions job.names.source.name
  found : bytecodeRoots job.root job.options tree = .ok roots
  bytecode : ∀ name ∈ roots, ∃ place,
    tree.resolve (job.bytecodePath name) = .ok place ∧
      tree.IsFreeBelow [job.names.source.descriptor, job.names.source.name] place

/-- The job has nothing to warn about, counts no change and no move and leaves
the tree as it is, down to the marks on files that are written. -/
structure ChangesNothing (job : Job) (world : World) : Prop where
  warnings : (job.run .passive false world).1.result.warnings = []
  filesChanged : (job.run .passive false world).1.result.stats.filesChanged = 0
  replacements : (job.run .passive false world).1.result.stats.replacements = 0
  directoriesMoved :
    (job.run .passive false world).1.result.stats.directoriesMoved = 0
  tree : (job.run .passive false world).2.tree = world.tree

/-! ### The same job on a tidy tree -/

section Again

variable {tree : Tree} (setting : job.SharedSetting world home roots)
variable (tidied : job.HasTidied world home roots tree)

include setting tidied

theorem isBase_again (member : name ∈ roots) :
    tree.unshared.IsBase (job.bytecodePath name) (rootPlace home name) :=
  (tidied.isPackage setting fun _ isRoot => isRoot).isBase member

theorem resolve_root_again (member : name ∈ roots) :
    tree.resolve (job.bytecodePath name) = .ok (rootPlace home name) :=
  (resolve_mapFiles _).symm.trans (isBase_again setting tidied member).resolved

theorem isRoot_again (member : name ∈ roots) :
    tree.hasDirectory (rootPlace home name) = true :=
  (hasDirectory_mapFiles _).symm.trans
    (isBase_again setting tidied member).directory

/-- The package directory has gone. -/
theorem isDirectory_again (member : name ∈ roots) :
    tree.isDirectory (job.names.source.directoryIn (job.bytecodePath name)) =
      false := by
  have seen : tree.unshared.isDirectory
      (job.names.source.directoryIn (job.bytecodePath name)) =
        tree.isDirectory
          (job.names.source.directoryIn (job.bytecodePath name)) :=
    isDirectory_mapFiles _
  rw [← seen, Bool.eq_false_iff,
    Identifier.directoryIn_eq_below setting.sourcePlain, ne_eq,
    (isBase_again setting tidied member).isDirectory setting.sourcePlain]
  rintro ⟨-, directory⟩
  have gone := tidied.gone name member
  rw [(hasDirectory_mapFiles _).symm.trans directory] at gone
  cases gone

theorem bytecodeRoots_again :
    bytecodeRoots job.root job.options tree = .ok roots := by
  have isPackage := tidied.isPackage setting fun _ isRoot => isRoot
  have outside : ∀ entry, ¬ ∃ name ∈ roots,
      Inside (rootPlace home name) (home ++ [entry]) := by
    rintro entry ⟨name, -, ⟨isPrefix, different⟩⟩
    exact different (isPrefix.eq_of_length (by simp [rootPlace])).symm
  have same : bytecodeRoots job.root job.options tree.unshared =
      bytecodeRoots job.root job.options world.tree.unshared := by
    refine setting.leadsTo.bytecodeRoots_eq isPackage.toLeadsTo fun entry => ?_
    exact tidied.kinds_unshared _ (outside entry)
  exact (bytecodeRoots_of_layout (layout_unshared _) _ _).symm.trans (same.trans
    ((bytecodeRoots_of_layout (layout_unshared _) _ _).trans setting.found))

/-- The resources are where they were. -/
theorem resolve_resources_again :
    tree.resolve job.resourcePath = .ok place ↔
      world.tree.resolve job.resourcePath = .ok place := by
  refine setting.orderly.resolve_iff tidied.orderly tidied.origin tidied.kinds ?_
  rintro inner isSought ⟨name, member, inside⟩
  exact setting.steady _ List.mem_cons_self inner isSought name member inside

theorem resolve_manifest_again :
    tree.resolve job.manifestPath = .ok place ↔
      world.tree.resolve job.manifestPath = .ok place := by
  refine setting.orderly.resolve_iff tidied.orderly tidied.origin tidied.kinds ?_
  rintro inner isSought ⟨name, member, inside⟩
  exact setting.steady _ (List.mem_cons_of_mem _ List.mem_cons_self) inner
    isSought name member inside

theorem resources_before (resolved : tree.resolve job.resourcePath = .ok place)
    (isRoot : tree.hasDirectory place = true) :
    world.tree.resolve job.resourcePath = .ok place ∧
      world.tree.hasDirectory place = true := by
  have before := (resolve_resources_again setting tidied).mp resolved
  have same := tidied.kinds.hasDirectory
    (setting.resource_seen before [])
  rw [List.append_nil] at same
  exact ⟨before, same.symm.trans isRoot⟩

theorem rests_resources (clean : job.CleanResources world.tree)
    (isDirectory : tree.isDirectory job.resourcePath = true) :
    ∀ visited ∈ tree.visits job.resourcePath,
      tree.Rests job.names.inText job.options.writeStrategy visited := by
  rw [Tree.isDirectory] at isDirectory
  split at isDirectory
  · rename_i place resolved
    obtain ⟨before, wasRoot⟩ :=
      resources_before setting tidied resolved isDirectory
    have settled := clean (by rw [Tree.isDirectory, before]; exact wasRoot)
    have fits := (tidied.kinds.fits_iff
      (setting.resource_seen before)).mpr
        (setting.orderly.fits_of_settlesAll before wasRoot settled)
    exact tidied.orderly.rests_visits resolved isDirectory fits
      (tidied.resources place before wasRoot)
  · cases isDirectory

/-- The manifest is where it was, and free of the old name. -/
theorem manifest_again
    (updates : (updateFile job.manifestPath job.names.inText
      job.options.writeStrategy (job.afterResources world.tree)).answer.isOk =
        true) :
    ∃ place file, tree.fileAt job.manifestPath = .ok (place, file) ∧
      tree.IsFreeAt job.textWords place := by
  have same := job.layout_afterResources world.tree
  cases found : (job.afterResources world.tree).fileAt job.manifestPath with
  | error fault =>
      rw [updateFile_of_missing found] at updates
      cases updates
  | ok at_ =>
      obtain ⟨place, before⟩ := at_
      obtain ⟨resolved, isFile⟩ := fileAt_eq_ok.mp found
      rw [resolve_of_layout same] at resolved
      have seen : ¬ ∃ name ∈ roots, Inside (rootPlace home name) place := by
        rintro ⟨name, member, inside⟩
        exact (setting.manifest_apart resolved member).2 inside.1
      have kinds := (tidied.kinds place seen).trans
        (sameKinds_of_layout same (fun _ => False) place id).symm
      rw [isFile] at kinds
      obtain ⟨file, isNow⟩ := kind_eq_file.mp kinds
      exact ⟨place, file, fileAt_eq_ok.mpr
        ⟨(resolve_manifest_again setting tidied).mpr resolved, isNow⟩,
        tidied.manifest place resolved⟩

theorem isTidy_again
    (updates : (updateFile job.manifestPath job.names.inText
      job.options.writeStrategy (job.afterResources world.tree)).answer.isOk =
        true) :
    job.IsTidy roots tree where
  resources := by
    intro place resolved directory
    obtain ⟨before, wasRoot⟩ :=
      resources_before setting tidied resolved directory
    exact tidied.resources place before wasRoot
  manifest := by
    obtain ⟨place, file, found, free⟩ := manifest_again setting tidied updates
    exact ⟨place, file, found,
      free file (fileAt_eq_ok.mp found).2 _ List.mem_cons_self⟩
  found := bytecodeRoots_again setting tidied
  bytecode := fun name member => ⟨_, resolve_root_again setting tidied member,
    tidied.free name member⟩

theorem rests_root (member : name ∈ roots)
    (fits : tree.Fits (job.bytecodePath name) (rootPlace home name)) :
    ∀ visited ∈ tree.visits (job.bytecodePath name),
      tree.Rests job.names.inBytecode job.options.writeStrategy visited :=
  tidied.orderly.rests_visits (resolve_root_again setting tidied member)
    (isRoot_again setting tidied member) fits (tidied.free name member)

/-- If all that has moved can still be reached, the job has nothing to do. -/
theorem idles_again (clean : job.CleanResources world.tree)
    (updates : (updateFile job.manifestPath job.names.inText
      job.options.writeStrategy (job.afterResources world.tree)).answer.isOk =
        true)
    (fits : ∀ name ∈ roots,
      tree.Fits (job.bytecodePath name) (rootPlace home name)) :
    JobM.Idles (JobM.updatePackage (job.context .passive) job.names roots)
      tree := by
  have quiet : (job.context .passive).observer = .passive := rfl
  unfold JobM.updatePackage
  obtain ⟨_, _, found, free⟩ := manifest_again setting tidied updates
  refine (JobM.idles_updateResources quiet
    (rests_resources setting tidied clean)).bind fun _ =>
    (JobM.idles_updateManifest quiet (updateFile_of_free found free)).bind
      fun _ => JobM.idles_forM fun name member => ?_
  exact JobM.idles_updateBytecodeRoot quiet
    (rests_root setting tidied member (fits name member))
    (isDirectory_again setting tidied member)

/-- If the roots can be renamed, all that is in them can be reached. -/
theorem RenamesRoots.fits {rest : List String} {before after : Tree}
    (renames : job.RenamesRoots before rest after)
    (same : before.layout = tree.layout)
    (chosen : ∀ name ∈ rest, name ∈ roots) :
    ∀ name ∈ rest, tree.Fits (job.bytecodePath name) (rootPlace home name) := by
  induction renames with
  | nil => exact nofun
  | @cons before after name rest moved settles answered later induction =>
      have member := chosen name List.mem_cons_self
      have kinds := sameKinds_of_layout same fun _ => False
      have fits := (tidied.orderly.of_layout same).fits_of_settlesAll
        ((resolve_of_layout same _).trans
          (resolve_root_again setting tidied member))
        ((kinds.hasDirectory id).trans (isRoot_again setting tidied member))
        settles
      have updated : (job.updatedRoot name before).layout = tree.layout :=
        (layout_foldl_settle _).trans same
      have stays : (job.moving name before).tree = job.updatedRoot name before := by
        rw [moving, movePackage_of_missing
          ((isDirectory_of_layout updated _).trans
            (isDirectory_again setting tidied member))]
        rfl
      refine List.forall_mem_cons.mpr
        ⟨(kinds.fits_iff fun _ => id).mp fits, induction ?_ ?_⟩
      · rw [stays, updated]
      · exact fun other isLater => chosen other (List.mem_cons_of_mem _ isLater)

end Again

/-- A job with nothing to do succeeds. -/
theorem Opens.of_idles (opens : job.Opens world roots)
    (idles : JobM.Idles
      (JobM.updatePackage (job.context .passive) job.names roots) world.tree) :
    (job.run .passive false world).1.result.success = true ∧
      job.ChangesNothing world := by
  obtain ⟨isReport, isTree⟩ := opens.run_eq .passive false
  obtain ⟨value, reached, isRun, idled⟩ :=
    idles (.initial (job.claimed world) false) rfl rfl
  rw [stages_eq, isRun] at isReport isTree
  refine ⟨?_, ?_, ?_, ?_, ?_, ?_⟩
  · rw [isReport]
    rfl
  · rw [isReport]
    exact idled.warnings
  · rw [isReport]
    exact idled.filesChanged
  · rw [isReport]
    exact idled.replacements
  · rw [isReport]
    exact idled.directoriesMoved
  · rw [isTree]
    exact idled.tree

end Job

/-- The file without the mark that it has been written. -/
def File.unmarked (file : File) : File :=
  { file with written := false }

namespace Job

variable {job : Job} {world later : World} {home : Place} {roots : List String}

open PackageRename.Tree

/-- A job that has succeeded without warnings leaves nothing of the old name.
Run again, it succeeds if and only if all that has moved can still be reached in
its new place; then it changes nothing. -/
theorem run_again (setting : job.SharedSetting world home roots)
    (success : (job.run .passive false world).1.result.success = true)
    (noWarnings : (job.run .passive false world).1.result.warnings = [])
    (sameTree : later.tree =
      (job.run .passive false world).2.tree.mapFiles File.unmarked)
    (unclaimed : RootKey.of job.root later.tree ∉ later.held) :
    job.IsTidy roots (job.run .passive false world).2.tree ∧
      ((job.run .passive false later).1.result.success = true ↔
        ∀ name ∈ roots, world.tree.MovesShort (job.bytecodePath name)
          (rootPlace home name) job.names) ∧
      ((job.run .passive false later).1.result.success = true →
        job.ChangesNothing later) := by
  obtain ⟨renamed, -⟩ := setting.opens.of_success success
  obtain ⟨clean, tidied⟩ := hasTidied_run setting success noWarnings
  have laterTidied : job.HasTidied world home roots later.tree :=
    sameTree ▸ tidied.mapFiles fun _ => rfl
  have laterOpens : job.Opens later roots :=
    ⟨setting.opens.sourceNamed, setting.opens.targetNamed, setting.different,
      unclaimed, bytecodeRoots_again setting laterTidied⟩
  have short_iff : (∀ name ∈ roots, later.tree.Fits (job.bytecodePath name)
        (rootPlace home name)) ↔
      ∀ name ∈ roots, world.tree.MovesShort (job.bytecodePath name)
        (rootPlace home name) job.names :=
    forall₂_congr laterTidied.fits
  have fits : (job.run .passive false later).1.result.success = true →
      ∀ name ∈ roots, later.tree.Fits (job.bytecodePath name)
        (rootPlace home name) := by
    intro laterSuccess
    obtain ⟨again, -⟩ := laterOpens.of_success laterSuccess
    exact again.bytecode.fits setting laterTidied
      ((layout_updateFile _).trans (job.layout_afterResources _))
      fun _ member => member
  have nothing := fun fits => laterOpens.of_idles
    (idles_again setting laterTidied clean renamed.manifest fits)
  refine ⟨isTidy_again setting tidied renamed.manifest, ⟨?_, ?_⟩, ?_⟩
  · exact fun laterSuccess => short_iff.mp (fits laterSuccess)
  · exact fun short => (nothing (short_iff.mpr short)).1
  · exact fun laterSuccess => (nothing (fits laterSuccess)).2

/-- A package in which a resource has a second name in a bytecode root, and the
manifest one beside the package. -/
def sharingTree : Tree :=
  (Tree.holding [("m", "com.app"), ("p/res/a", "com.app Lcom/app/A;"),
    ("p/smali/com/app/A", "Lcom/app/A;")]).edit
      ⟨[], [(Path.ofString "p/AndroidManifest.xml",
          .hardLink (Path.ofString "m")),
        (Path.ofString "p/smali/com/app/B",
          .hardLink (Path.ofString "p/res/a"))]⟩

def sharingJob : Job :=
  .of (Path.ofString "p") "com.app" "org.clone"
    { Options.standard with writeStrategy := .inPlace }

def sharingWorld : World := .ofTree sharingTree

/-- The package after the first run, with no marks on its files. -/
def sharingLater : World :=
  .ofTree ((sharingJob.run .passive false sharingWorld).2.tree.mapFiles
    File.unmarked)

theorem sharingJob_setting :
    sharingJob.SharedSetting sharingWorld [Utf8.encode "p"] ["smali"] := by
  refine SharedArrangement.setting ⟨⟨Tree.linkless_of_nodes ?_,
    Tree.hasLegalNames_of_nodes ?_⟩, ?_, ?_, ?_, ?_, ?_, ⟨?_, ?_, ?_⟩,
    List.not_mem_nil, ?_⟩ ?_ ?_ <;>
    decide +kernel

theorem run_again_sharing :
    (sharingJob.run .passive false sharingWorld).1.result.stats.filesChanged =
        4 ∧
      (sharingJob.run .passive false sharingLater).1.result.warnings = [] ∧
      (sharingJob.run .passive false sharingLater).1.result.stats.filesChanged =
        0 ∧
      (sharingJob.run .passive false sharingLater).2.tree =
        sharingLater.tree := by
  have again := @run_again sharingJob sharingWorld sharingLater _ _
    sharingJob_setting (by decide +kernel) (by decide +kernel) rfl
    List.not_mem_nil
  have nothing := again.2.2 (by decide +kernel)
  exact ⟨by decide +kernel, nothing.warnings, nothing.filesChanged, nothing.tree⟩

/-- A package whose parts can be written so that the way to them leads through
the package directory, before the move or after it. -/
def crossedTree : Tree :=
  .holding [("p/m", ""), ("p/res/v", "a"), ("p/smali/a/X", "")]

def crossedJob (root resources manifest : String) : Job :=
  .of (Path.ofString root) "a" "b" ⟨resources, manifest, "smali", .atomic⟩

/-- What a crossed job does when it is run for the first and for the second
time. -/
def crossedRun (root resources manifest : String) : Report × World :=
  (crossedJob root resources manifest).run .passive false (.ofTree crossedTree)

def crossedRunAgain (root resources manifest : String) : Report × World :=
  (crossedJob root resources manifest).run .passive false
    (crossedRun root resources manifest).2

theorem crossedJob_arrangement {root resources manifest : String}
    (chosen : (root, resources, manifest) ∈
      [("p/smali/a/../..", "q", "m"), ("p", "q", "smali/a/../../m"),
        ("p", "smali/b/../../res", "m")]) :
    (crossedJob root resources manifest).SharedArrangement
      (.ofTree crossedTree) [Utf8.encode "p"] ["smali"] := by
  simp only [List.mem_cons, Prod.mk.injEq, List.not_mem_nil, or_false] at chosen
  rcases chosen with ⟨rfl, rfl, rfl⟩ | ⟨rfl, rfl, rfl⟩ | ⟨rfl, rfl, rfl⟩ <;>
    refine ⟨⟨Tree.linkless_of_nodes ?_, Tree.hasLegalNames_of_nodes ?_⟩, ?_, ?_,
      ?_, ?_, ?_, ⟨?_, ?_, ?_⟩, List.not_mem_nil, ?_⟩ <;>
    decide +kernel

/-- Without the condition on the places that are looked at, the second run does
not find the root or the manifest, or it finds resources that the first run has
not found. -/
theorem run_again_finds_detours :
    (∀ detour ∈ [("p/smali/a/../..", "q", "m"), ("p", "q", "smali/a/../../m"),
        ("p", "smali/b/../../res", "m")],
      (crossedJob detour.1 detour.2.1 detour.2.2).SharedArrangement
          (.ofTree crossedTree) [Utf8.encode "p"] ["smali"] ∧
        (crossedRun detour.1 detour.2.1 detour.2.2).1.result.success = true ∧
        (crossedRun detour.1 detour.2.1 detour.2.2).1.result.warnings = []) ∧
      (crossedRunAgain "p/smali/a/../.." "q" "m").1.result.success = false ∧
      (crossedRunAgain "p" "q" "smali/a/../../m").1.result.success = false ∧
      (crossedRunAgain "p" "smali/b/../../res" "m").1.result.stats.filesChanged =
        1 := by
  refine ⟨?_, by decide +kernel, by decide +kernel, by decide +kernel⟩
  intro detour chosen
  refine ⟨crossedJob_arrangement chosen, ?_⟩
  revert detour
  decide +kernel

end Job

end PackageRename
