import PackageRename.Proofs.Job.Package
import PackageRename.Proofs.Relocation.Landing

/-!
# Packages whose parts lie apart

Where the resources, the manifest and the bytecode roots of a package lie in
places apart, the text stages revise files that the bytecode stage never sees,
and the bytecode stage finds its roots as they were at first.
-/

namespace PackageRename

namespace Tree

variable {tree revised : Tree} {change : File → File} {part : Place → Prop}

/-- The paths lead to places apart, if both lead anywhere. -/
def LeadApart (tree : Tree) (first second : Path) : Prop :=
  ∀ outer ∈ (tree.resolve first).toOption,
    ∀ inner ∈ (tree.resolve second).toOption, Apart outer inner

instance (tree : Tree) (first second : Path) :
    Decidable (tree.LeadApart first second) :=
  inferInstanceAs (Decidable (∀ _ ∈ _, _))

theorem leadApart_iff {first second : Path} :
    tree.LeadApart first second ↔
      ∀ outer inner, tree.resolve first = .ok outer →
        tree.resolve second = .ok inner → Apart outer inner := by
  have isReached : ∀ (path : Path) (place : Place),
      place ∈ (tree.resolve path).toOption ↔ tree.resolve path = .ok place := by
    intro path place
    cases tree.resolve path with
    | error fault => simp [Except.toOption]
    | ok reached => simp [Except.toOption]
  simp only [LeadApart, isReached]
  exact ⟨fun apart outer inner isOuter => apart outer isOuter inner,
    fun apart outer isOuter inner => apart outer inner isOuter⟩

theorem LeadApart.apart {first second : Path} {outer inner : Place}
    (leadApart : tree.LeadApart first second)
    (isOuter : tree.resolve first = .ok outer)
    (isInner : tree.resolve second = .ok inner) : Apart outer inner :=
  leadApart_iff.mp leadApart outer inner isOuter isInner

/-- A path leads to the same file where that file is not revised. -/
theorem HasRevised.fileAt_eq (isRevised : tree.HasRevised change part revised)
    {path : Path} (outside : ∀ place, tree.resolve path = .ok place →
      ¬ part place) :
    revised.fileAt path = tree.fileAt path := by
  rw [Tree.fileAt, Tree.fileAt, resolve_of_layout isRevised.layout path]
  cases resolved : tree.resolve path with
  | error fault => rfl
  | ok place =>
      simp only [bind, Except.bind]
      rw [isRevised.outside place (outside place resolved)]

end Tree

/-- Only the file that a path leads to matters for an update to succeed, and
where files and directories stand. -/
theorem updateFile_isOk_congr {tree other : Tree} {path : Path}
    (sameLayout : other.layout = tree.layout)
    (same : other.fileAt path = tree.fileAt path)
    (substitutions : List Substitution) (strategy : WriteStrategy) :
    (updateFile path substitutions strategy other).answer.isOk =
      (updateFile path substitutions strategy tree).answer.isOk := by
  cases found : tree.fileAt path with
  | error fault =>
      rw [Tree.updateFile_of_missing found,
        Tree.updateFile_of_missing (same.trans found)]
      rfl
  | ok at_ =>
      obtain ⟨place, file⟩ := at_
      rw [Bool.eq_iff_iff, Tree.updateFile_isOk_iff found,
        Tree.updateFile_isOk_iff (same.trans found),
        Tree.canWrite_of_layout sameLayout]

namespace Job

variable {job : Job} {world : World} {home : Place} {roots : List String}
variable {place : Place} {name : String}

open PackageRename.Tree

/-- The paths of all that a job works on. -/
def parts (job : Job) (roots : List String) : List Path :=
  job.resourcePath :: job.manifestPath :: roots.map job.bytecodePath

/-- A package without links whose parts lie apart, and a job on it that nothing
stands in the way of. -/
structure Arrangement (job : Job) (world : World) (home : Place)
    (roots : List String) : Prop where
  free : world.tree.IsLinkFree
  legal : world.tree.HasLegalNames
  resolved : world.tree.resolve job.root = .ok home
  directory : world.tree.hasDirectory home = true
  found : bytecodeRoots job.root job.options world.tree = .ok roots
  sourcePlain : job.names.source.HasPlainSegments
  targetPlain : job.names.target.HasPlainSegments
  different : job.names.source ≠ job.names.target
  unclaimed : RootKey.of job.root world.tree ∉ world.held
  apart : (job.parts roots).Pairwise world.tree.LeadApart

/-- An arrangement whose root is not looked up through what lies inside a
bytecode root, so that the root stays in place while package directories
move. -/
structure Setting (job : Job) (world : World) (home : Place)
    (roots : List String) : Prop
    extends Arrangement job world home roots where
  aside : ∀ passed, world.tree.Passes job.root passed → ∀ name ∈ roots,
    ¬ Inside (rootPlace home name) passed

/-- The places that the lookup of the root comes through can be tried one by
one. -/
theorem Arrangement.setting (arrangement : job.Arrangement world home roots)
    (aside : ∀ passed ∈ world.tree.passed job.root, ∀ name ∈ roots,
      ¬ Inside (rootPlace home name) passed) :
    job.Setting world home roots :=
  ⟨arrangement, fun passed passes => aside passed (mem_passed passes)⟩

namespace Setting

theorem leadsTo (setting : job.Setting world home roots) :
    world.tree.LeadsTo job.root home :=
  ⟨setting.free, setting.legal, setting.resolved, setting.directory⟩

theorem isPackage (setting : job.Setting world home roots) :
    world.tree.IsPackage job.root home roots :=
  ⟨setting.leadsTo,
    fun _ member =>
      (setting.leadsTo.of_mem_bytecodeRoots setting.found member).1,
    fun _ member =>
      (setting.leadsTo.of_mem_bytecodeRoots setting.found member).2,
    setting.aside⟩

theorem canStart (setting : job.Setting world home roots) :
    job.CanStart world home roots :=
  ⟨setting.isPackage, setting.found, setting.sourcePlain, setting.targetPlain,
    setting.different, setting.unclaimed⟩

theorem isBase (setting : job.Setting world home roots)
    (member : name ∈ roots) :
    world.tree.IsBase (job.bytecodePath name) (rootPlace home name) :=
  setting.isPackage.isBase member

/-! ### The parts do not meet -/

theorem not_resource_and_manifest (setting : job.Setting world home roots)
    (isResource : job.IsResource world.tree place) :
    world.tree.resolve job.manifestPath ≠ .ok place := by
  intro isManifest
  obtain ⟨directory, resolved, -, names, isPlace, -⟩ := isResource
  have leadApart := (List.pairwise_cons.mp setting.apart).1 job.manifestPath
    List.mem_cons_self
  have apart := leadApart.apart resolved isManifest
  exact apart.1 (isPlace ▸ List.prefix_append directory names)

/-- The resources lie apart from each bytecode root. -/
theorem resource_apart (setting : job.Setting world home roots)
    {directory : Place}
    (resolved : world.tree.resolve job.resourcePath = .ok directory)
    (member : name ∈ roots) : Apart directory (rootPlace home name) := by
  have leadApart := (List.pairwise_cons.mp setting.apart).1
    (job.bytecodePath name)
    (List.mem_cons_of_mem _ (List.mem_map_of_mem member))
  exact leadApart.apart resolved (setting.isBase member).resolved

theorem resource_outside (setting : job.Setting world home roots)
    (isResource : job.IsResource world.tree place) (member : name ∈ roots) :
    ¬ rootPlace home name <+: place := by
  obtain ⟨directory, resolved, -, names, isPlace, -⟩ := isResource
  rw [isPlace]
  exact (setting.resource_apart resolved member).symm.not_prefix_append

theorem manifest_outside (setting : job.Setting world home roots)
    (resolved : world.tree.resolve job.manifestPath = .ok place)
    (member : name ∈ roots) : ¬ rootPlace home name <+: place := by
  have rest := (List.pairwise_cons.mp setting.apart).2
  have leadApart := (List.pairwise_cons.mp rest).1 (job.bytecodePath name)
    (List.mem_map_of_mem member)
  exact (leadApart.apart resolved (setting.isBase member).resolved).2

/-! ### The text stages -/

/-- The text stages revise the resources and the manifest. -/
theorem hasRevised_text (setting : job.Setting world home roots) :
    world.tree.HasRevised
      (File.revised job.options.writeStrategy job.names.inText)
      (fun place => job.IsResource world.tree place ∨
        job.IsManifest world.tree place)
      (job.afterManifest world.tree) :=
  (hasRevised_afterResources job setting.free setting.legal).union
    (hasRevised_afterManifest job setting.free setting.legal)
    fun _ isResource isManifest =>
      setting.not_resource_and_manifest isResource isManifest.1

/-- The text stages leave the bytecode roots as they are. -/
theorem view_afterManifest (setting : job.Setting world home roots)
    (member : name ∈ roots) :
    (job.afterManifest world.tree).view (rootPlace home name) =
      world.tree.view (rootPlace home name) := by
  funext names
  apply setting.hasRevised_text.outside
  rintro (isResource | isManifest)
  · exact setting.resource_outside isResource member (List.prefix_append _ _)
  · exact setting.manifest_outside isManifest.1 member (List.prefix_append _ _)

/-- A bytecode root can be renamed after the text stages just if it could be at
first. -/
theorem isReady_root_iff (setting : job.Setting world home roots)
    (member : name ∈ roots) :
    (job.afterManifest world.tree).IsReady (job.bytecodePath name)
        (rootPlace home name) job.names job.options.writeStrategy ↔
      world.tree.IsReady (job.bytecodePath name) (rootPlace home name) job.names
        job.options.writeStrategy :=
  isReady_congr (setting.isBase member).toLeadsTo
    ((isPackage_afterManifest setting.isPackage).isBase member).toLeadsTo
    setting.hasRevised_text.origin (setting.view_afterManifest member)

/-- The manifest is as it was at first when its stage comes. -/
theorem fileAt_manifest (setting : job.Setting world home roots) :
    (job.afterResources world.tree).fileAt job.manifestPath =
      world.tree.fileAt job.manifestPath :=
  (hasRevised_afterResources job setting.free setting.legal).fileAt_eq
    fun _ isManifest isResource =>
      setting.not_resource_and_manifest isResource isManifest

/-- The files of a bytecode root afterwards. -/
theorem bytecode_file_iff (setting : job.Setting world home roots)
    (ready : job.IsReady world.tree home roots) {after : Tree}
    (isRenamed : (job.afterManifest world.tree).HasRenamed job.names
      job.options.writeStrategy home roots after)
    (member : name ∈ roots) {new : List Name} {file : File} :
    after.node? (rootPlace home name ++ new) = some (.file file) ↔
      ∃ old before, new = landing job.names.source.segments
          job.names.target.segments old ∧
        world.tree.node? (rootPlace home name ++ old) = some (.file before) ∧
        file = before.revised job.options.writeStrategy
          job.names.inBytecode := by
  have same := setting.view_afterManifest member
  have renames := isRenamed.inside name member
  rw [same] at renames
  exact renames_file_iff renames
    ((setting.isReady_root_iff member).mp (ready.bytecode name member)).movable

end Setting

end Job

end PackageRename
