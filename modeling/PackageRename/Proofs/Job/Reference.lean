import PackageRename.Proofs.Job.Setting

/-!
# The outcome of a job

What a job comes to can be read off the tree before its first stage: whether it
succeeds, and which files there are afterwards, each with the file that it has
been.
-/

namespace PackageRename

namespace Tree

variable {tree : Tree} {base : Path} {place : Place} {names : Renaming}

/-- Whether a bytecode root is ready shows in what its files, its directories
and the move of its package directory say one by one. -/
theorem IsBase.isReady_iff (isBase : tree.IsBase base place)
    (strategy : WriteStrategy)
    (sourcePlain : names.source.HasPlainSegments)
    (targetPlain : names.target.HasPlainSegments)
    (different : names.source ≠ names.target) :
    tree.IsReady base place names strategy ↔
      (∀ inner file, tree.node? (place ++ inner) = some (.file file) →
        (updateFile (base.below inner) names.inBytecode strategy
          tree).answer.isOk = true) ∧
      (∀ inner, tree.hasDirectory (place ++ inner) = true →
        (base.below inner).bytes.length ≤ pathLimit) ∧
      (PackageRename.movePackage base names.source names.target
        tree).answer.isOk = true := by
  have isOld := Identifier.directoryIn_eq_below sourcePlain base
  constructor
  · intro ready
    refine ⟨fun inner file isFile => ?_, ready.sound.directories, ?_⟩
    · obtain ⟨fits, updates⟩ := ready.sound.files inner file isFile
      exact (updateFile_isOk_iff (isBase.toLeadsTo.fileAt isFile fits)).mpr
        updates
    · cases isDirectory : tree.isDirectory
          (names.source.directoryIn base) with
      | false =>
          rw [movePackage_of_missing isDirectory]
          rfl
      | true =>
          have directory := isDirectory
          rw [isOld, isBase.isDirectory sourcePlain] at directory
          obtain ⟨final, moved, -⟩ := isBase.isGround.movePackage sourcePlain
            targetPlain different isDirectory (ready.movable directory.2)
          rw [moved]
          rfl
  · rintro ⟨files, directories, moves⟩
    refine ⟨⟨fun inner file isFile => ?_, directories⟩, fun directory => ?_⟩
    · have updates := files inner file isFile
      by_cases fits : (base.below inner).bytes.length ≤ pathLimit
      · exact ⟨fits, (updateFile_isOk_iff
          (isBase.toLeadsTo.fileAt isFile fits)).mp updates⟩
      · have plain := isBase.plain_names (by rw [isFile]; rfl)
        have missing := isBase.toLeadsTo.fileAt_of_long plain
          (Nat.lt_of_not_le fits)
        rw [updateFile_of_missing missing] at updates
        cases updates
    · have isDirectory : tree.isDirectory (names.source.directoryIn base) =
          true := by
        rw [isOld, isBase.isDirectory sourcePlain]
        exact ⟨directories _ directory, directory⟩
      cases answered : (PackageRename.movePackage base names.source
          names.target tree).answer with
      | error error =>
          rw [answered] at moves
          cases moves
      | ok moved =>
          exact isBase.isGround.canMove sourcePlain targetPlain different
            isDirectory answered

end Tree

namespace Job

variable {job : Job} {world : World} {home : Place} {roots : List String}
variable {name : String}

open PackageRename.Tree

/-! ### Whether a job succeeds -/

/-- What has to succeed on the tree before the first stage: to update the
manifest and each file of the bytecode roots, and to move each package
directory. -/
structure IsFeasible (job : Job) (tree : Tree) (home : Place)
    (roots : List String) : Prop where
  manifest : (updateFile job.manifestPath job.names.inText
    job.options.writeStrategy tree).answer.isOk = true
  files : ∀ name ∈ roots, ∀ inner file,
    tree.node? (rootPlace home name ++ inner) = some (.file file) →
    (updateFile ((job.bytecodePath name).below inner) job.names.inBytecode
      job.options.writeStrategy tree).answer.isOk = true
  moves : ∀ name ∈ roots, (movePackage (job.bytecodePath name)
    job.names.source job.names.target tree).answer.isOk = true

/-- All directories of the bytecode roots have paths that can be followed. -/
def IsListable (job : Job) (tree : Tree) (home : Place)
    (roots : List String) : Prop :=
  ∀ name ∈ roots, ∀ inner,
    tree.hasDirectory (rootPlace home name ++ inner) = true →
    ((job.bytecodePath name).below inner).bytes.length ≤ pathLimit

theorem Setting.rootReady_iff (setting : job.Setting world home roots)
    (member : name ∈ roots) :
    (job.afterManifest world.tree).IsReady (job.bytecodePath name)
        (rootPlace home name) job.names job.options.writeStrategy ↔
      (∀ inner file,
        world.tree.node? (rootPlace home name ++ inner) = some (.file file) →
        (updateFile ((job.bytecodePath name).below inner) job.names.inBytecode
          job.options.writeStrategy world.tree).answer.isOk = true) ∧
      (∀ inner, world.tree.hasDirectory (rootPlace home name ++ inner) = true →
        ((job.bytecodePath name).below inner).bytes.length ≤ pathLimit) ∧
      (movePackage (job.bytecodePath name) job.names.source job.names.target
        world.tree).answer.isOk = true :=
  (setting.isReady_root_iff member).trans
    ((setting.isBase member).isReady_iff job.options.writeStrategy
      setting.sourcePlain setting.targetPlain setting.different)

theorem Setting.isReady_iff (setting : job.Setting world home roots) :
    job.IsReady world.tree home roots ↔
      job.IsFeasible world.tree home roots ∧
        job.IsListable world.tree home roots := by
  have revised :=
    hasRevised_afterResources job setting.free setting.legal
  have manifestSame := updateFile_isOk_congr revised.layout
    setting.fileAt_manifest job.names.inText job.options.writeStrategy
  constructor
  · rintro ⟨manifest, bytecode⟩
    have each := fun name member =>
      (setting.rootReady_iff member).mp (bytecode name member)
    exact ⟨⟨manifestSame ▸ manifest, fun name member => (each name member).1,
      fun name member => (each name member).2.2⟩,
      fun name member => (each name member).2.1⟩
  · rintro ⟨⟨manifest, files, moves⟩, listable⟩
    exact ⟨manifestSame.trans manifest, fun name member =>
      (setting.rootReady_iff member).mpr
        ⟨files name member, listable name member, moves name member⟩⟩

/-! ### What becomes of each file -/

/-- The file at one place becomes a file at another: resources and the manifest
change their text, bytecode also its place. -/
inductive Becomes (job : Job) (tree : Tree) (home : Place)
    (roots : List String) : Place → File → Place → File → Prop
  | resource {place : Place} {file : File}
      (isResource : job.IsResource tree place) :
      Becomes job tree home roots place file place
        (file.revised job.options.writeStrategy job.names.inText)
  | manifest {place : Place} {file : File}
      (isManifest : job.IsManifest tree place) :
      Becomes job tree home roots place file place
        (file.revised job.options.writeStrategy job.names.inText)
  | bytecode {name : String} {inner : List Name} {file : File}
      (member : name ∈ roots) :
      Becomes job tree home roots (rootPlace home name ++ inner) file
        (rootPlace home name ++ landing job.names.source.segments
          job.names.target.segments inner)
        (file.revised job.options.writeStrategy job.names.inBytecode)
  | other {place : Place} {file : File}
      (noResource : ¬ job.IsResource tree place)
      (noManifest : ¬ job.IsManifest tree place)
      (noBytecode : ∀ name ∈ roots, ¬ rootPlace home name <+: place) :
      Becomes job tree home roots place file place file

section Renamed

variable (setting : job.Setting world home roots)
variable (ready : job.IsReady world.tree home roots) {after : Tree}
variable (isRenamed : (job.afterManifest world.tree).HasRenamed job.names
  job.options.writeStrategy home roots after)

include setting ready isRenamed

/-- The files that the stages leave. -/
theorem file_iff {place : Place} {file : File} :
    after.node? place = some (.file file) ↔
      ∃ old before, world.tree.node? old = some (.file before) ∧
        job.Becomes world.tree home roots old before place file := by
  have revised := setting.hasRevised_text
  constructor
  · intro isFile
    by_cases inBytecode : ∃ name ∈ roots, rootPlace home name <+: place
    · obtain ⟨name, member, new, isPlace⟩ := inBytecode
      subst isPlace
      obtain ⟨old, before, isNew, wasFile, isChanged⟩ :=
        (setting.bytecode_file_iff ready isRenamed member).mp isFile
      refine ⟨_, before, wasFile, ?_⟩
      rw [isNew, isChanged]
      exact .bytecode member
    · have noBytecode : ∀ name ∈ roots, ¬ rootPlace home name <+: place :=
        fun name member below => inBytecode ⟨name, member, below⟩
      rw [isRenamed.outside place noBytecode] at isFile
      by_cases isText : job.IsResource world.tree place ∨
          job.IsManifest world.tree place
      · rw [revised.inside place isText] at isFile
        obtain ⟨before, wasFile, isChanged⟩ := mapFile_eq_file.mp isFile
        refine ⟨place, before, wasFile, ?_⟩
        rw [isChanged]
        exact isText.elim .resource .manifest
      · rw [revised.outside place isText] at isFile
        exact ⟨place, file, isFile, .other (isText ∘ .inl) (isText ∘ .inr)
          noBytecode⟩
  · rintro ⟨old, before, wasFile, becomes⟩
    cases becomes with
    | resource isResource =>
        rw [isRenamed.outside place fun _ => setting.resource_outside isResource,
          revised.inside place (.inl isResource)]
        exact mapFile_eq_file.mpr ⟨before, wasFile, rfl⟩
    | manifest isManifest =>
        rw [isRenamed.outside place fun _ => setting.manifest_outside isManifest.1,
          revised.inside place (.inr isManifest)]
        exact mapFile_eq_file.mpr ⟨before, wasFile, rfl⟩
    | bytecode member =>
        exact (setting.bytecode_file_iff ready isRenamed member).mpr
          ⟨_, before, rfl, wasFile, rfl⟩
    | other noResource noManifest noBytecode =>
        rw [isRenamed.outside place noBytecode,
          revised.outside place (not_or.mpr ⟨noResource, noManifest⟩)]
        exact wasFile

end Renamed

/-- A job succeeds if and only if it is feasible and its bytecode roots can be
listed, and a job that succeeds leaves exactly what becomes of the files. -/
theorem run_eq_reference (setting : job.Setting world home roots) :
    ((job.run .passive false world).1.result.success = true ↔
      job.IsFeasible world.tree home roots ∧
        job.IsListable world.tree home roots) ∧
    ((job.run .passive false world).1.result.success = true →
      ∀ place file,
        (job.run .passive false world).2.tree.node? place =
            some (.file file) ↔
          ∃ old before, world.tree.node? old = some (.file before) ∧
            job.Becomes world.tree home roots old before place file) := by
  have can := setting.canStart
  have success_iff_ready :
      (job.run .passive false world).1.result.success = true ↔
        job.IsReady world.tree home roots := by
    constructor
    · intro success
      by_contra notReady
      have failed := can.not_success_of_not_ready notReady
      rw [success] at failed
      cases failed
    · intro ready
      obtain ⟨after, succeeds, -⟩ := can.succeeds_of_ready ready
      exact succeeds.success
  refine ⟨success_iff_ready.trans setting.isReady_iff,
    fun success place file => ?_⟩
  have ready := success_iff_ready.mp success
  obtain ⟨after, succeeds, isRenamed, -⟩ :=
    can.succeeds_of_ready ready
  rw [succeeds.tree]
  exact file_iff setting ready isRenamed

/-- Whether a job is feasible shows in the list of the nodes. -/
theorem isFeasible_of_nodes {tree : Tree}
    (manifest : (updateFile job.manifestPath job.names.inText
      job.options.writeStrategy tree).answer.isOk = true)
    (files : ∀ name ∈ roots, ∀ entry ∈ tree.nodes, entry.2.kind = .file →
      rootPlace home name <+: entry.1 →
      (updateFile ((job.bytecodePath name).below
        (entry.1.drop (rootPlace home name).length)) job.names.inBytecode
        job.options.writeStrategy tree).answer.isOk = true)
    (moves : ∀ name ∈ roots, (movePackage (job.bytecodePath name)
      job.names.source job.names.target tree).answer.isOk = true) :
    job.IsFeasible tree home roots := by
  refine ⟨manifest, fun name member inner file isFile => ?_, moves⟩
  have nonempty : rootPlace home name ++ inner ≠ [] := by simp [rootPlace]
  have updates := files name member _ (mem_nodes isFile nonempty) rfl
    (List.prefix_append _ _)
  rwa [List.drop_left] at updates

/-- A package with one class, and the job that moves it into its own
subpackage. -/
def nestingTree : Tree :=
  .holding [("p/AndroidManifest.xml", "<manifest package=\"com.app\"/>"),
    ("p/res/values.xml", "com.app"),
    ("p/smali/com/app/Main.smali", ".class public Lcom/app/Main;\n")]

def nestingJob : Job :=
  .of (Path.ofString "p") "com.app" "com.app.clone" .standard

theorem nesting_setting :
    nestingJob.Setting (World.ofTree nestingTree) [Utf8.encode "p"]
      ["smali"] := by
  refine Arrangement.setting
    ⟨isLinkFree_of_nodes ?_, hasLegalNames_of_nodes ?_, ?_, ?_, ?_, ?_, ?_, ?_,
      List.not_mem_nil, ?_⟩ ?_ <;>
    decide +kernel

/-- The class of the package has become one of the subpackage. -/
theorem run_eq_reference_nesting :
    nestingJob.IsFeasible nestingTree [Utf8.encode "p"] ["smali"] ∧
      ∃ old before, nestingTree.node? old = some (.file before) ∧
        nestingJob.Becomes nestingTree [Utf8.encode "p"] ["smali"] old before
          (["p", "smali", "com", "app", "clone", "Main.smali"].map Utf8.encode)
          ((File.fresh (Utf8.encode ".class public Lcom/app/clone/Main;\n")
            File.ownerMode).rewritten .atomic
            (Utf8.encode ".class public Lcom/app/clone/Main;\n")) := by
  have reference := run_eq_reference nesting_setting
  have success : (nestingJob.run .passive false
      (World.ofTree nestingTree)).1.result.success = true := by
    decide +kernel
  exact ⟨(reference.1.mp success).1,
    (reference.2 success _ _).mp (by decide +kernel)⟩

/-- A root that is looked up through a package directory, which moves before the
second bytecode root is renamed. -/
def detourTree : Tree :=
  .holding [("p/AndroidManifest.xml", ""), ("p/smali/a/X.smali", ""),
    ("p/smali_classes2/a/Y.smali", "")]

def detourJob : Job :=
  .of (Path.ofString "p/smali/a/../..") "a" "b" .standard

theorem detour_arrangement :
    detourJob.Arrangement (World.ofTree detourTree) [Utf8.encode "p"]
      ["smali", "smali_classes2"] := by
  refine ⟨isLinkFree_of_nodes ?_, hasLegalNames_of_nodes ?_, ?_, ?_, ?_, ?_, ?_,
    ?_, List.not_mem_nil, ?_⟩ <;>
    decide +kernel

/-- A package far away from the top, with a resource in a directory whose path
leaves no room for that of a temporary file. -/
def remoteTree : Tree :=
  Tree.farTree.withFiles [("p/m", ""), ("p/q/abcdefghijklmnop/v", "a")]

def remoteJob : Job :=
  .of (Path.ofString "p") "a" "b" ⟨"q", "m", "smali", .atomic⟩

def remoteResource : Place :=
  Tree.farPlace ++ ["p", "q", "abcdefghijklmnop", "v"].map Utf8.encode

/-- That a job is feasible is not enough where the root may lead elsewhere in the
middle of the job, and a resource that can be read and written is not always
changed. -/
theorem feasible_run_fails_on_detour :
    (detourJob.Arrangement (World.ofTree detourTree) [Utf8.encode "p"]
        ["smali", "smali_classes2"] ∧
      detourJob.IsFeasible detourTree [Utf8.encode "p"]
        ["smali", "smali_classes2"] ∧
      (detourJob.run .passive false
        (World.ofTree detourTree)).1.result.success = false) ∧
    (remoteJob.Arrangement (World.ofTree remoteTree)
        (Tree.farPlace ++ [Utf8.encode "p"]) [] ∧
      (remoteJob.run .passive false
        (World.ofTree remoteTree)).1.result.success = true ∧
      remoteTree.node? remoteResource =
        some (.file (File.fresh (Utf8.encode "a") File.ownerMode)) ∧
      (remoteJob.run .passive false
        (World.ofTree remoteTree)).2.tree.node? remoteResource =
          some (.file (File.fresh (Utf8.encode "a") File.ownerMode))) := by
  refine ⟨⟨detour_arrangement, isFeasible_of_nodes ?_ ?_ ?_, ?_⟩,
    ⟨isLinkFree_of_nodes ?_, hasLegalNames_of_nodes ?_, ?_, ?_, ?_, ?_, ?_, ?_,
      List.not_mem_nil, ?_⟩, ?_, ?_, ?_⟩ <;>
    decide +kernel

end Job

end PackageRename
