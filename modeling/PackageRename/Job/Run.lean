import PackageRename.Job.Stages
import PackageRename.Manifest

/-!
# Running a job

A job renames one package in one root.  It claims the root while it runs, so
that no two jobs work on the same directory, and finds the bytecode roots once,
before anything moves.
-/

namespace PackageRename

/-- A rename of the package in a root. -/
structure Job where
  root : Path
  names : Renaming
  options : Options
deriving DecidableEq

/-- The package that a manifest file declares, if any. -/
def readPackage (manifest : Path) (tree : Tree) :
    Except FileError (Option Identifier) :=
  match tree.fileAt manifest with
  | .error fault => .error (.io manifest fault)
  | .ok (_, file) =>
      match Utf8.decode? file.contents with
      | none => .error (.io manifest .notText)
      | some xml => .ok ((Manifest.declaredPackage xml).map Identifier.mk)

namespace Job

def of (root : Path) (source target : String) (options : Options) : Job where
  root
  names := ⟨⟨source⟩, ⟨target⟩⟩
  options

/-- The job that renames whatever package the root's manifest declares. -/
def fromManifest (root : Path) (target : String) (options : Options)
    (tree : Tree) : Except FileError Job := do
  let manifest := root.join (Path.ofString options.manifestFile)
  match ← readPackage manifest tree with
  | none => throw (.io manifest .noPackage)
  | some source => return ⟨root, ⟨source, ⟨target⟩⟩, options⟩

/-- A report without events. -/
def bareReport (result : JobResult) : Report := ⟨result, [], []⟩

/-- Fail before the first stage. -/
def refuse (reason : FailureReason) (world : World) : Report × World :=
  (bareReport (.failed reason [] .zero),
    world.note .error reason.display)

def context (job : Job) (observer : Observer) : JobContext where
  root := job.root
  options := job.options
  observer

/-- Run the stages over bytecode roots already found. -/
def runStages (job : Job) (observer : Observer) (cancelled : Bool)
    (roots : List String) (world : World) : Report × World :=
  let stages :=
    JobM.updatePackage (job.context observer) job.names roots
  let (ending, state) := stages.run (.initial world cancelled)
  match ending with
  | .ok () =>
      let result := JobResult.succeeded state.warnings state.stats
      (⟨result, state.events, state.nested⟩,
        state.world.note .info result.display)
  | .error reason =>
      let result := JobResult.failed reason state.warnings state.stats
      (⟨result, state.events, state.nested⟩,
        state.world.note .error
          s!"Clone of {job.root.display} failed: {reason.display}")

/-- Run a job whose root is claimed. -/
def runClaimed (job : Job) (observer : Observer) (cancelled : Bool)
    (world : World) : Report × World :=
  match bytecodeRoots job.root job.options world.tree with
  | .error fault => refuse (.packageRoot job.root fault.message) world
  | .ok roots => job.runStages observer cancelled roots world

/-- The failure of a job without both names. -/
def unnamed : FailureReason :=
  .invalidJob "source and target package names must not be empty"

/-- Run a job to its end.  `cancelled` tells whether it is asked to stop from
the start. -/
def run (job : Job) (observer : Observer) (cancelled : Bool)
    (world : World) : Report × World :=
  let source := job.names.source
  let target := job.names.target
  let world := world.note .info
    s!"Cloning {job.root.display} from {source.name} to {target.name}"
  if source.isEmpty || target.isEmpty then
    refuse unnamed world
  else if source = target then
    (bareReport (.succeeded [] .zero),
      world.note .info
        "Source and target package are the same, nothing to do")
  else
    let key := RootKey.of job.root world.tree
    match world.acquire? key with
    | none => refuse (.busy job.root) world
    | some claimed =>
        let (report, reached) := job.runClaimed observer cancelled claimed
        (report, reached.release key)

end Job

/-- Rename a package with the standard options, unobserved. -/
def renamePackage (root : Path) (source target : String) (world : World) :
    JobResult × World :=
  let (report, reached) :=
    (Job.of root source target .standard).run .passive false world
  (report.result, reached)

end PackageRename
