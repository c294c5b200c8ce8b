import PackageRename.Path

/-!
# What a rename reports

Progress events, outcomes, warnings, counters, reasons for failure and the
final result, with the texts in which they are shown.
-/

namespace PackageRename

inductive Stage where
  | resources
  | manifest
  | bytecode
  | directoryStructure
deriving DecidableEq

def Stage.description : Stage → String
  | resources => "Updating resource references..."
  | manifest => "Updating AndroidManifest.xml..."
  | bytecode => "Updating Smali references..."
  | directoryStructure => "Updating directory structure..."

/-- Reported before a file or directory is processed.  The path is relative to
the package root. -/
structure ProgressEvent where
  stage : Stage
  description : String
  path : Path
deriving DecidableEq

def ProgressEvent.of (stage : Stage) (path : Path) : ProgressEvent :=
  ⟨stage, stage.description, path⟩

/-- Whether updating one file changed its contents. -/
inductive Outcome where
  | changed (replacements : Nat)
  | unchanged
deriving DecidableEq

def Outcome.isChanged : Outcome → Bool
  | changed _ => true
  | unchanged => false

/-- A failure that did not stop the job. -/
structure Warning where
  path : Path
  message : String
deriving DecidableEq

def Warning.display (warning : Warning) : String :=
  s!"{warning.path.display}: {warning.message}"

structure Stats where
  filesVisited : Nat
  filesChanged : Nat
  replacements : Nat
  directoriesMoved : Nat
deriving DecidableEq

namespace Stats

def zero : Stats := ⟨0, 0, 0, 0⟩

def visit (stats : Stats) : Stats :=
  { stats with filesVisited := stats.filesVisited + 1 }

def record (stats : Stats) : Outcome → Stats
  | .changed replacements =>
      { stats with
        filesChanged := stats.filesChanged + 1
        replacements := stats.replacements + replacements }
  | .unchanged => stats

def moved (stats : Stats) : Stats :=
  { stats with directoriesMoved := stats.directoriesMoved + 1 }

end Stats

inductive FailureReason where
  | invalidJob (message : String)
  | busy (path : Path)
  | packageRoot (path : Path) (message : String)
  | manifest (path : Path) (message : String)
  | bytecodeFile (path : Path) (message : String)
  | directoryMove (source target : Path) (message : String)
  /-- The worker could not be started or stopped without a result. -/
  | worker (message : String)
  | cancelled
deriving DecidableEq

def FailureReason.display : FailureReason → String
  | invalidJob message => s!"invalid clone job: {message}"
  | busy path => s!"a clone job is already running on {path.display}"
  | packageRoot path message =>
      s!"unable to read package root {path.display}: {message}"
  | manifest path message =>
      s!"unable to update manifest {path.display}: {message}"
  | bytecodeFile path message =>
      s!"unable to update smali file {path.display}: {message}"
  | directoryMove source target message =>
      s!"unable to move {source.display} to {target.display}: {message}"
  | worker message => s!"clone worker failed: {message}"
  | cancelled => "clone job was cancelled"

/-- The final answer of a job. -/
structure JobResult where
  success : Bool
  failure : Option FailureReason
  warnings : List Warning
  stats : Stats
deriving DecidableEq

namespace JobResult

def succeeded (warnings : List Warning) (stats : Stats) : JobResult where
  success := true
  failure := none
  warnings
  stats

def failed (reason : FailureReason) (warnings : List Warning)
    (stats : Stats) : JobResult where
  success := false
  failure := some reason
  warnings
  stats

def isCancelled (result : JobResult) : Bool :=
  result.failure = some .cancelled

def display (result : JobResult) : String :=
  match result.failure with
  | none =>
      s!"clone succeeded: {result.stats.filesChanged} of " ++
        s!"{result.stats.filesVisited} files changed, " ++
        s!"{result.stats.directoriesMoved} directories moved, " ++
        s!"{result.warnings.length} warnings"
  | some reason => s!"clone failed: {reason.display}"

end JobResult

end PackageRename
