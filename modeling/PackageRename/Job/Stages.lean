import PackageRename.Job.State
import PackageRename.Relocation
import PackageRename.Tree.Walk

/-!
# The stages of a job

Resources come first and are done as well as can be: a file that fails is
warned about.  The manifest and the bytecode follow, and any failure there is
the job's.  In a bytecode root the contents are updated before the package
directory moves, because the move changes the paths being walked.
-/

namespace PackageRename

/-- The two names of a rename. -/
structure Renaming where
  source : Identifier
  target : Identifier
deriving DecidableEq

namespace Renaming

/-- Resources and the manifest use the dotted form only. -/
def inText (names : Renaming) : List Substitution :=
  names.source.substitutions names.target .dottedOnly

def inBytecode (names : Renaming) : List Substitution :=
  names.source.substitutions names.target .both

end Renaming

namespace JobM

/-! ### Resources -/

def skipResource (context : JobContext) (error : FileError) : JobM Unit := do
  note .warn s!"Skipping resource: {error.display}"
  warn (error.subject.relativeTo context.root) error.message

def visitResource (context : JobContext) (names : Renaming)
    (visited : Tree.Visited) : JobM Unit := do
  checkCancelled
  match visited with
  | .directory _ => return
  | .failure path fault => skipResource context (.io path fault)
  | .file path =>
      emit context .resources path
      updateStats Stats.visit
      let strategy := context.options.writeStrategy
      match ← perform (updateFile path names.inText strategy) with
      | .ok outcome => updateStats (·.record outcome)
      | .error error => skipResource context error

def updateResources (context : JobContext) (names : Renaming)
    (directory : Path) : JobM Unit := do
  if (← tree).isDirectory directory then
    Tree.walk tree (visitResource context names) directory
  else
    note .debug s!"No resource directory at {directory.display}, skipping"

/-! ### Manifest -/

def updateManifest (context : JobContext) (names : Renaming)
    (manifest : Path) : JobM Outcome := do
  checkCancelled
  emit context .manifest manifest
  updateStats Stats.visit
  let strategy := context.options.writeStrategy
  match ← perform (updateFile manifest names.inText strategy) with
  | .ok outcome =>
      updateStats (·.record outcome)
      if !outcome.isChanged then
        note .info s!"{manifest.display} has no references to update"
      return outcome
  | .error error =>
      note .error error.display
      throw (.manifest (manifest.relativeTo context.root) error.message)

/-! ### Bytecode -/

def failBytecodeFile (context : JobContext) (error : FileError) :
    JobM Unit := do
  note .error error.display
  throw (.bytecodeFile (error.subject.relativeTo context.root) error.message)

def visitBytecode (context : JobContext) (names : Renaming)
    (visited : Tree.Visited) : JobM Unit := do
  checkCancelled
  match visited with
  | .directory _ => return
  | .failure path fault => failBytecodeFile context (.io path fault)
  | .file path =>
      emit context .bytecode path
      updateStats Stats.visit
      let strategy := context.options.writeStrategy
      match ← perform (updateFile path names.inBytecode strategy) with
      | .ok outcome => updateStats (·.record outcome)
      | .error error => failBytecodeFile context error

/-- Move the package directory of one bytecode root. -/
def relocate (context : JobContext) (names : Renaming) (name : String)
    (base : Path) : JobM Unit := do
  checkCancelled
  emit context .directoryStructure base
  let source := names.source
  let target := names.target
  match ← perform (movePackage base source target) with
  | .ok true =>
      note .info s!"{name}: moved {source.path} to {target.path}"
      updateStats Stats.moved
  | .ok false =>
      note .debug s!"{name}: no {source.path} directory, nothing to move"
  | .error error =>
      note .error error.display
      let shown := Path.ofString name
      throw (.directoryMove (source.directoryIn shown)
        (target.directoryIn shown) error.message)

def updateBytecodeRoot (context : JobContext) (names : Renaming)
    (name : String) : JobM Unit := do
  let base := context.root.join (Path.ofString name)
  Tree.walk tree (visitBytecode context names) base
  relocate context names name base

/-- Process bytecode roots in order.  They are names in the package root. -/
def updateBytecode (context : JobContext) (names : Renaming)
    (roots : List String) : JobM Unit :=
  roots.forM (updateBytecodeRoot context names)

/-! ### All stages -/

def resourceDirectory (context : JobContext) : Path :=
  context.root.join (Path.ofString context.options.resourceDirectory)

def manifestFile (context : JobContext) : Path :=
  context.root.join (Path.ofString context.options.manifestFile)

def updatePackage (context : JobContext) (names : Renaming)
    (roots : List String) : JobM Unit := do
  updateResources context names (resourceDirectory context)
  let _ ← updateManifest context names (manifestFile context)
  updateBytecode context names roots

end JobM

end PackageRename
