import PackageRename.CommandLine
import PackageRename.Job.Replay
import PackageRename.Tree.Edit

/-!
# Directories on disk

A directory is loaded into a tree, and what a job has done to the tree is then
done on disk.  The events of a job replay it: each stands for the effect on one
file or one package directory.
-/

namespace PackageRename.Disk

/-- The path of a place, from the top. -/
def pathOf (place : Place) : Path :=
  Path.ofPieces ([] :: place)

def placeOf (text : String) : Place :=
  (Path.ofString text).pieces.filter (· ≠ [])

/-- The mode under which a file is loaded: read-only if it cannot be opened for
writing. -/
def modeOf (path : String) : IO Nat := do
  try
    let _ ← IO.FS.Handle.mk path .append
    return File.ownerMode
  catch _ => return 0o444

def loadFile (tree : Tree) (path : String) : IO Tree := do
  let contents ← IO.FS.readBinFile path
  let mode ← modeOf path
  return tree.put (Path.ofString path) (.file contents.data.toList mode)

/-- Load what lies at and below an absolute path.  The targets of links are
loaded where they are; a link without a target leads nowhere. -/
partial def load (tree : Tree) (path : String) : IO Tree := do
  let here ← IO.FS.realPath path
  match (← here.metadata).type with
  | .dir =>
      let mut loaded := tree.put (Path.ofString here.toString) .directory
      for entry in ← here.readDir do
        let inner := entry.path.toString
        match (← entry.path.symlinkMetadata).type with
        | .symlink =>
            if ← entry.path.pathExists then
              let target := (← IO.FS.realPath inner).toString
              loaded := loaded.put (Path.ofString inner)
                (.link (Path.ofString target))
              if (loaded.node? (placeOf target)).isNone then
                loaded ← load loaded target
            else
              loaded := loaded.put (Path.ofString inner) (.link ⟨[]⟩)
        | _ => loaded ← load loaded inner
      return loaded
  | .file => loadFile tree here.toString
  | _ => return tree

/-- A tree whose paths start in the working directory, with what lies at one
path in it. -/
def loadAt (path : String) : IO Tree := do
  let current ← IO.currentDir
  let start := (Tree.empty (placeOf current.toString)).put
    (Path.ofString current.toString) .directory
  let directory := (Path.ofString current.toString).join (Path.ofString path)
  try load start directory.display
  catch _ => return start

/-- Write the files whose contents differ. -/
def writeChanged (before after : Tree) : IO Unit :=
  after.nodes.forM fun (place, node) => do
    if let .file file := node then
      if let some (.file present) := before.node? place then
        if file.contents ≠ present.contents then
          IO.FS.writeBinFile (pathOf place).display
            ⟨file.contents.toArray⟩

/-- Move a package directory by way of the staging name, and remove the
directories that the move has left empty. -/
def moveDirectory (base : Path) (names : Renaming) (after : Tree) :
    IO Unit := do
  let old := names.source.directoryIn base
  let new := names.target.directoryIn base
  let staging := base.join (Path.ofString stagingName)
  IO.FS.rename old.display staging.display
  let emptied := old.ancestors.takeWhile fun above => !after.isDirectory above
  emptied.forM fun above => IO.FS.removeDir above.display
  if let some parent := new.parent? then
    if parent.bytes ≠ [] then
      IO.FS.createDirAll parent.display
  IO.FS.rename staging.display new.display

/-- Do on disk what one event stands for, and give the tree after it. -/
def replayEvent (job : Job) (tree : Tree) (event : ProgressEvent) :
    IO Tree := do
  let after := job.replayEvent tree event
  if event.stage = .directoryStructure then
    let base := job.root.join event.path
    let moved := movePackage base job.names.source job.names.target tree
    if let .ok true := moved.answer then
      moveDirectory base job.names after
  else
    writeChanged tree after
  return after

/-- Do on disk what a job does to a tree. -/
def replay (job : Job) (tree : Tree) : IO Unit := do
  let (report, _) := job.run .passive false (.ofTree tree)
  let _ ← report.events.foldlM (replayEvent job) tree

end PackageRename.Disk
