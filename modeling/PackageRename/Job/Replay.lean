import PackageRename.Job.Run

/-!
# Replaying a job

Each event of a job stands for one effect on the tree: the substitutions in one
file, or the move of one package directory.
-/

namespace PackageRename.Job

/-- The tree after what one event stands for. -/
def replayEvent (job : Job) (tree : Tree) (event : ProgressEvent) : Tree :=
  let path := job.root.join event.path
  let strategy := job.options.writeStrategy
  match event.stage with
  | .resources => (updateFile path job.names.inText strategy tree).tree
  | .manifest => (updateFile path job.names.inText strategy tree).tree
  | .bytecode => (updateFile path job.names.inBytecode strategy tree).tree
  | .directoryStructure =>
      (movePackage path job.names.source job.names.target tree).tree

def replay (job : Job) (tree : Tree) (events : List ProgressEvent) : Tree :=
  events.foldl job.replayEvent tree

end PackageRename.Job
