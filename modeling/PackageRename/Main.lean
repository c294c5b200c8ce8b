import PackageRename.Disk

/-!
# The program

Loads the directory that the command line names, runs the job, and brings the
directory on disk to the same state.
-/

open PackageRename

def main (arguments : List String) : IO UInt32 := do
  let tree ← Disk.loadAt (arguments.headD "")
  let request := CommandLine.Request.ofArguments arguments tree
  let (output, _) := CommandLine.answer "apkclone" request (.ofTree tree)
  if let .rename _ job := request then
    Disk.replay job tree
  IO.print output.stdout
  IO.eprint output.stderr
  return output.code
