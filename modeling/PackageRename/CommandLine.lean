import PackageRename.Worker

/-!
# The command line

Renames the package of a decoded directory.  The source package is the one that
the directory's manifest declares, unless it is given.
-/

namespace PackageRename.CommandLine

/-- What the arguments ask for. -/
inductive Request where
  | usage
  /-- No job can be built for the directory. -/
  | aborted (error : FileError)
  | rename (directory : String) (job : Job)

def Request.ofArguments (arguments : List String) (tree : Tree) : Request :=
  match arguments with
  | directory :: target :: source :: _ =>
      .rename directory
        (.of (Path.ofString directory) source target .standard)
  | [directory, target] =>
      match Job.fromManifest (Path.ofString directory) target .standard
          tree with
      | .ok job => .rename directory job
      | .error error => .aborted error
  | _ => .usage

structure Output where
  code : UInt32
  stdout : String
  stderr : String

def lines (texts : List String) : String :=
  String.join (texts.map (· ++ "\n"))

/-- What is printed about an event. -/
def eventLines : JobEvent → List String
  | .started => []
  | .progress event => [s!"{event.description} {event.path.display}"]
  | .finished result =>
      (result.warnings.map fun warning => s!"warning: {warning.display}") ++
        [result.display]

/-- Whether the last result among the events is a success. -/
def succeeds (events : List JobEvent) : Bool :=
  events.foldl (fun success event =>
    match event with
    | .finished result => result.success
    | _ => success) false

/-- Start a job and print what it reports. -/
def follow (directory : String) (job : Job) (world : World) :
    Output × World :=
  let (worker, reached) := Worker.start job false world
  let events := worker.receiveAll.1
  let success := succeeds events
  let printed :=
    [s!"Renaming {job.names.source.name} to {job.names.target.name}"] ++
      events.flatMap eventLines ++
      if success then [s!"All done: package renamed in {directory}"] else []
  (⟨if success then 0 else 2, lines printed, ""⟩, reached)

def answer (program : String) (request : Request) (world : World) :
    Output × World :=
  match request with
  | .usage =>
      let line := s!"Usage: {program} <decoded-dir> <new-package> [old-package]"
      (⟨1, "", lines [line]⟩, world)
  | .aborted error =>
      (⟨1, "", lines [s!"Aborted due to error: {error.display}"]⟩, world)
  | .rename directory job => follow directory job world

/-- Run the program on its arguments. -/
def run (program : String) (arguments : List String) (world : World) :
    Output × World :=
  answer program (.ofArguments arguments world.tree) world

end PackageRename.CommandLine
