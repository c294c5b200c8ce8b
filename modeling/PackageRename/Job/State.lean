import PackageRename.FileUpdate
import PackageRename.Job.World

/-!
# The state of a running job

A job reports each file or directory before it processes it.  Its observer is
shown the events so far and the world, may change the world, run other jobs in
it, and ask the job to stop.  The request is honoured at the next boundary
between files or directories.
-/

namespace PackageRename

/-- What a job has to show at its end: its result, its events, and the reports
of the jobs that its observer has run. -/
structure Report where
  result : JobResult
  events : List ProgressEvent
  nested : List Report

/-- What an observer leaves behind after an event. -/
structure Reply where
  world : World
  cancels : Bool
  nested : List Report

/-- An observer is shown all events of the job so far, the new one last. -/
abbrev Observer := List ProgressEvent → World → Reply

namespace Reply

def unchanged (world : World) : Reply := ⟨world, false, []⟩

end Reply

/-- An observer that only watches. -/
def Observer.passive : Observer := fun _ world => .unchanged world

/-- What a job works on, and who watches it. -/
structure JobContext where
  root : Path
  options : Options
  observer : Observer

structure JobState where
  world : World
  cancelled : Bool
  events : List ProgressEvent
  nested : List Report
  stats : Stats
  warnings : List Warning

def JobState.initial (world : World) (cancelled : Bool) : JobState where
  world
  cancelled
  events := []
  nested := []
  stats := .zero
  warnings := []

/-- A part of a job: it ends normally or with the reason for which the whole
job fails, and keeps the state that it has reached either way. -/
abbrev JobM := ExceptT FailureReason (StateM JobState)

namespace JobM

def checkCancelled : JobM Unit := do
  if (← get).cancelled then throw .cancelled

def tree : JobM Tree :=
  return (← get).world.tree

def note (severity : Severity) (message : String) : JobM Unit :=
  modify fun state => { state with world := state.world.note severity message }

def updateStats (update : Stats → Stats) : JobM Unit :=
  modify fun state => { state with stats := update state.stats }

def warn (path : Path) (message : String) : JobM Unit :=
  modify fun state =>
    { state with warnings := state.warnings ++ [⟨path, message⟩] }

/-- Report a file or directory, and let the observer react. -/
def emit (context : JobContext) (stage : Stage) (path : Path) : JobM Unit :=
  modify fun state =>
    let events :=
      state.events ++ [.of stage (path.relativeTo context.root)]
    let reply := context.observer events state.world
    { state with
      world := reply.world
      cancelled := state.cancelled || reply.cancels
      events
      nested := state.nested ++ reply.nested }

/-- Carry out an operation on the tree. -/
def perform {α : Type} (operation : Tree → Effect α) :
    JobM (Except FileError α) :=
  modifyGet fun state =>
    let effect := operation state.world.tree
    (effect.answer,
      { state with
        world :=
          { state.world with
            tree := effect.tree
            log := state.world.log ++ effect.log } })

end JobM

end PackageRename
