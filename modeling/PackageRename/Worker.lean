import PackageRename.Job.Run

/-!
# Started jobs

A job can be started and left to a worker, which reports through a channel:
first that it has started, then each progress event, and last the result.  The
worker's part is a list of actions that it carries out in order; the caller
reads the channel in between.  The result is stored before the last event is
sent, so that it can be asked for by then.  The channel closes when the worker
has left.

The caller only looks at what is reported.  What the job does to the world
therefore does not depend on when the caller looks.
-/

namespace PackageRename

inductive JobEvent where
  | started
  | progress (event : ProgressEvent)
  | finished (result : JobResult)
deriving DecidableEq

inductive JobPhase where
  | idle
  | running
  | succeeded
  | failed
deriving DecidableEq

namespace JobPhase

/-- The phase a job ends in. -/
def ofResult (result : JobResult) : JobPhase :=
  if result.success then succeeded else failed

/-- The phase of a job whose worker has left: without an end it has failed. -/
def left : JobPhase → JobPhase
  | idle => failed
  | running => failed
  | succeeded => succeeded
  | failed => failed

end JobPhase

namespace Worker

inductive Action where
  | enter (phase : JobPhase)
  | send (event : JobEvent)
  | store (result : JobResult)
  | leave
deriving DecidableEq

end Worker

structure Worker where
  /-- What the worker has still to do. -/
  remaining : List Worker.Action
  /-- What has been sent and not yet received. -/
  channel : List JobEvent
  phase : JobPhase
  stored : Option JobResult
  cancelled : Bool

namespace Worker

/-- All that a worker does about a job with this report. -/
def actions (report : Report) : List Action :=
  [.enter .running, .send .started] ++
    (report.events.map fun event => .send (.progress event)) ++
    [.store report.result, .enter (.ofResult report.result),
      .send (.finished report.result), .leave]

/-- Start a job.  `cancelled` tells whether it is asked to stop from the
start. -/
def start (job : Job) (cancelled : Bool) (world : World) : Worker × World :=
  let (report, reached) := job.run .passive cancelled world
  ({ remaining := actions report
     channel := []
     phase := .idle
     stored := none
     cancelled }, reached)

def perform (worker : Worker) : Action → Worker
  | .enter phase => { worker with phase }
  | .send event => { worker with channel := worker.channel ++ [event] }
  | .store result => { worker with stored := some result }
  | .leave => { worker with phase := worker.phase.left }

/-- The worker carries out its next action. -/
def advance (worker : Worker) : Worker :=
  match worker.remaining with
  | [] => worker
  | action :: remaining => { worker.perform action with remaining }

/-- The caller takes the next event from the channel. -/
def receive? (worker : Worker) : Option (JobEvent × Worker) :=
  match worker.channel with
  | [] => none
  | event :: channel => some (event, { worker with channel })

/-- The worker carries out all that is left. -/
def complete (worker : Worker) : Worker :=
  { worker.remaining.foldl perform worker with remaining := [] }

/-- The caller receives until the channel closes. -/
def receiveAll (worker : Worker) : List JobEvent × Worker :=
  let completed := worker.complete
  (completed.channel, { completed with channel := [] })

/-- Wait for the end of the job and ask for its result. -/
def wait (worker : Worker) : JobResult :=
  match worker.complete.stored with
  | some result => result
  | none => .failed (.worker "worker exited without a result") [] .zero

/-- The channel is closed and nothing is left in it. -/
def IsOver (worker : Worker) : Prop :=
  worker.remaining = [] ∧ worker.channel = []

/-! ### Taking turns -/

/-- Whose turn it is: the worker carries out its next action, or the caller
takes the next event, if there is one. -/
inductive Turn where
  | worker
  | caller
deriving DecidableEq

/-- A worker, and what the caller has received from it. -/
structure Session where
  received : List JobEvent
  worker : Worker

def Session.take (session : Session) : Turn → Session
  | .worker => { session with worker := session.worker.advance }
  | .caller =>
      match session.worker.receive? with
      | none => session
      | some (event, worker) => ⟨session.received ++ [event], worker⟩

/-- Worker and caller take turns. -/
def Session.play (session : Session) (turns : List Turn) : Session :=
  turns.foldl take session

/-- A worker from which nothing has been received. -/
def session (worker : Worker) : Session := ⟨[], worker⟩

end Worker

end PackageRename
