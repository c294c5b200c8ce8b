import PackageRename.Proofs.Job.Opening
import PackageRename.Proofs.Worker

/-!
# Workers in small steps

A worker does not know what its job will come to.  It goes through the job step
by step, sends each event before it does what the event announces, and passes
the result on when there is one.  To the caller it looks like a worker that has
had the whole report from the start, which now and then takes its time; and the
world that it leaves is the one in which the job ends.
-/

namespace PackageRename

namespace Job

variable {job : Job} {observer : Observer} {cancelled : Bool} {world : World}
variable {roots : List String}

/-- The bytecode roots of a job that comes to its stages. -/
def opening? (job : Job) (world : World) : Option (List String) :=
  if job.IsProper ∧ RootKey.of job.root world.tree ∉ world.held then
    (bytecodeRoots job.root job.options world.tree).toOption
  else none

theorem opening?_eq_some :
    job.opening? world = some roots ↔ job.Opens world roots := by
  rw [opening?]
  constructor
  · intro opening
    split at opening
    · rename_i opens
      cases found : bytecodeRoots job.root job.options world.tree with
      | error fault =>
          rw [found] at opening
          cases opening
      | ok listed =>
          rw [found] at opening
          cases opening
          exact ⟨opens.1.sourceNamed, opens.1.targetNamed, opens.1.different,
            opens.2, found⟩
    · cases opening
  · intro opens
    rw [if_pos ⟨⟨opens.sourceNamed, opens.targetNamed, opens.different⟩,
      opens.unclaimed⟩, opens.found]
    rfl

/-- What becomes of the world when a job has come to its stages. -/
theorem Opens.world_eq (opens : job.Opens world roots) (observer : Observer)
    (cancelled : Bool) :
    (job.run observer cancelled world).2 =
      (job.ended (job.stages observer cancelled roots world)).2.release
        (RootKey.of job.root world.tree) := by
  have found : bytecodeRoots job.root job.options (job.claimed world).tree =
      .ok roots := opens.found
  rw [run_claiming ⟨opens.sourceNamed, opens.targetNamed, opens.different⟩
    opens.unclaimed, runClaimed, found]
  dsimp only
  rw [runStages_eq]
  rfl

end Job

namespace Worker

/-! ### Threads -/

/-- How far a worker has come with its job. -/
inductive Part where
  /-- The job has not been begun. -/
  | outset
  /-- So much of the stages is left. -/
  | stages (plan : Plan Unit) (state : JobState)
  /-- The event of a task has been sent, and the task is to be carried out. -/
  | pending (task : Task)
      (next : Except FileError task.stage.Answer → Plan Unit) (state : JobState)
  /-- The job has ended. -/
  | closed (world : World)

/-- A worker in the middle of its job.  It goes on with the job when nothing
remains for it to pass on. -/
structure Thread where
  worker : Worker
  part : Part

/-- What is passed on at the end of a job. -/
def closing (result : JobResult) : List Action :=
  [.store result, .enter (.ofResult result), .send (.finished result), .leave]

/-- A worker that has been started. -/
def Thread.started (cancelled : Bool) : Thread where
  worker :=
    { remaining := [.enter .running, .send .started]
      channel := []
      phase := .idle
      stored := none
      cancelled }
  part := .outset

namespace Thread

variable (job : Job) (cancelled : Bool) (world : World)

/-- The stages have come to an end. -/
def finish (thread : Thread)
    (outcome : Except FailureReason Unit × JobState) : Thread where
  worker :=
    { thread.worker with
      remaining := closing (outcome.2.result outcome.1) }
  part := .closed ((job.ended outcome).2.release
    (RootKey.of job.root world.tree))

/-- Go on with the stages. -/
def proceed (thread : Thread) : Plan Unit → JobState → Thread
  | .done value, state => thread.finish job world (.ok value, state)
  | .fail reason, state => thread.finish job world (.error reason, state)
  | .check next, state =>
      if state.cancelled then
        thread.finish job world (.error .cancelled, state)
      else { thread with part := .stages next state }
  | .look next, state =>
      { thread with part := .stages (next state.world.tree) state }
  | .note severity message next, state =>
      { thread with
        part := .stages next
          { state with world := state.world.note severity message } }
  | .warn path message next, state =>
      { thread with
        part := .stages next
          { state with warnings := state.warnings ++ [⟨path, message⟩] } }
  | .act task next, state =>
      ⟨thread.worker.perform (.send (.progress (task.event job.root))),
        .pending task next state⟩

/-- Go on with the job.  A job that does not come to its stages is over at
once. -/
def resume (thread : Thread) : Thread :=
  match thread.part with
  | .outset =>
      match job.opening? world with
      | some roots =>
          { thread with
            part := .stages (job.plan .passive roots)
              (.initial (job.claimed world) cancelled) }
      | none =>
          let (report, reached) := job.run .passive cancelled world
          ⟨{ thread.worker with remaining := closing report.result },
            .closed reached⟩
  | .stages plan state => thread.proceed job world plan state
  | .pending task next state =>
      let context := job.context .passive
      { thread with
        part := .stages (next (task.effectIn context job.names state).answer)
          (task.carriedOut context job.names state) }
  | .closed _ => thread

def step (thread : Thread) : Thread :=
  match thread.worker.remaining with
  | [] => thread.resume job cancelled world
  | _ :: _ => { thread with worker := thread.worker.advance }

end Thread

/-! ### What is to come -/

namespace Part

variable (job : Job) (cancelled : Bool) (world : World)

/-- The world as the worker has left it so far. -/
def current : Part → World
  | outset => world
  | stages _ state => state.world
  | pending _ _ state => state.world
  | closed reached => reached

/-- What the rest of the stages comes to. -/
def outcome (plan : Plan Unit) (state : JobState) :
    Except FailureReason Unit × JobState :=
  plan.run (job.context .passive) job.names state

/-- All that the rest of the stages will have the worker pass on. -/
def prospect (plan : Plan Unit) (state : JobState) : List Action :=
  ((plan.journal (job.context .passive) job.names state).map fun moment =>
      .send (.progress (moment.event job.root))) ++
    closing ((outcome job plan state).2.result (outcome job plan state).1)

/-- All that the rest of the job will have the worker pass on. -/
def actions : Part → List Action
  | outset =>
      ((job.run .passive cancelled world).1.events.map fun event =>
          .send (.progress event)) ++
        closing (job.run .passive cancelled world).1.result
  | stages plan state => prospect job plan state
  | pending task next state =>
      prospect job
        (next (task.effectIn (job.context .passive) job.names state).answer)
        (task.carriedOut (job.context .passive) job.names state)
  | closed _ => []

/-- The world in which the stages are left. -/
def left (plan : Plan Unit) (state : JobState) : World :=
  (job.ended (outcome job plan state)).2.release
    (RootKey.of job.root world.tree)

/-- The world in which the job will be left. -/
def reaches : Part → World
  | outset => (job.run .passive cancelled world).2
  | stages plan state => left job world plan state
  | pending task next state =>
      left job world
        (next (task.effectIn (job.context .passive) job.names state).answer)
        (task.carriedOut (job.context .passive) job.names state)
  | closed reached => reached

variable {job}

theorem prospect_act (task : Task)
    (next : Except FileError task.stage.Answer → Plan Unit) (state : JobState) :
    prospect job (.act task next) state =
      .send (.progress (task.event job.root)) ::
        actions job cancelled world (.pending task next state) := rfl

theorem prospect_check (next : Plan Unit) (state : JobState) :
    prospect job (.check next) state =
      if state.cancelled then closing (state.result (.error .cancelled))
      else prospect job next state := by
  rw [prospect, outcome, Plan.journal, Plan.run]
  split <;> rfl

theorem left_check (next : Plan Unit) (state : JobState) :
    left job world (.check next) state =
      if state.cancelled then
        (job.ended (.error .cancelled, state)).2.release
          (RootKey.of job.root world.tree)
      else left job world next state := by
  rw [left, outcome, Plan.run]
  split <;> rfl

end Part

namespace Thread

variable (job : Job) (cancelled : Bool) (world : World)

/-- The thread as a worker that knows what is to come. -/
def whole (thread : Thread) : Worker :=
  { thread.worker with
    remaining :=
      thread.worker.remaining ++ thread.part.actions job cancelled world }

theorem whole_started :
    ((started cancelled).whole job cancelled world,
      (started cancelled).part.reaches job cancelled world) =
      start job cancelled world := by
  rw [start_eq]
  simp [whole, started, fresh, actions, Part.actions, Part.reaches, closing]

variable {job cancelled world} {thread : Thread}

/-- Passing on what remains is what the whole worker does next. -/
theorem whole_advance (open_ : thread.worker.remaining ≠ []) :
    whole job cancelled world { thread with worker := thread.worker.advance } =
      (thread.whole job cancelled world).advance := by
  obtain ⟨⟨remaining, channel, phase, stored, asked⟩, part⟩ := thread
  cases remaining with
  | nil => exact absurd rfl open_
  | cons action remaining => cases action <;> rfl

/-- What a step does to the whole worker: nothing, or what the whole worker does
next.  The world in which the job will be left stays the same. -/
structure Follows (job : Job) (cancelled : Bool) (world : World)
    (thread later : Thread) : Prop where
  whole : later.whole job cancelled world = thread.whole job cancelled world ∨
    later.whole job cancelled world =
      (thread.whole job cancelled world).advance
  reaches : later.part.reaches job cancelled world =
    thread.part.reaches job cancelled world

theorem follows_finish {plan : Plan Unit} {state : JobState}
    {ended : Except FailureReason Unit × JobState}
    (quiet : thread.worker.remaining = [])
    (prospect : Part.prospect job plan state =
      closing (ended.2.result ended.1))
    (left : Part.left job world plan state =
      (job.ended ended).2.release (RootKey.of job.root world.tree)) :
    Follows job cancelled world { thread with part := .stages plan state }
      (thread.finish job world ended) := by
  refine ⟨.inl ?_, left.symm⟩
  rw [Thread.whole, Thread.whole, finish, Part.actions, Part.actions, prospect,
    quiet, List.append_nil, List.nil_append]

theorem follows_proceed (quiet : thread.worker.remaining = [])
    (plan : Plan Unit) (state : JobState) :
    Follows job cancelled world { thread with part := .stages plan state }
      (thread.proceed job world plan state) := by
  cases plan with
  | done value => exact follows_finish quiet rfl rfl
  | fail reason => exact follows_finish quiet rfl rfl
  | check next =>
      have prospect := @Part.prospect_check job next state
      have left := @Part.left_check job world next state
      rw [proceed]
      split
      · rename_i asked
        rw [if_pos asked] at prospect left
        exact follows_finish quiet prospect left
      · rename_i goesOn
        rw [if_neg goesOn] at prospect left
        refine ⟨.inl ?_, left.symm⟩
        rw [Thread.whole, Thread.whole, Part.actions, Part.actions, prospect]
  | look next => exact ⟨.inl rfl, rfl⟩
  | note severity message next => exact ⟨.inl rfl, rfl⟩
  | warn path message next => exact ⟨.inl rfl, rfl⟩
  | act task next =>
      refine ⟨.inr ?_, rfl⟩
      rw [Thread.whole, Thread.whole, Part.actions,
        Part.prospect_act cancelled world, proceed, advance]
      simp [quiet, perform]

theorem follows_resume (quiet : thread.worker.remaining = []) :
    Follows job cancelled world thread
      (thread.resume job cancelled world) := by
  obtain ⟨worker, part⟩ := thread
  cases part with
  | closed reached => exact ⟨.inl rfl, rfl⟩
  | pending task next state => exact ⟨.inl rfl, rfl⟩
  | stages plan state => exact follows_proceed quiet plan state
  | outset =>
      rw [resume]
      dsimp only
      cases opening : job.opening? world with
      | none =>
          have closed : ∀ roots, ¬ job.Opens world roots := by
            intro roots opens
            rw [Job.opening?_eq_some.mpr opens] at opening
            cases opening
          obtain ⟨result, -, refused, -⟩ :=
            Job.run_refused closed .passive cancelled
          refine ⟨.inl ?_, rfl⟩
          dsimp only at quiet
          simp [Thread.whole, Part.actions, quiet, refused, Job.bareReport]
      | some roots =>
          have opens := Job.opening?_eq_some.mp opening
          refine ⟨.inl ?_, (opens.world_eq .passive cancelled).symm⟩
          have events := opens.events_eq .passive cancelled
          have result := congrArg Report.result
            (opens.run_eq .passive cancelled).1
          rw [Thread.whole, Thread.whole, Part.actions, Part.actions, events,
            result, List.map_map]
          rfl

/-- Each step of a thread is one of the whole worker or none. -/
theorem follows_step (thread : Thread) :
    Follows job cancelled world thread (thread.step job cancelled world) := by
  rw [step]
  split
  · rename_i quiet
    exact follows_resume quiet
  · rename_i action remaining remains
    exact ⟨.inr (whole_advance (by rw [remains]; exact List.cons_ne_nil _ _)),
      rfl⟩

/-! ### Threads come to an end -/

/-- The job has ended, and all has been passed on. -/
structure HasLeft (thread : Thread) : Prop where
  remaining : thread.worker.remaining = []
  closed : ∃ reached, thread.part = .closed reached

/-- Step by step the thread comes to its end. -/
inductive Leaves (job : Job) (cancelled : Bool) (world : World) :
    Thread → Prop where
  | left {thread : Thread} (hasLeft : thread.HasLeft) :
      Leaves job cancelled world thread
  | step {thread : Thread}
      (later : Leaves job cancelled world (thread.step job cancelled world)) :
      Leaves job cancelled world thread

variable {part : Part}

/-- What remains to be passed on does not keep a thread from its end. -/
theorem leaves_of_quiet
    (quiet : ∀ worker, worker.remaining = [] →
      Leaves job cancelled world ⟨worker, part⟩) (worker : Worker) :
    Leaves job cancelled world ⟨worker, part⟩ := by
  generalize remains : worker.remaining = remaining
  induction remaining generalizing worker with
  | nil => exact quiet worker remains
  | cons action remaining induction =>
      refine .step ?_
      rw [step]
      simp only [remains]
      refine induction worker.advance ?_
      rw [advance, remains]

/-- A step on the job takes the thread to its end if what comes after it
does. -/
theorem leaves_of_resume {worker : Worker} (quiet : worker.remaining = [])
    (later : Leaves job cancelled world
      (resume job cancelled world ⟨worker, part⟩)) :
    Leaves job cancelled world ⟨worker, part⟩ := by
  refine .step ?_
  rw [step]
  simp only [quiet]
  exact later

theorem leaves_closed (worker : Worker) (reached : World) :
    Leaves job cancelled world ⟨worker, .closed reached⟩ :=
  leaves_of_quiet (fun _ quiet => .left ⟨quiet, reached, rfl⟩) worker

theorem leaves_stages (plan : Plan Unit) (worker : Worker)
    (state : JobState) :
    Leaves job cancelled world ⟨worker, .stages plan state⟩ := by
  induction plan generalizing worker state with
  | done value =>
      exact leaves_of_quiet (fun _ quiet =>
        leaves_of_resume quiet (leaves_closed _ _)) worker
  | fail reason =>
      exact leaves_of_quiet (fun _ quiet =>
        leaves_of_resume quiet (leaves_closed _ _)) worker
  | check next induction =>
      refine leaves_of_quiet (fun worker quiet =>
        leaves_of_resume quiet ?_) worker
      rw [resume]
      dsimp only
      rw [proceed]
      split
      · exact leaves_closed _ _
      · exact induction worker state
  | look next induction =>
      exact leaves_of_quiet (fun worker quiet =>
        leaves_of_resume quiet (induction _ worker state)) worker
  | note severity message next induction =>
      exact leaves_of_quiet (fun worker quiet =>
        leaves_of_resume quiet (induction worker _)) worker
  | warn path message next induction =>
      exact leaves_of_quiet (fun worker quiet =>
        leaves_of_resume quiet (induction worker _)) worker
  | act task next induction =>
      refine leaves_of_quiet (fun worker quiet =>
        leaves_of_resume quiet ?_) worker
      exact leaves_of_quiet (fun worker quiet =>
        leaves_of_resume quiet (induction _ worker _)) _

/-- A thread comes to its end from wherever it is. -/
theorem leaves (thread : Thread) : Leaves job cancelled world thread := by
  obtain ⟨worker, part⟩ := thread
  cases part with
  | closed reached => exact leaves_closed worker reached
  | stages plan state => exact leaves_stages plan worker state
  | pending task next state =>
      exact leaves_of_quiet (fun worker quiet =>
        leaves_of_resume quiet (leaves_stages _ worker _)) worker
  | outset =>
      refine leaves_of_quiet (fun worker quiet =>
        leaves_of_resume quiet ?_) worker
      rw [resume]
      dsimp only
      split
      · exact leaves_stages _ worker _
      · exact leaves_closed _ _

end Thread

/-! ### Threads and callers -/

/-- A thread, and what the caller has received from it. -/
structure Dialogue where
  received : List JobEvent
  thread : Thread

/-- A thread that has been started, and nothing has been received. -/
def Dialogue.started (cancelled : Bool) : Dialogue :=
  ⟨[], .started cancelled⟩

namespace Dialogue

variable (job : Job) (cancelled : Bool) (world : World)

def take (dialogue : Dialogue) : Turn → Dialogue
  | .worker =>
      { dialogue with thread := dialogue.thread.step job cancelled world }
  | .caller =>
      match dialogue.thread.worker.receive? with
      | none => dialogue
      | some (event, worker) =>
          ⟨dialogue.received ++ [event], { dialogue.thread with worker }⟩

/-- Thread and caller take turns. -/
def play (dialogue : Dialogue) (turns : List Turn) : Dialogue :=
  turns.foldl (take job cancelled world) dialogue

/-- The session with the whole worker. -/
def session (dialogue : Dialogue) : Session :=
  ⟨dialogue.received, dialogue.thread.whole job cancelled world⟩

variable {job cancelled world} {dialogue : Dialogue}

theorem session_started :
    (started cancelled).session job cancelled world =
      (start job cancelled world).1.session := by
  rw [← Thread.whole_started]
  rfl

/-- A turn in a dialogue is a turn in the session or none. -/
theorem session_take (dialogue : Dialogue) (turn : Turn) :
    ∃ turns, (dialogue.take job cancelled world turn).session job cancelled
        world = (dialogue.session job cancelled world).play turns := by
  cases turn with
  | worker =>
      rcases (Thread.follows_step dialogue.thread).whole with same | advanced
      · exact ⟨[], congrArg (Session.mk dialogue.received) same⟩
      · exact ⟨[.worker], congrArg (Session.mk dialogue.received) advanced⟩
  | caller =>
      refine ⟨[.caller], ?_⟩
      obtain ⟨received, ⟨⟨remaining, channel, phase, stored, asked⟩, part⟩⟩ :=
        dialogue
      cases channel <;> rfl

theorem reaches_take (dialogue : Dialogue) (turn : Turn) :
    (dialogue.take job cancelled world turn).thread.part.reaches job cancelled
        world = dialogue.thread.part.reaches job cancelled world := by
  cases turn with
  | worker => exact (Thread.follows_step dialogue.thread).reaches
  | caller =>
      rw [take]
      split <;> rfl

/-- A dialogue is a session with the whole worker that now and then stands
still. -/
theorem session_play (dialogue : Dialogue) (turns : List Turn) :
    ∃ taken, (dialogue.play job cancelled world turns).session job cancelled
        world = (dialogue.session job cancelled world).play taken := by
  induction turns generalizing dialogue with
  | nil => exact ⟨[], rfl⟩
  | cons turn turns induction =>
      obtain ⟨first, taken⟩ :=
        @session_take job cancelled world dialogue turn
      obtain ⟨later, played⟩ :=
        induction (dialogue.take job cancelled world turn)
      exact ⟨first ++ later, by rw [Session.play_append, ← taken]; exact played⟩

theorem reaches_play (dialogue : Dialogue) (turns : List Turn) :
    (dialogue.play job cancelled world turns).thread.part.reaches job cancelled
        world = dialogue.thread.part.reaches job cancelled world := by
  induction turns generalizing dialogue with
  | nil => rfl
  | cons turn turns induction =>
      exact (induction (dialogue.take job cancelled world turn)).trans
        (reaches_take dialogue turn)

theorem play_append (dialogue : Dialogue) (first later : List Turn) :
    dialogue.play job cancelled world (first ++ later) =
      (dialogue.play job cancelled world first).play job cancelled world
        later :=
  List.foldl_append

/-- However far it has come, the thread will leave. -/
theorem exists_left (dialogue : Dialogue) :
    ∃ turns, (dialogue.play job cancelled world turns).thread.HasLeft := by
  obtain ⟨received, thread⟩ := dialogue
  induction @Thread.leaves job cancelled world thread with
  | left hasLeft => exact ⟨[], hasLeft⟩
  | step _ induction =>
      obtain ⟨turns, hasLeft⟩ := induction
      exact ⟨.worker :: turns, hasLeft⟩

/-- A caller that goes on receiving comes to the end of the channel. -/
theorem exists_received (dialogue : Dialogue)
    (hasLeft : dialogue.thread.HasLeft) :
    ∃ turns, (dialogue.play job cancelled world turns).thread.HasLeft ∧
      (dialogue.play job cancelled world turns).thread.worker.IsOver := by
  generalize isChannel : dialogue.thread.worker.channel = channel
  induction channel generalizing dialogue with
  | nil => exact ⟨[], hasLeft, hasLeft.remaining, isChannel⟩
  | cons event channel induction =>
      have taken : dialogue.take job cancelled world .caller =
          ⟨dialogue.received ++ [event],
            { dialogue.thread with
              worker := { dialogue.thread.worker with channel } }⟩ := by
        rw [take, receive?, isChannel]
      have stillLeft :
          (dialogue.take job cancelled world .caller).thread.HasLeft := by
        rw [taken]
        exact ⟨hasLeft.remaining, hasLeft.closed⟩
      obtain ⟨turns, isOver⟩ := induction _ stillLeft (by rw [taken])
      exact ⟨.caller :: turns, isOver⟩

/-- However far a dialogue has come, it comes to its end. -/
theorem exists_over (dialogue : Dialogue) :
    ∃ turns, (dialogue.play job cancelled world turns).thread.HasLeft ∧
      (dialogue.play job cancelled world turns).thread.worker.IsOver := by
  obtain ⟨first, hasLeft⟩ := @exists_left job cancelled world dialogue
  obtain ⟨later, isOver⟩ := @exists_received job cancelled world _ hasLeft
  rw [← play_append] at isOver
  exact ⟨_, isOver⟩

end Dialogue

/-- A thread that has left is a worker that has nothing left to do, and the
world is as the job leaves it. -/
theorem Thread.HasLeft.whole_eq {job : Job} {cancelled : Bool} {world : World}
    {thread : Thread} (hasLeft : thread.HasLeft) :
    thread.whole job cancelled world = thread.worker ∧
      thread.part.current world = thread.part.reaches job cancelled world := by
  obtain ⟨⟨remaining, channel, phase, stored, asked⟩, part⟩ := thread
  obtain ⟨quiet, reached, closed⟩ := hasLeft
  dsimp only at quiet closed
  subst quiet closed
  exact ⟨rfl, rfl⟩

/-- What a caller can rely on, whatever turns have been taken so far: it has
received events of the report in their order and nothing else; once it has
received the result, the phase is that of the result and stays so; the thread
will leave, and all that it has sent will be received; by the time it has left
it has sent all of the report, whoever waits gets the result, and the world is
as the job leaves it. -/
structure Dialogue.Reports (job : Job) (cancelled : Bool) (world : World)
    (dialogue : Dialogue) : Prop where
  session : ∃ taken, dialogue.session job cancelled world =
    (start job cancelled world).1.session.play taken
  received : dialogue.received <+:
    story (job.run .passive cancelled world).1
  finished : ∀ result, .finished result ∈ dialogue.received →
    result = (job.run .passive cancelled world).1.result ∧
      ∀ more, (dialogue.play job cancelled world more).thread.worker.phase =
        .ofResult (job.run .passive cancelled world).1.result
  ends : ∃ more,
    (dialogue.play job cancelled world more).thread.HasLeft ∧
      (dialogue.play job cancelled world more).thread.worker.IsOver
  left : dialogue.thread.HasLeft →
    dialogue.received ++ dialogue.thread.worker.channel =
        story (job.run .passive cancelled world).1 ∧
      dialogue.thread.worker.wait =
        (job.run .passive cancelled world).1.result ∧
      dialogue.thread.part.current world =
        (job.run .passive cancelled world).2

namespace Dialogue

variable {job : Job} {cancelled : Bool} {world : World}

/-- What has been received stays received. -/
theorem received_play (dialogue : Dialogue) (turns : List Turn) :
    dialogue.received <+:
      (dialogue.play job cancelled world turns).received := by
  obtain ⟨taken, played⟩ :=
    @session_play job cancelled world dialogue turns
  have grows :=
    (dialogue.session job cancelled world).received_play taken
  rw [← played] at grows
  exact grows

/-- The session of a dialogue tells what the job reports. -/
theorem exists_tells (job : Job) (cancelled : Bool) (world : World)
    (turns : List Turn) :
    ∃ done, (((started cancelled).play job cancelled world turns).session job
      cancelled world).Tells (job.run .passive cancelled world).1 cancelled
        done := by
  obtain ⟨taken, played⟩ :=
    @session_play job cancelled world (started cancelled) turns
  obtain ⟨done, tells⟩ :=
    (session_tells (job.run .passive cancelled world).1 cancelled).play taken
  rw [played, session_started, start_eq]
  exact ⟨_, tells⟩

theorem reports (job : Job) (cancelled : Bool) (world : World)
    (turns : List Turn) :
    Reports job cancelled world
      ((started cancelled).play job cancelled world turns) := by
  obtain ⟨done, tells⟩ := exists_tells job cancelled world turns
  refine ⟨?_, ?_, ?_, exists_over _, ?_⟩
  · obtain ⟨taken, played⟩ :=
      @session_play job cancelled world (started cancelled) turns
    exact ⟨taken, by rw [played, session_started]⟩
  · exact (List.prefix_append _ _).trans tells.received_prefix
  · intro result member
    refine ⟨(tells.of_finished member).1, fun more => ?_⟩
    obtain ⟨later, told⟩ := exists_tells job cancelled world (turns ++ more)
    rw [play_append] at told
    exact told.phase_of_finished ((received_play _ more).subset member)
  · intro hasLeft
    obtain ⟨whole, current⟩ :=
      @Thread.HasLeft.whole_eq job cancelled world _ hasLeft
    have closed : (((started cancelled).play job cancelled world turns).session
        job cancelled world).worker.remaining = [] :=
      (congrArg Worker.remaining whole).trans hasLeft.remaining
    refine ⟨?_, ?_, current.trans (reaches_play _ turns)⟩
    · rw [← whole]
      exact (tells.of_closed closed).1
    · rw [← whole]
      exact tells.wait_eq

end Dialogue

/-- What a job that has been started reports, however its worker and the caller
take turns, is what it reports when it is run; and the world is left as the job
leaves it.  Renaming with the standard options and the command line come to the
same: the code is zero just if the result is a success. -/
theorem start_reports (job : Job) (cancelled : Bool) (world : World) :
    (∀ turns, Dialogue.Reports job cancelled world
      ((Dialogue.started cancelled).play job cancelled world turns)) ∧
      (start job cancelled world).2 = (job.run .passive cancelled world).2 ∧
      (∀ root source target,
        renamePackage root source target world =
          (((Job.of root source target .standard).run .passive false
              world).1.result,
            ((Job.of root source target .standard).run .passive false
              world).2)) ∧
      ∀ program arguments,
        (∀ directory started,
          CommandLine.Request.ofArguments arguments world.tree =
              .rename directory started →
            (CommandLine.run program arguments world).1.code =
                (if (started.run .passive false world).1.result.success then 0
                  else 2) ∧
              (CommandLine.run program arguments world).2 =
                (started.run .passive false world).2) ∧
          ((∀ directory started,
            CommandLine.Request.ofArguments arguments world.tree ≠
              .rename directory started) →
            (CommandLine.run program arguments world).1.code = 1 ∧
              (CommandLine.run program arguments world).2 = world) := by
  refine ⟨Dialogue.reports job cancelled world, rfl, fun _ _ _ => rfl,
    fun program arguments =>
      ⟨fun directory started request => ?_, fun unbuilt => ?_⟩⟩
  · rw [CommandLine.run, request]
    exact CommandLine.follow_eq directory started world
  · rw [CommandLine.run]
    cases request : CommandLine.Request.ofArguments arguments world.tree with
    | usage => exact ⟨rfl, rfl⟩
    | aborted error => exact ⟨rfl, rfl⟩
    | rename directory started => exact absurd request (unbuilt _ _)

end Worker

end PackageRename
