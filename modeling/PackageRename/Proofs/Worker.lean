import PackageRename.CommandLine

/-!
# What a started job reports

The worker's actions do not depend on the caller, and what the caller receives
is taken from the front of the channel.  So a session is at any time what a
worker alone would have come to, except for what has been received; which events
the caller sees, and what it is told about the job, follows from the list of
actions and not from whose turn it was.
-/

namespace PackageRename

namespace Worker

variable {report : Report} {worker : Worker} {session : Session}

/-- All that is reported about a job: that it has started, its progress, and
last its result. -/
def story (report : Report) : List JobEvent :=
  [.started] ++ report.events.map .progress ++ [.finished report.result]

/-- A worker that has all of a job before it. -/
def fresh (report : Report) (cancelled : Bool) : Worker where
  remaining := actions report
  channel := []
  phase := .idle
  stored := none
  cancelled

theorem start_eq (job : Job) (cancelled : Bool) (world : World) :
    start job cancelled world =
      (fresh (job.run .passive cancelled world).1 cancelled,
        (job.run .passive cancelled world).2) := rfl

/-! ### A worker alone -/

theorem foldl_perform_progress (events : List ProgressEvent) (worker : Worker) :
    (events.map fun event => Action.send (.progress event)).foldl perform
        worker =
      { worker with channel := worker.channel ++ events.map .progress } := by
  induction events generalizing worker with
  | nil => simp
  | cons event events induction => simp [induction, perform]

/-- What is done before the result is sent. -/
def preparations (report : Report) : List Action :=
  [.enter .running, .send .started] ++
    (report.events.map fun event => .send (.progress event)) ++
    [.store report.result, .enter (.ofResult report.result)]

theorem actions_eq (report : Report) :
    actions report =
      preparations report ++ [.send (.finished report.result)] ++ [.leave] := by
  simp [actions, preparations]

theorem foldl_preparations (report : Report) (cancelled : Bool) :
    (preparations report).foldl perform (fresh report cancelled) =
      { fresh report cancelled with
        channel := [.started] ++ report.events.map .progress
        phase := .ofResult report.result
        stored := some report.result } := by
  rw [preparations, List.foldl_append, List.foldl_append]
  simp only [List.foldl_cons, List.foldl_nil, foldl_perform_progress, perform]
  rfl

theorem ofResult_left (result : JobResult) :
    (JobPhase.ofResult result).left = .ofResult result := by
  rw [JobPhase.ofResult]
  split <;> rfl

theorem foldl_actions (report : Report) (cancelled : Bool) :
    (actions report).foldl perform (fresh report cancelled) =
      { fresh report cancelled with
        channel := story report
        phase := .ofResult report.result
        stored := some report.result } := by
  rw [actions_eq, List.foldl_append, List.foldl_append, foldl_preparations]
  simp only [List.foldl_cons, List.foldl_nil, perform, ofResult_left]
  rfl

/-! ### Sessions -/

/-- The worker of a session has carried out some of its actions, and what it has
sent has been received or is in the channel. -/
structure Session.Tells (session : Session) (report : Report)
    (cancelled : Bool) (done : List Action) : Prop where
  whole : done ++ session.worker.remaining = actions report
  sent : session.received ++ session.worker.channel =
    (done.foldl perform (fresh report cancelled)).channel
  phase : session.worker.phase =
    (done.foldl perform (fresh report cancelled)).phase
  stored : session.worker.stored =
    (done.foldl perform (fresh report cancelled)).stored

theorem session_tells (report : Report) (cancelled : Bool) :
    (fresh report cancelled).session.Tells report cancelled [] :=
  ⟨rfl, rfl, rfl, rfl⟩

variable {cancelled : Bool} {done : List Action}

/-- Nothing but what the worker does next goes on in a turn. -/
theorem Session.Tells.take (tells : session.Tells report cancelled done)
    (turn : Turn) :
    ∃ more, (session.take turn).Tells report cancelled (done ++ more) := by
  obtain ⟨received, remaining, channel, phase, stored, asked⟩ := session
  obtain ⟨isAll, isSent, isPhase, isStored⟩ := tells
  dsimp only at isAll isSent isPhase isStored
  cases turn with
  | caller =>
      refine ⟨[], ?_⟩
      rw [List.append_nil]
      cases channel with
      | nil => exact ⟨isAll, isSent, isPhase, isStored⟩
      | cons event channel =>
          exact ⟨isAll, (List.append_cons received event channel).symm.trans
            isSent, isPhase, isStored⟩
  | worker =>
      cases remaining with
      | nil => exact ⟨[], by rw [List.append_nil]; exact
          ⟨isAll, isSent, isPhase, isStored⟩⟩
      | cons action remaining =>
          refine ⟨[action], ?_, ?_, ?_, ?_⟩
          · rw [← List.append_cons]
            exact isAll
          all_goals
            rw [List.foldl_append, List.foldl_cons, List.foldl_nil]
            cases action <;>
              simp [Session.take, advance, perform, ← isSent, isPhase, isStored]

/-- At any time in a session some of the actions have been carried out. -/
theorem Session.Tells.play (tells : session.Tells report cancelled done)
    (turns : List Turn) :
    ∃ more, (session.play turns).Tells report cancelled (done ++ more) := by
  induction turns generalizing session done with
  | nil => exact ⟨[], by rw [List.append_nil]; exact tells⟩
  | cons turn turns induction =>
      obtain ⟨first, taken⟩ := tells.take turn
      obtain ⟨later, played⟩ := induction taken
      exact ⟨first ++ later, by rw [← List.append_assoc]; exact played⟩

theorem mem_channel_perform {action : Action} {event : JobEvent}
    (member : event ∈ (worker.perform action).channel) :
    event ∈ worker.channel ∨ action = .send event := by
  cases action with
  | enter phase => exact .inl member
  | store result => exact .inl member
  | leave => exact .inl member
  | send sent =>
      rcases List.mem_append.mp member with before | isLast
      · exact .inl before
      · rw [List.mem_singleton.mp isLast]
        exact .inr rfl

theorem mem_channel_foldl {event : JobEvent}
    (member : event ∈ (done.foldl perform worker).channel) :
    event ∈ worker.channel ∨ .send event ∈ done := by
  induction done generalizing worker with
  | nil => exact .inl member
  | cons action done induction =>
      rcases induction member with before | later
      · refine (mem_channel_perform before).imp_right fun isSend => ?_
        rw [isSend]
        exact List.mem_cons_self
      · exact .inr (List.mem_cons_of_mem _ later)

/-- Once the result has been sent the worker has nothing left to do but leave. -/
theorem Session.Tells.of_finished (tells : session.Tells report cancelled done)
    {result : JobResult} (member : .finished result ∈ session.received) :
    result = report.result ∧
      (done = preparations report ++ [.send (.finished report.result)] ∨
        done = actions report) := by
  have isSent : .finished result ∈
      (done.foldl perform (fresh report cancelled)).channel := by
    rw [← tells.sent]
    exact List.mem_append_left _ member
  have isDone : .send (.finished result) ∈ done :=
    (mem_channel_foldl isSent).resolve_left nofun
  have isPrefix : done <+: actions report := ⟨_, tells.whole⟩
  have unprepared : .send (.finished result) ∉ preparations report := by
    simp [preparations]
  have isAction : .send (.finished result) ∈ actions report :=
    isPrefix.subset isDone
  rw [actions_eq] at isPrefix isAction
  constructor
  · simp only [List.mem_append, List.mem_singleton, unprepared, false_or,
      reduceCtorEq, or_false] at isAction
    exact JobEvent.finished.inj (Action.send.inj isAction)
  · rcases List.prefix_concat_iff.mp isPrefix with isAll | isPrefix
    · exact .inr (isAll.trans (actions_eq report).symm)
    · rcases List.prefix_concat_iff.mp isPrefix with isAll | isPrefix
      · exact .inl isAll
      · exact absurd (isPrefix.subset isDone) unprepared

theorem Session.Tells.phase_of_finished
    (tells : session.Tells report cancelled done) {result : JobResult}
    (member : .finished result ∈ session.received) :
    session.worker.phase = .ofResult report.result := by
  rw [tells.phase]
  rcases (tells.of_finished member).2 with isDone | isDone
  · rw [isDone, List.foldl_append, foldl_preparations]
    rfl
  · rw [isDone, foldl_actions]

theorem Session.Tells.received_prefix
    (tells : session.Tells report cancelled done) :
    session.received ++ session.worker.channel <+: story report := by
  have grows : ∀ (later : List Action) (worker : Worker),
      worker.channel <+: (later.foldl perform worker).channel := by
    intro later
    induction later with
    | nil => exact fun worker => List.prefix_refl _
    | cons action later induction =>
        intro worker
        refine List.IsPrefix.trans ?_ (induction (worker.perform action))
        cases action with
        | send event => exact List.prefix_append _ _
        | enter phase | store result | leave => exact List.prefix_refl _
  have whole := foldl_actions report cancelled
  rw [← tells.whole, List.foldl_append] at whole
  have reaches := grows session.worker.remaining
    (done.foldl perform (fresh report cancelled))
  rw [whole, ← tells.sent] at reaches
  exact reaches

theorem Session.Tells.of_closed (tells : session.Tells report cancelled done)
    (closed : session.worker.remaining = []) :
    session.received ++ session.worker.channel = story report ∧
      session.worker.stored = some report.result := by
  have isAll := tells.whole
  rw [closed, List.append_nil] at isAll
  rw [tells.sent, tells.stored, isAll, foldl_actions]
  exact ⟨rfl, rfl⟩

/-- What is stored depends on nothing that the caller takes. -/
theorem stored_foldl {first second : Worker}
    (same : first.stored = second.stored) (later : List Action) :
    (later.foldl perform first).stored = (later.foldl perform second).stored := by
  induction later generalizing first second with
  | nil => exact same
  | cons action later induction =>
      refine induction ?_
      cases action with
      | store result => rfl
      | enter phase | send event | leave => exact same

/-- Who waits gets the result of the job, whatever has been received. -/
theorem Session.Tells.wait_eq (tells : session.Tells report cancelled done) :
    session.worker.wait = report.result := by
  have stored : session.worker.complete.stored = some report.result := by
    have whole := foldl_actions report cancelled
    rw [← tells.whole, List.foldl_append] at whole
    calc
      session.worker.complete.stored =
          (session.worker.remaining.foldl perform session.worker).stored := rfl
      _ = (session.worker.remaining.foldl perform
            (done.foldl perform (fresh report cancelled))).stored :=
        stored_foldl tells.stored _
      _ = some report.result := by rw [whole]
  rw [wait, stored]

theorem Session.play_append (session : Session) (first later : List Turn) :
    session.play (first ++ later) = (session.play first).play later :=
  List.foldl_append

/-- What has been received stays received. -/
theorem Session.received_play (session : Session) (turns : List Turn) :
    session.received <+: (session.play turns).received := by
  induction turns generalizing session with
  | nil => exact List.prefix_refl _
  | cons turn turns induction =>
      refine List.IsPrefix.trans ?_ (induction (session.take turn))
      cases turn with
      | worker => exact List.prefix_refl _
      | caller =>
          rw [take]
          split
          · exact List.prefix_refl _
          · exact List.prefix_append _ _

end Worker

/-! ### The command line -/

namespace CommandLine

theorem succeeds_story (report : Report) :
    succeeds (Worker.story report) = report.result.success := by
  rw [Worker.story, succeeds, List.foldl_append]
  rfl

theorem follow_eq (directory : String) (job : Job) (world : World) :
    (follow directory job world).1.code =
        (if (job.run .passive false world).1.result.success then 0 else 2) ∧
      (follow directory job world).2 = (job.run .passive false world).2 := by
  have events : (Worker.start job false world).1.receiveAll.1 =
      Worker.story (job.run .passive false world).1 :=
    congrArg Worker.channel (Worker.foldl_actions _ false)
  refine ⟨?_, rfl⟩
  rw [← succeeds_story, ← events]
  rfl

end CommandLine

end PackageRename
