import PackageRename.Job.Script
import PackageRename.Proofs.Job.Journal
import PackageRename.Proofs.Tree.Deciding

/-!
# Asking a job to stop

Before each task a job asks whether it is to stop, and nothing happens between
the question and the event of the task.  So a request that comes with one event
lets its task be finished, and what comes after is left out.
-/

namespace PackageRename

namespace Plan

variable {α β : Type} {context : JobContext} {names : Renaming}

/-- Every task comes right after the question whether to stop; `asked` tells
whether that question has just been asked. -/
inductive Guarded : (asked : Bool) → Plan α → Prop
  | done {asked : Bool} (value : α) : Guarded asked (.done value)
  | fail {asked : Bool} {reason : FailureReason}
      (ownReason : reason ≠ .cancelled) : Guarded asked (.fail reason)
  | check {asked : Bool} {next : Plan α} (later : Guarded true next) :
      Guarded asked (.check next)
  | look {asked : Bool} {next : Tree → Plan α}
      (later : ∀ tree, Guarded asked (next tree)) : Guarded asked (.look next)
  | note {asked : Bool} {severity : Severity} {message : String}
      {next : Plan α} (later : Guarded asked next) :
      Guarded asked (.note severity message next)
  | warn {asked : Bool} {path : Path} {message : String} {next : Plan α}
      (later : Guarded asked next) : Guarded asked (.warn path message next)
  | act {task : Task} {next : Except FileError task.stage.Answer → Plan α}
      (later : ∀ answer, Guarded false (next answer)) :
      Guarded true (.act task next)

namespace Guarded

theorem weaken {plan : Plan α} {asked : Bool}
    (guarded : plan.Guarded false) : plan.Guarded asked := by
  generalize isFalse : false = before at guarded
  induction guarded generalizing asked with
  | done value => exact .done value
  | fail ownReason => exact .fail ownReason
  | check later => exact .check later
  | look later induction => exact .look fun tree => induction tree isFalse
  | note later induction => exact .note (induction isFalse)
  | warn later induction => exact .warn (induction isFalse)
  | act later => cases isFalse

theorem bind {plan : Plan α} {goesOn : α → Plan β} {asked : Bool}
    (first : plan.Guarded asked)
    (later : ∀ value, (goesOn value).Guarded false) :
    (plan >>= goesOn).Guarded asked := by
  change (plan.bind goesOn).Guarded asked
  induction first with
  | done value => exact (later value).weaken
  | fail ownReason => exact .fail ownReason
  | check _ induction => exact .check induction
  | look _ induction => exact .look induction
  | note _ induction => exact .note induction
  | warn _ induction => exact .warn induction
  | act _ induction => exact .act induction

theorem forM {items : List β} {plan : β → Plan Unit}
    (each : ∀ item, (plan item).Guarded false) :
    (items.forM plan).Guarded false := by
  induction items with
  | nil => exact .done ()
  | cons head rest induction => exact (each head).bind fun _ => induction

theorem walk {visit : Tree.Visited → Plan Unit}
    (each : ∀ visited, (visit visited).Guarded false) (root : Path) :
    (Tree.walk tree visit root).Guarded false :=
  walk_induction _ (.done ()) (fun first next => first.bind fun _ => next)
    (fun each => .look fun tree => each tree trivial)
    (fun visited (_ : True) => each visited)
    (fun _ _ (_ : True) _ => trivial) (fun _ _ _ _ => trivial)
    (fun _ _ _ _ _ _ _ _ _ _ _ => trivial) (fun _ _ _ => trivial)

end Guarded

/-! ### The stages are guarded -/

theorem guarded_skipResource (error : FileError) :
    (skipResource context error).Guarded false :=
  .note (.warn (.done ()))

theorem guarded_visitResource (visited : Tree.Visited) :
    (visitResource context visited).Guarded false := by
  refine .check ?_
  cases visited with
  | directory path => exact .done ()
  | failure path fault => exact (guarded_skipResource _).weaken
  | file path =>
      refine .act fun answer => ?_
      cases answer with
      | ok outcome => exact .done ()
      | error error => exact guarded_skipResource error

theorem guarded_updateResources (directory : Path) :
    (updateResources context directory).Guarded false := by
  refine .look fun found => ?_
  change Guarded false (ite (found.isDirectory directory = true) _ _)
  split
  · exact .walk guarded_visitResource directory
  · exact .note (.done ())

theorem guarded_updateManifest (manifest : Path) :
    (updateManifest context manifest).Guarded false := by
  refine .check (.act fun answer => ?_)
  cases answer with
  | error error => exact .note (.fail nofun)
  | ok outcome =>
      cases outcome with
      | changed replacements => exact .done _
      | unchanged => exact .note (.done _)

theorem guarded_failBytecodeFile (error : FileError) :
    (failBytecodeFile context error).Guarded false :=
  .note (.fail nofun)

theorem guarded_visitBytecode (visited : Tree.Visited) :
    (visitBytecode context visited).Guarded false := by
  refine .check ?_
  cases visited with
  | directory path => exact .done ()
  | failure path fault => exact (guarded_failBytecodeFile _).weaken
  | file path =>
      refine .act fun answer => ?_
      cases answer with
      | ok outcome => exact .done ()
      | error error => exact guarded_failBytecodeFile error

theorem guarded_relocate (name : String) (base : Path) :
    (relocate names name base).Guarded false := by
  refine .check (.act fun answer => ?_)
  cases answer with
  | error error => exact .note (.fail nofun)
  | ok moved => cases moved <;> exact .note (.done ())

theorem guarded_updatePackage (roots : List String) :
    (updatePackage context names roots).Guarded false :=
  (guarded_updateResources _).bind fun _ =>
    (guarded_updateManifest _).bind fun _ =>
      .forM fun name => (Guarded.walk guarded_visitBytecode _).bind
        fun _ => guarded_relocate name _

/-! ### What stopping leaves out -/

/-- A job is cancelled only if it has been asked to stop. -/
theorem Guarded.cancelled_of_run {plan : Plan α} {asked : Bool}
    (guarded : plan.Guarded asked) (state : JobState)
    (ending : (plan.run context names state).1 = .error .cancelled) :
    (plan.run context names state).2.cancelled = true := by
  induction guarded generalizing state with
  | done value => cases ending
  | fail ownReason => exact absurd (Except.error.inj ending) ownReason
  | check _ induction =>
      rw [run] at ending ⊢
      split
      · rename_i cancelled
        exact cancelled
      · rename_i live
        rw [if_neg live] at ending
        exact induction state ending
  | look _ induction => exact induction _ state ending
  | note _ induction => exact induction _ ending
  | warn _ induction => exact induction _ ending
  | act _ induction => exact induction _ _ ending

end Plan

/-- The state of a job that has been asked to stop. -/
def JobState.stopped (state : JobState) : JobState :=
  { state with cancelled := true }

namespace Plan

variable {α : Type} {context : JobContext} {names : Renaming}

/-- What a plan leaves out when the job has been asked to stop just before:
all its tasks.  It is cancelled unless it has none. -/
structure Stopped (context : JobContext) (names : Renaming) (plan : Plan α)
    (state : JobState) (ending : Except FailureReason α × JobState) :
    Prop where
  quiet : state.stopped.Quiet ending.2
  warnings : ending.2.warnings <+: (plan.run context names state).2.warnings
  cancelled : ending.1 = .error .cancelled ∨
    plan.journal context names state = [] ∧
      ending.1 = (plan.run context names state).1 ∧
      ending.2.warnings = (plan.run context names state).2.warnings

theorem Guarded.stopped {plan : Plan α} (guarded : plan.Guarded false)
    {observer : Observer} {state : JobState} (live : state.cancelled = false) :
    Stopped context names plan state
      (plan.run { context with observer } names state.stopped) := by
  generalize isFalse : false = asked at guarded
  induction guarded generalizing state with
  | done value =>
      exact ⟨.refl _, List.prefix_refl _, .inr ⟨rfl, rfl, rfl⟩⟩
  | fail ownReason =>
      exact ⟨.refl _, List.prefix_refl _, .inr ⟨rfl, rfl, rfl⟩⟩
  | @check _ next =>
      exact ⟨.refl _, (Course.of_run _ _ (.check next) state).warnings_grow,
        .inl rfl⟩
  | look _ induction => 
      obtain ⟨quiet, warnings, cancelled⟩ :=
        induction state.world.tree live isFalse
      exact ⟨quiet, warnings, cancelled⟩
  | @note _ severity message _ _ induction =>
      obtain ⟨quiet, warnings, cancelled⟩ := @induction
        { state with world := state.world.note severity message } live isFalse
      exact ⟨(JobState.Quiet.note state.stopped severity message).trans quiet,
        warnings, cancelled⟩
  | @warn _ path message _ _ induction =>
      obtain ⟨quiet, warnings, cancelled⟩ := @induction
        { state with warnings := state.warnings ++ [⟨path, message⟩] } live
        isFalse
      exact ⟨(JobState.Quiet.warn state.stopped path message).trans quiet,
        warnings, cancelled⟩
  | act => cases isFalse

/-- How a run ends that an observer has asked to stop at the event of one
moment, beside the whole run with the moments that come later in it. -/
structure Cut (root : Path) (moment : Moment) (later : List Moment)
    (whole ending : Except FailureReason α × JobState) : Prop where
  events : ending.2.events = moment.events root
  warnings : ending.2.warnings <+: whole.2.warnings
  /-- Another task would have followed: it is left out. -/
  before : ∀ next ∈ later.head?, ending.1 = .error .cancelled ∧
    ending.2.world.tree = next.state.world.tree ∧
    ending.2.stats = next.state.stats
  /-- All tasks have been done. -/
  complete : later = [] →
    ending.2.world.tree = whole.2.world.tree ∧
    ending.2.stats = whole.2.stats ∧
    (ending.1 = .error .cancelled ∨
      ending.1 = whole.1 ∧ ending.2.warnings = whole.2.warnings)

/-- What a stopped job leaves is what the other one has reached at its next
event. -/
theorem Stopped.cut {plan : Plan α} {state : JobState} {moment : Moment}
    {ending : Except FailureReason α × JobState}
    (stopped : Stopped context names plan state ending)
    (events : state.events = moment.events context.root) :
    Cut context.root moment (plan.journal context names state)
      (plan.run context names state) ending where
  events := stopped.quiet.events.trans events
  warnings := stopped.warnings
  before next isNext := by
    have course := Course.of_run context names plan state
    have cancelled := stopped.cancelled
    cases journal : plan.journal context names state with
    | nil =>
        rw [journal] at isNext
        cases isNext
    | cons first rest =>
        rw [journal] at isNext course cancelled
        cases isNext
        cases course with
        | act quiet goesOn =>
            refine ⟨?_, stopped.quiet.tree.trans quiet.tree.symm,
              stopped.quiet.stats.trans quiet.stats.symm⟩
            rcases cancelled with cancelled | ⟨noMoments, -⟩
            · exact cancelled
            · cases noMoments
  complete noMoments := by
    have course := Course.of_run context names plan state
    rw [noMoments] at course
    cases course with
    | rest quiet =>
        refine ⟨stopped.quiet.tree.trans quiet.tree.symm,
          stopped.quiet.stats.trans quiet.stats.symm, ?_⟩
        exact stopped.cancelled.imp_right And.right

/-- Two observers that leave the same world behind see the same task done. -/
theorem effectIn_of_reported {observer : Observer} {task : Task}
    {state : JobState} {cancelled : Bool}
    (same : task.reported { context with observer } state =
      { task.reported context state with cancelled }) :
    task.effectIn { context with observer } names state =
      task.effectIn context names state := by
  rw [Task.effectIn, Task.effectIn, same]

theorem carriedOut_of_reported {observer : Observer} {task : Task}
    {state : JobState} {cancelled : Bool}
    (same : task.reported { context with observer } state =
      { task.reported context state with cancelled }) :
    task.carriedOut { context with observer } names state =
      { task.carriedOut context names state with cancelled } := by
  rw [Task.carriedOut, effectIn_of_reported same, same]
  rfl

/-- An observer that does nothing but ask to stop at one event. -/
theorem reported_canceller (watches : context.observer = .passive)
    (index : Nat) (task : Task) (state : JobState) :
    task.reported { context with
        observer := (Script.cancel index .done).observer } state =
      { task.reported context state with
        cancelled := state.cancelled || index = state.events.length } := by
  simp [Task.reported, JobM.reported, watches, Script.observer, Script.reply,
    Observer.passive, Reply.unchanged]

/-- If an observer asks to stop at the event of one moment, the job stops right
after the task of this moment. -/
theorem Guarded.cut {plan : Plan α} {asked : Bool}
    (guarded : plan.Guarded asked) {index : Nat} {moment : Moment}
    {earlier later : List Moment} {state : JobState}
    (watches : context.observer = .passive) (live : state.cancelled = false)
    (moments : plan.journal context names state = earlier ++ moment :: later)
    (atMoment : index = state.events.length + earlier.length) :
    Cut context.root moment later (plan.run context names state)
      (plan.run { context with
        observer := (Script.cancel index .done).observer } names state) := by
  induction guarded generalizing state earlier with
  | done value => simp [journal] at moments
  | fail ownReason => simp [journal] at moments
  | check _ induction =>
      have goesOn : ¬ state.cancelled = true := by simp [live]
      rw [journal, if_neg goesOn] at moments
      rw [run, run, if_neg goesOn, if_neg goesOn]
      exact induction live moments atMoment
  | look _ induction => exact induction _ live moments atMoment
  | @note _ severity message _ _ induction =>
      exact @induction _
        { state with world := state.world.note severity message } live moments
        atMoment
  | @warn _ path message _ _ induction =>
      exact @induction _
        { state with warnings := state.warnings ++ [⟨path, message⟩] } live
        moments atMoment
  | @act task next nextGuarded induction =>
      have stillLive : (task.carriedOut context names state).cancelled =
          false := by
        change (state.cancelled || (context.observer _ state.world).cancels) =
          false
        rw [watches, live]
        rfl
      have reported := reported_canceller watches index task state
      rw [live, Bool.false_or] at reported
      rw [journal] at moments
      rw [run, run, effectIn_of_reported reported,
        carriedOut_of_reported reported]
      cases earlier with
      | nil =>
          obtain ⟨rfl, rfl⟩ := List.cons.inj moments
          have now : index = state.events.length := atMoment
          rw [decide_eq_true now]
          exact ((nextGuarded _).stopped stillLive).cut rfl
      | cons first rest =>
          obtain ⟨rfl, following⟩ := List.cons.inj moments
          have later : (task.carriedOut context names state).events.length =
              state.events.length + 1 := List.length_append
          rw [List.length_cons] at atMoment
          have notYet : index ≠ state.events.length := by omega
          rw [decide_eq_false notYet, ← stillLive]
          exact induction _ stillLive following (by omega)

/-! ### Asking before the start -/

/-- A plan that asks whether to stop before it does anything else. -/
inductive Asks : Plan α → Prop
  | check (next : Plan α) : Asks (.check next)
  | look {next : Tree → Plan α} (later : ∀ tree, Asks (next tree)) :
      Asks (.look next)
  | note {severity : Severity} {message : String} {next : Plan α}
      (later : Asks next) : Asks (.note severity message next)

theorem Asks.bind {β : Type} {plan : Plan α} (asks : plan.Asks)
    (goesOn : α → Plan β) : (plan >>= goesOn).Asks := by
  change (plan.bind goesOn).Asks
  induction asks with
  | check next => exact .check _
  | look _ induction => exact .look induction
  | note _ induction => exact .note induction

/-- A job that has been asked to stop from the start adds only log records. -/
theorem Asks.run_eq {plan : Plan α} (asks : plan.Asks) (context : JobContext)
    (names : Renaming) {state : JobState} (cancelled : state.cancelled = true) :
    ∃ log, plan.run context names state =
      (.error .cancelled, { state with world := { state.world with log } }) := by
  induction asks generalizing state with
  | check next => exact ⟨state.world.log, if_pos cancelled⟩
  | look _ induction => exact induction _ cancelled
  | @note severity message _ _ induction =>
      obtain ⟨log, isRun⟩ := @induction
        { state with world := state.world.note severity message } cancelled
      exact ⟨log, isRun⟩

theorem Asks.walk {visit : Tree.Visited → Plan Unit}
    (each : ∀ visited, (visit visited).Asks) (root : Path) :
    (Tree.walk tree visit root).Asks := by
  refine .look fun found => ?_
  rw [Plan.bind]
  cases found.kindOf root with
  | error fault => exact each _
  | ok kind =>
      dsimp only
      cases found.classify [] root kind with
      | directory path => exact (each _).bind _
      | file path => exact each _
      | failure path fault => exact each _

theorem asks_updatePackage (roots : List String) :
    (updatePackage context names roots).Asks := by
  refine .look fun found => ?_
  change Asks (Plan.bind (ite (found.isDirectory _ = true) _ _) _)
  split
  · exact (Asks.walk (fun visited => .check _) _).bind _
  · exact .note (.check _)

end Plan

namespace Job

variable (job : Job) (world : World) {roots : List String}

/-- The whole run of a job that is only watched. -/
def watched : Report × World :=
  job.run .passive false world

/-- The run of the same job with an observer that asks it to stop at one event,
counted from zero. -/
def stoppedAt (index : Nat) : Report × World :=
  job.run (Script.cancel index .done).observer false world

/-- What asking a job to stop at one of its events comes to, beside the moments
of the whole run. -/
structure Truncates (roots : List String) (index : Nat) : Prop where
  moments : (job.watched world).1.events =
    (job.journal .passive false roots world).map (·.event job.root)
  events : (job.stoppedAt world index).1.events =
    (job.watched world).1.events.take (index + 1)
  warnings : (job.stoppedAt world index).1.result.warnings <+:
    (job.watched world).1.result.warnings
  /-- The job stops where it was about to report another event. -/
  before : ∀ next ∈ (job.journal .passive false roots world)[index + 1]?,
    (job.stoppedAt world index).1.result.failure = some .cancelled ∧
      (job.stoppedAt world index).2.tree = next.state.world.tree ∧
      (job.stoppedAt world index).1.result.stats = next.state.stats
  /-- The request came with the last event. -/
  complete : index + 1 = (job.watched world).1.events.length →
    (job.stoppedAt world index).2.tree = (job.watched world).2.tree ∧
      (job.stoppedAt world index).1.result.stats =
        (job.watched world).1.result.stats ∧
      ((job.stoppedAt world index).1.result.failure = some .cancelled ∨
        (job.stoppedAt world index).1.result = (job.watched world).1.result)

variable {job world}

/-- The stages of a job that is asked to stop at one event, beside those of the
whole run. -/
theorem cut_stages {earlier later : List Moment} {moment : Moment}
    (journal : job.journal .passive false roots world =
      earlier ++ moment :: later) :
    Plan.Cut job.root moment later (job.stages .passive false roots world)
      (job.stages (Script.cancel earlier.length .done).observer false roots
        world) :=
  (Plan.guarded_updatePackage roots).cut rfl rfl journal
    (Nat.zero_add _).symm

theorem Opens.truncates (opens : job.Opens world roots) {index : Nat}
    (isEvent : index < (job.watched world).1.events.length) :
    job.Truncates world roots index := by
  have allEvents : (job.watched world).1.events =
      (job.journal .passive false roots world).map (·.event job.root) :=
    opens.events_eq .passive false
  obtain ⟨earlier, moment, later, journal, rfl⟩ :
      ∃ earlier moment later, job.journal .passive false roots world =
        earlier ++ moment :: later ∧ earlier.length = index := by
    rw [allEvents, List.length_map] at isEvent
    have parts := List.take_append_drop index
      (job.journal .passive false roots world)
    rw [← List.getElem_cons_drop isEvent] at parts
    exact ⟨_, _, _, parts.symm,
      List.length_take_of_le (Nat.le_of_lt isEvent)⟩
  have cut := cut_stages journal
  obtain ⟨wholeReport, wholeTree⟩ := opens.run_eq .passive false
  obtain ⟨cutReport, cutTree⟩ :=
    opens.run_eq (Script.cancel earlier.length .done).observer false
  refine ⟨allEvents, ?_, ?_, fun next isNext => ?_, fun isLast => ?_⟩
  · have throughMoment : earlier.length + 1 = (earlier ++ [moment]).length := by
      rw [List.length_append, List.length_singleton]
    rw [stoppedAt, cutReport, allEvents, journal, ← List.map_take,
      List.append_cons, throughMoment, List.take_left, List.map_append,
      ← events_before journal]
    exact cut.events
  · rw [stoppedAt, watched, cutReport, wholeReport, JobState.result_warnings,
      JobState.result_warnings]
    exact cut.warnings
  · have follows : next ∈ later.head? := by
      rw [journal, List.append_cons, List.getElem?_append_right (by simp),
        List.length_append, List.length_singleton, Nat.sub_self] at isNext
      rwa [List.head?_eq_getElem?]
    obtain ⟨ending, tree, stats⟩ := cut.before next follows
    rw [stoppedAt, cutReport, cutTree]
    refine ⟨(JobState.result_failure_iff _ _).mpr ending, tree, ?_⟩
    rw [JobState.result_stats, stats]
  · have noLater : later = [] := by
      rw [allEvents, journal, List.length_map, List.length_append,
        List.length_cons] at isLast
      exact List.eq_nil_of_length_eq_zero (by omega)
    obtain ⟨tree, stats, ending⟩ := cut.complete noLater
    rw [stoppedAt, watched, cutReport, cutTree, wholeReport, wholeTree]
    refine ⟨tree, by rw [JobState.result_stats, JobState.result_stats, stats],
      ?_⟩
    rcases ending with cancelled | ⟨same, warnings⟩
    · exact .inl ((JobState.result_failure_iff _ _).mpr cancelled)
    · rw [same]
      exact .inr (JobState.result_congr _ _ warnings stats)

/-- A job that has been asked to stop from the start does nothing at all once it
comes to its stages. -/
theorem Opens.run_cancelled (opens : job.Opens world roots)
    (observer : Observer) :
    (job.run observer true world).1 = bareReport (.failed .cancelled [] .zero) ∧
      (job.run observer true world).2.tree = world.tree := by
  obtain ⟨report, tree⟩ := opens.run_eq observer true
  have asks : (job.plan observer roots).Asks := Plan.asks_updatePackage roots
  obtain ⟨log, isRun⟩ := @Plan.Asks.run_eq _ _ asks (job.context observer)
    job.names (.initial (job.claimed world) true) rfl
  have ends : job.stages observer true roots world = _ := isRun
  rw [report, tree, ends]
  exact ⟨rfl, rfl⟩

/-- A job is cancelled only if its observer has asked it to stop. -/
theorem asked_of_cancelled {observer : Observer} {cancelled : Bool}
    (failed : (job.run observer cancelled world).1.result.failure =
      some .cancelled) :
    ∃ roots, job.Opens world roots ∧
      (cancelled = true ∨
        ∃ moment ∈ job.journal observer cancelled roots world,
          (moment.reply (job.context observer)).cancels = true) := by
  by_cases opened : ∃ roots, job.Opens world roots
  · obtain ⟨roots, opens⟩ := opened
    refine ⟨roots, opens, ?_⟩
    rw [(opens.run_eq observer cancelled).1, JobState.result_failure_iff]
      at failed
    have guarded : (job.plan observer roots).Guarded false :=
      Plan.guarded_updatePackage roots
    have isCancelled := guarded.cancelled_of_run _ failed
    have course := course_stages job observer cancelled roots world
    have asked := course.cancelled_eq.symm.trans isCancelled
    rwa [Bool.or_eq_true, List.any_eq_true] at asked
  · obtain ⟨result, refused, report, -⟩ :=
      run_refused (not_exists.mp opened) observer cancelled
    rw [report] at failed
    cases refused <;> cases failed

/-- Asking a job to stop cuts it off between two tasks and does nothing else: at
one of its events, before its start, or not at all. -/
theorem run_cancelling (job : Job) (world : World) :
    (∀ index, index < (job.watched world).1.events.length →
        ∃ roots, job.Opens world roots ∧ job.Truncates world roots index) ∧
      (∀ roots observer, job.Opens world roots →
        (job.run observer true world).1 =
            bareReport (.failed .cancelled [] .zero) ∧
          (job.run observer true world).2.tree = world.tree) ∧
      ∀ observer,
        (job.run observer false world).1.result.failure = some .cancelled →
        ∃ roots, job.Opens world roots ∧
          ∃ moment ∈ job.journal observer false roots world,
            (moment.reply (job.context observer)).cancels = true := by
  refine ⟨fun index isEvent => ?_, fun roots observer opens => ?_,
    fun observer failed => ?_⟩
  · by_cases opened : ∃ roots, job.Opens world roots
    · obtain ⟨roots, opens⟩ := opened
      exact ⟨roots, opens, opens.truncates isEvent⟩
    · obtain ⟨result, -, report, -⟩ :=
        run_refused (not_exists.mp opened) .passive false
      rw [watched, report] at isEvent
      cases isEvent
  · exact opens.run_cancelled observer
  · obtain ⟨roots, opens, asked⟩ := asked_of_cancelled failed
    exact ⟨roots, opens, asked.resolve_left Bool.false_ne_true⟩

/-- A package whose job has three events. -/
def threeTaskTree : Tree :=
  .holding [("p/AndroidManifest.xml", "<manifest package=\"a\"/>"),
    ("p/smali/a/Main.smali", "La/Main;")]

def threeTaskJob : Job :=
  .of (Path.ofString "p") "a" "b" .standard

/-- Asked to stop at the manifest, the job renames the manifest only. -/
theorem run_cancelling_at_manifest :
    (0 < (threeTaskJob.watched (.ofTree threeTaskTree)).1.events.length ∧
      ∃ roots, threeTaskJob.Opens (.ofTree threeTaskTree) roots ∧
        threeTaskJob.Truncates (.ofTree threeTaskTree) roots 0) ∧
      (threeTaskJob.run .passive true (.ofTree threeTaskTree)).1 =
        bareReport (.failed .cancelled [] .zero) ∧
      ∃ roots, threeTaskJob.Opens (.ofTree threeTaskTree) roots ∧
        ∃ moment ∈ threeTaskJob.journal (Script.cancel 1 .done).observer false
            roots (.ofTree threeTaskTree),
          (moment.reply (threeTaskJob.context
            (Script.cancel 1 .done).observer)).cancels = true := by
  have opens : threeTaskJob.Opens (.ofTree threeTaskTree) ["smali"] :=
    ⟨by decide, by decide, by decide, List.not_mem_nil, by decide +kernel⟩
  obtain ⟨atEvents, fromStart, ifCancelled⟩ :=
    run_cancelling threeTaskJob (.ofTree threeTaskTree)
  have events : 0 < (threeTaskJob.watched
      (.ofTree threeTaskTree)).1.events.length := by
    decide +kernel
  exact ⟨⟨events, atEvents 0 events⟩,
    (fromStart ["smali"] .passive opens).1,
    ifCancelled _ (by decide +kernel)⟩

end Job

end PackageRename
