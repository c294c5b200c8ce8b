import PackageRename.Job.Run
import PackageRename.Proofs.Job.Package
import PackageRename.Proofs.Job.Plan

/-!
# The journal of a job

The journal lists the moments in which a job reports its events, each with the
state of the job just before.  Between two moments nothing happens but warnings
and log records, so the journal accounts for the events, the counters and the
tree that the job leaves.
-/

namespace PackageRename

/-- A job on the point of reporting the event of a task. -/
structure Moment where
  state : JobState
  task : Task

namespace Moment

variable (context : JobContext) (names : Renaming)

def event (root : Path) (moment : Moment) : ProgressEvent :=
  moment.task.event root

/-- The events up to and including that of the moment. -/
def events (root : Path) (moment : Moment) : List ProgressEvent :=
  moment.state.events ++ [moment.event root]

/-- What the observer makes of the event. -/
def reply (moment : Moment) : Reply :=
  context.observer (moment.events context.root) moment.state.world

/-- What the task does once the observer has reacted. -/
def effect (moment : Moment) : Effect moment.task.stage.Answer :=
  moment.task.effectIn context names moment.state

/-- The state after the task. -/
def after (moment : Moment) : JobState :=
  moment.task.carriedOut context names moment.state

theorem events_after (moment : Moment) :
    (moment.after context names).events = moment.events context.root := rfl

theorem cancelled_after (moment : Moment) :
    (moment.after context names).cancelled =
      (moment.state.cancelled || (moment.reply context).cancels) := rfl

end Moment

namespace Plan

variable {α β : Type}

/-- The moments that running a plan comes to. -/
def journal (context : JobContext) (names : Renaming) :
    Plan α → JobState → List Moment
  | done _, _ => []
  | fail _, _ => []
  | check next, state =>
      if state.cancelled then [] else next.journal context names state
  | look next, state => (next state.world.tree).journal context names state
  | note severity message next, state =>
      next.journal context names
        { state with world := state.world.note severity message }
  | warn path message next, state =>
      next.journal context names
        { state with warnings := state.warnings ++ [⟨path, message⟩] }
  | act task next, state =>
      ⟨state, task⟩ ::
        (next (task.effectIn context names state).answer).journal context names
          (task.carriedOut context names state)

variable {context : JobContext} {names : Renaming}

theorem journal_bind (plan : Plan α) (goesOn : α → Plan β) (state : JobState) :
    (plan >>= goesOn).journal context names state =
      plan.journal context names state ++
        match plan.run context names state with
        | (.ok value, reached) => (goesOn value).journal context names reached
        | (.error _, _) => [] := by
  change (plan.bind goesOn).journal context names state = _
  induction plan generalizing state with
  | done value => rfl
  | fail reason => rfl
  | check next induction =>
      rw [bind, journal, journal, run]
      split
      · rfl
      · exact induction state
  | look next induction => exact induction state.world.tree state
  | note severity message next induction => exact induction _
  | warn path message next induction => exact induction _
  | act task next induction =>
      exact congrArg (_ :: ·) (induction _ _)

end Plan

/-! ### What happens between moments -/

/-- Nothing but warnings and log records has been added. -/
structure JobState.Quiet (before after : JobState) : Prop where
  tree : after.world.tree = before.world.tree
  held : after.world.held = before.world.held
  cancelled : after.cancelled = before.cancelled
  events : after.events = before.events
  nested : after.nested = before.nested
  stats : after.stats = before.stats
  warnings : before.warnings <+: after.warnings

theorem JobState.Quiet.refl (state : JobState) : state.Quiet state :=
  ⟨rfl, rfl, rfl, rfl, rfl, rfl, List.prefix_refl _⟩

theorem JobState.Quiet.note (state : JobState) (severity : Severity)
    (message : String) :
    state.Quiet { state with world := state.world.note severity message } :=
  ⟨rfl, rfl, rfl, rfl, rfl, rfl, List.prefix_refl _⟩

theorem JobState.Quiet.warn (state : JobState) (path : Path)
    (message : String) :
    state.Quiet { state with
      warnings := state.warnings ++ [⟨path, message⟩] } :=
  ⟨rfl, rfl, rfl, rfl, rfl, rfl, List.prefix_append _ _⟩

theorem JobState.Quiet.trans {first second third : JobState}
    (before : first.Quiet second) (after : second.Quiet third) :
    first.Quiet third :=
  ⟨after.tree.trans before.tree, after.held.trans before.held,
    after.cancelled.trans before.cancelled, after.events.trans before.events,
    after.nested.trans before.nested, after.stats.trans before.stats,
    before.warnings.trans after.warnings⟩

/-- From one state to another through the given moments. -/
inductive Course (context : JobContext) (names : Renaming) :
    JobState → List Moment → JobState → Prop where
  | rest {state reached : JobState} (quiet : state.Quiet reached) :
      Course context names state [] reached
  | act {state reached : JobState} {moment : Moment} {later : List Moment}
      (quiet : state.Quiet moment.state)
      (goesOn : Course context names (moment.after context names) later
        reached) :
      Course context names state (moment :: later) reached

namespace Course

variable {context : JobContext} {names : Renaming}
variable {state before reached : JobState} {moments : List Moment}

theorem of_quiet (quiet : before.Quiet state)
    (course : Course context names state moments reached) :
    Course context names before moments reached := by
  cases course with
  | rest last => exact .rest (quiet.trans last)
  | act first goesOn => exact .act (quiet.trans first) goesOn

/-- Running a plan is a course through the moments of its journal. -/
theorem of_run {α : Type} (context : JobContext) (names : Renaming)
    (plan : Plan α) (state : JobState) :
    Course context names state (plan.journal context names state)
      (plan.run context names state).2 := by
  induction plan generalizing state with
  | done value => exact .rest (.refl state)
  | fail reason => exact .rest (.refl state)
  | check next induction =>
      rw [Plan.journal, Plan.run]
      split
      · exact .rest (.refl state)
      · exact induction state
  | look next induction => exact induction state.world.tree state
  | note severity message next induction =>
      exact .of_quiet (.note state severity message) (induction _)
  | warn path message next induction =>
      exact .of_quiet (.warn state path message) (induction _)
  | act task next induction => exact .act (.refl state) (induction _ _)

theorem events_eq (course : Course context names state moments reached) :
    reached.events = state.events ++ moments.map (·.event context.root) := by
  induction course with
  | rest quiet => rw [quiet.events, List.map_nil, List.append_nil]
  | act quiet goesOn induction =>
      rw [induction, Moment.events_after, Moment.events, quiet.events,
        List.map_cons, ← List.append_cons]

/-- The job has been asked to stop from the start or by the observer. -/
theorem cancelled_eq (course : Course context names state moments reached) :
    reached.cancelled =
      (state.cancelled || moments.any fun moment =>
        (moment.reply context).cancels) := by
  induction course with
  | rest quiet => rw [quiet.cancelled, List.any_nil, Bool.or_false]
  | act quiet goesOn induction =>
      rw [induction, Moment.cancelled_after, quiet.cancelled, List.any_cons,
        Bool.or_assoc]

/-- Warnings are only added. -/
theorem warnings_grow
    (course : Course context names state moments reached) :
    state.warnings <+: reached.warnings := by
  induction course with
  | rest quiet => exact quiet.warnings
  | act quiet goesOn induction => exact quiet.warnings.trans induction

/-- Before a moment the events of the earlier moments have been reported. -/
theorem events_before {earlier later : List Moment} {moment : Moment}
    (course : Course context names state (earlier ++ moment :: later) reached) :
    moment.state.events =
      state.events ++ earlier.map (·.event context.root) := by
  induction earlier generalizing state with
  | nil =>
      cases course with
      | act quiet goesOn => rw [quiet.events, List.map_nil, List.append_nil]
  | cons first rest induction =>
      cases course with
      | act quiet goesOn =>
          rw [induction goesOn, Moment.events_after, Moment.events,
            quiet.events, List.map_cons, ← List.append_cons]

end Course

/-! ### Whole jobs -/

/-- What is reported at the end of the stages. -/
def JobState.result (state : JobState) :
    Except FailureReason Unit → JobResult
  | .ok () => .succeeded state.warnings state.stats
  | .error reason => .failed reason state.warnings state.stats

namespace JobState

variable (state : JobState) (ending : Except FailureReason Unit)

@[simp]
theorem result_warnings : (state.result ending).warnings = state.warnings := by
  cases ending <;> rfl

@[simp]
theorem result_stats : (state.result ending).stats = state.stats := by
  cases ending <;> rfl

theorem result_failure_iff {reason : FailureReason} :
    (state.result ending).failure = some reason ↔ ending = .error reason := by
  cases ending with
  | ok value => exact ⟨nofun, nofun⟩
  | error other =>
      exact ⟨fun same => congrArg _ (Option.some.inj same),
        fun same => congrArg _ (Except.error.inj same)⟩

theorem result_congr {other : JobState}
    (sameWarnings : state.warnings = other.warnings)
    (sameStats : state.stats = other.stats) :
    state.result ending = other.result ending := by
  cases ending <;> simp [result, sameWarnings, sameStats]

theorem result_success_iff :
    (state.result ending).success = true ↔ ending = .ok () := by
  cases ending with
  | ok value => exact ⟨fun _ => rfl, fun _ => rfl⟩
  | error reason => exact ⟨nofun, nofun⟩

end JobState

namespace Job

variable (job : Job)

/-- The job comes to its stages: both names are there and differ, no other job
holds the root, and the root can be listed. -/
structure Opens (world : World) (roots : List String) : Prop where
  sourceNamed : job.names.source.isEmpty = false
  targetNamed : job.names.target.isEmpty = false
  different : job.names.source ≠ job.names.target
  unclaimed : RootKey.of job.root world.tree ∉ world.held
  found : bytecodeRoots job.root job.options world.tree = .ok roots

/-- The world in which the stages begin. -/
def claimed (world : World) : World :=
  let noted := world.note .info
    s!"Cloning {job.root.display} from {job.names.source.name} to {
      job.names.target.name}"
  { noted with held := RootKey.of job.root world.tree :: world.held }

def plan (observer : Observer) (roots : List String) : Plan Unit :=
  .updatePackage (job.context observer) job.names roots

/-- What the stages come to. -/
def stages (observer : Observer) (cancelled : Bool) (roots : List String)
    (world : World) : Except FailureReason Unit × JobState :=
  (job.plan observer roots).run (job.context observer) job.names
    (.initial (job.claimed world) cancelled)

/-- The moments in which the stages report their events. -/
def journal (observer : Observer) (cancelled : Bool) (roots : List String)
    (world : World) : List Moment :=
  (job.plan observer roots).journal (job.context observer) job.names
    (.initial (job.claimed world) cancelled)

variable {job} {observer : Observer} {cancelled : Bool} {world : World}
variable {roots : List String}

/-- A job that comes to its stages reports what they come to. -/
theorem Opens.run_eq (opens : job.Opens world roots) (observer : Observer)
    (cancelled : Bool) :
    (job.run observer cancelled world).1 =
        ⟨(job.stages observer cancelled roots world).2.result
            (job.stages observer cancelled roots world).1,
          (job.stages observer cancelled roots world).2.events,
          (job.stages observer cancelled roots world).2.nested⟩ ∧
      (job.run observer cancelled world).2.tree =
        (job.stages observer cancelled roots world).2.world.tree := by
  have found : bytecodeRoots job.root job.options (job.claimed world).tree =
      .ok roots := opens.found
  have ends : (job.runStages observer cancelled roots (job.claimed world)).1 =
        ⟨(job.stages observer cancelled roots world).2.result
            (job.stages observer cancelled roots world).1,
          (job.stages observer cancelled roots world).2.events,
          (job.stages observer cancelled roots world).2.nested⟩ ∧
      (job.runStages observer cancelled roots (job.claimed world)).2.tree =
        (job.stages observer cancelled roots world).2.world.tree := by
    have isRun : (JobM.updatePackage (job.context observer) job.names
        roots).run (.initial (job.claimed world) cancelled) =
        job.stages observer cancelled roots world :=
      Plan.describes_updatePackage roots _
    rw [runStages, isRun]
    rcases job.stages observer cancelled roots world with ⟨ending, state⟩
    cases ending <;> exact ⟨rfl, rfl⟩
  rw [run]
  generalize isNoted : world.note .info _ = noted
  have acquired : noted.acquire? (RootKey.of job.root noted.tree) =
      some (job.claimed world) := by
    rw [← isNoted]
    exact if_neg opens.unclaimed
  simp only [opens.sourceNamed, opens.targetNamed, Bool.or_false,
    Bool.false_eq_true, if_false, if_neg opens.different, acquired, runClaimed,
    found]
  exact ends

/-! ### Bytecode roots -/

/-- Bytecode roots are among the names in a directory. -/
theorem Opens.roots_sublist (opens : job.Opens world roots) :
    ∃ place, (roots.map Utf8.encode).Sublist
      ((world.tree.childrenOf place).map Prod.fst) := by
  have found := opens.found
  rw [bytecodeRoots] at found
  cases listed : world.tree.list job.root with
  | error fault =>
      rw [listed] at found
      cases found
  | ok entries =>
      rw [listed] at found
      obtain ⟨place, isListing⟩ : ∃ place,
          entries = (world.tree.childrenOf place).map fun child =>
            (child.1, child.2.kind) := by
        rw [Tree.list] at listed
        cases resolved : world.tree.resolve job.root with
        | error fault =>
            rw [resolved] at listed
            cases listed
        | ok place =>
            refine ⟨place, ?_⟩
            rw [resolved] at listed
            change ite (world.tree.hasDirectory place = true) _ _ = _ at listed
            split at listed
            · exact (Except.ok.inj listed).symm
            · cases listed
      refine ⟨place, ?_⟩
      have isRoots : entries.filterMap (fun entry =>
          world.tree.rootName? job.root job.options entry.1) = roots :=
        Except.ok.inj found
      rw [← isRoots, isListing]
      induction world.tree.childrenOf place with
      | nil => exact .slnil
      | cons child rest induction =>
          simp only [List.map_cons, List.filterMap_cons]
          cases isName : world.tree.rootName? job.root job.options child.1 with
          | none => exact induction.cons _
          | some name =>
              rw [List.map_cons, (Tree.rootName?_eq_some.mp isName).2.1]
              exact induction.cons_cons _

/-- Bytecode roots are processed in ascending order of their names. -/
theorem Opens.ascending_roots (opens : job.Opens world roots) :
    (roots.map Utf8.encode).Pairwise (· < ·) := by
  obtain ⟨place, sublist⟩ := opens.roots_sublist
  exact (world.tree.ascending_childrenOf place).sublist sublist

theorem Opens.isPlain_of_mem (opens : job.Opens world roots)
    (legal : world.tree.HasLegalNames) {name : String} (member : name ∈ roots) :
    Name.IsPlain (Utf8.encode name) := by
  obtain ⟨place, sublist⟩ := opens.roots_sublist
  have isEntry := sublist.subset (List.mem_map_of_mem member)
  rw [Tree.mem_names_childrenOf] at isEntry
  exact (legal _ isEntry _ (List.mem_append_right _ List.mem_cons_self)).plain

/-! ### Events -/

/-- The stages are a course through the moments of the journal. -/
theorem course_stages (job : Job) (observer : Observer) (cancelled : Bool)
    (roots : List String) (world : World) :
    Course (job.context observer) job.names
      (.initial (job.claimed world) cancelled)
      (job.journal observer cancelled roots world)
      (job.stages observer cancelled roots world).2 :=
  .of_run _ _ _ _

/-- The events of a job are those of the moments in its journal. -/
theorem Opens.events_eq (opens : job.Opens world roots) (observer : Observer)
    (cancelled : Bool) :
    (job.run observer cancelled world).1.events =
      (job.journal observer cancelled roots world).map (·.event job.root) := by
  rw [(opens.run_eq observer cancelled).1]
  exact (course_stages job observer cancelled roots world).events_eq

/-- At a moment the events of the earlier moments have been reported. -/
theorem events_before {earlier later : List Moment} {moment : Moment}
    (journal : job.journal observer cancelled roots world =
      earlier ++ moment :: later) :
    moment.state.events = earlier.map (·.event job.root) := by
  have course := course_stages job observer cancelled roots world
  rw [journal] at course
  exact course.events_before

/-- What a job comes to that never starts its stages. -/
inductive Refused (job : Job) : JobResult → Prop
  | unnamed (missing :
      (job.names.source.isEmpty || job.names.target.isEmpty) = true) :
      Refused job (.failed unnamed [] .zero)
  | same (isSame : job.names.source = job.names.target) :
      Refused job (.succeeded [] .zero)
  | busy : Refused job (.failed (.busy job.root) [] .zero)
  | packageRoot (fault : Fault) :
      Refused job (.failed (.packageRoot job.root fault.message) [] .zero)

/-- A job that does not come to its stages changes nothing and reports no
events. -/
theorem run_refused (closed : ∀ roots, ¬ job.Opens world roots)
    (observer : Observer) (cancelled : Bool) :
    ∃ result, job.Refused result ∧
      (job.run observer cancelled world).1 = bareReport result ∧
      (job.run observer cancelled world).2.tree = world.tree := by
  rw [run]
  generalize isNoted : world.note .info _ = noted
  have sameTree : noted.tree = world.tree := by
    rw [← isNoted]
    rfl
  have sameHeld : noted.held = world.held := by
    rw [← isNoted]
    rfl
  dsimp only
  split
  · rename_i missing
    exact ⟨_, .unnamed missing, rfl, sameTree⟩
  · rename_i named
    split
    · rename_i isSame
      exact ⟨_, .same isSame, rfl, sameTree⟩
    · rename_i different
      rw [Bool.not_eq_true, Bool.or_eq_false_iff] at named
      rw [World.acquire?]
      split
      · exact ⟨_, .busy, rfl, sameTree⟩
      · rename_i claims
        split at claims
        · cases claims
        · rename_i unclaimed
          cases claims
          rw [runClaimed]
          dsimp only
          cases found : bytecodeRoots job.root job.options noted.tree with
          | error fault => exact ⟨_, .packageRoot fault, rfl, sameTree⟩
          | ok roots =>
              rw [sameTree, sameHeld] at unclaimed
              rw [sameTree] at found
              exact absurd ⟨named.1, named.2, different, unclaimed, found⟩
                (closed roots)

end Job

end PackageRename
