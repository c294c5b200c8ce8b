import PackageRename.Proofs.Job.Journal
import PackageRename.Proofs.Job.Resources

/-!
# Accounts of jobs

A job shows what it processes by paths from the package root.  An account of all
that it comes upon is kept beside its run, with what it shows of each thing.
Joined to the root as that is written, what is shown leads back there.
-/

namespace PackageRename

/-! ### Encounters -/

/-- What a job comes upon in one of its stages, with the events that it reports
and the warnings that it adds while it processes it. -/
structure Encounter where
  stage : Stage
  visited : Tree.Visited
  events : List ProgressEvent
  warnings : List Warning
deriving DecidableEq

/-- There are events of files and, in the last stage, of bytecode roots. -/
def Stage.reports : Stage → Tree.Visited → Bool
  | .directoryStructure, _ => true
  | _, .file _ => true
  | _, _ => false

namespace Encounter

def path (encounter : Encounter) : Path := encounter.visited.path

def shown (root : Path) (encounter : Encounter) : Path :=
  encounter.path.relativeTo root

/-- What is shown of something leads back to it, and the package directory of a
bytecode root is shown by the name of the root. -/
structure LeadsBack (root : Path) (roots : List String)
    (encounter : Encounter) : Prop where
  events : encounter.events =
    if encounter.stage.reports encounter.visited then
      [.of encounter.stage (encounter.shown root)]
    else []
  warnings : ∀ warning ∈ encounter.warnings,
    encounter.stage = .resources ∧ warning.path = encounter.shown root
  components : (root.join (encounter.shown root)).components =
    encounter.path.components
  named : encounter.stage = .directoryStructure → ∃ name ∈ roots,
    encounter.path = root.join (Path.ofString name) ∧
      encounter.shown root = Path.ofString name

end Encounter

/-- The file that a failure is about and the stage in which it is processed. -/
def FailureReason.file? : FailureReason → Option (Stage × Path)
  | .manifest path _ => some (.manifest, path)
  | .bytecodeFile path _ => some (.bytecode, path)
  | _ => none

/-- If a failure is about a file, then it is the last that has been come
upon. -/
def FailureReason.IsAbout (root : Path) (encounters : List Encounter)
    (reason : FailureReason) : Prop :=
  ∀ file, reason.file? = some file → ∃ last, encounters.getLast? = some last ∧
    file = (last.stage, last.shown root)

theorem FailureReason.IsAbout.append {root : Path} {reason : FailureReason}
    {back : List Encounter} (isAbout : reason.IsAbout root back)
    (front : List Encounter) : reason.IsAbout root (front ++ back) := by
  intro file isFile
  obtain ⟨last, isLast, same⟩ := isAbout file isFile
  exact ⟨last, List.mem_getLast?_append_of_mem_getLast? isLast, same⟩

/-! ### Accounts -/

/-- A part of a job that keeps an account of what it comes upon. -/
abbrev AccountM := ExceptT FailureReason (StateM (JobState × List Encounter))

namespace AccountM

variable {α β : Type}

/-- A part of a job that comes upon nothing. -/
def silently (action : JobM α) : AccountM α :=
  ExceptT.mk fun (state, account) =>
    let (ending, reached) := action.run state
    (ending, reached, account)

/-- A part of a job that processes one thing, unless the job has been asked to
stop. -/
def entering (stage : Stage) (visited : Tree.Visited) (action : JobM α) :
    AccountM α :=
  ExceptT.mk fun (state, account) =>
    let (ending, reached) := action.run state
    (ending, reached,
      if state.cancelled then account
      else account ++ [⟨stage, visited,
        reached.events.drop state.events.length,
        reached.warnings.drop state.warnings.length⟩])

def tree : AccountM Tree := silently JobM.tree

/-! ### The stages of a job -/

section Stages

variable (context : JobContext) (names : Renaming)

def visitResource (visited : Tree.Visited) : AccountM Unit :=
  entering .resources visited (JobM.visitResource context names visited)

def updateResources (directory : Path) : AccountM Unit := do
  if (← tree).isDirectory directory then
    Tree.walk tree (visitResource context names) directory
  else
    silently (JobM.note .debug
      s!"No resource directory at {directory.display}, skipping")

def updateManifest (manifest : Path) : AccountM Outcome :=
  entering .manifest (.file manifest)
    (JobM.updateManifest context names manifest)

def visitBytecode (visited : Tree.Visited) : AccountM Unit :=
  entering .bytecode visited (JobM.visitBytecode context names visited)

def relocate (name : String) (base : Path) : AccountM Unit :=
  entering .directoryStructure (.directory base)
    (JobM.relocate context names name base)

def updateBytecodeRoot (name : String) : AccountM Unit := do
  let base := context.root.join (Path.ofString name)
  Tree.walk tree (visitBytecode context names) base
  relocate context names name base

def updateBytecode (roots : List String) : AccountM Unit :=
  roots.forM (updateBytecodeRoot context names)

def updatePackage (roots : List String) : AccountM Unit := do
  updateResources context names (JobM.resourceDirectory context)
  let _ ← updateManifest context names (JobM.manifestFile context)
  updateBytecode context names roots

end Stages

theorem run_bind (action : AccountM α) (next : α → AccountM β)
    (state : JobState × List Encounter) :
    (action >>= next).run state =
      match action.run state with
      | (.ok value, reached) => (next value).run reached
      | (.error reason, reached) => (.error reason, reached) := by
  simp only [ExceptT.run, bind, ExceptT.bind, ExceptT.mk, StateT.bind,
    ExceptT.bindCont]
  rcases action state with ⟨ending, reached⟩
  cases ending <;> rfl

end AccountM

/-! ### What is shown of one thing -/

/-- What processing one thing adds to a state: its event, warnings if it is a
resource, and a failure if it is about this file. -/
structure Processes {α : Type} (root : Path) (stage : Stage)
    (visited : Tree.Visited) (state : JobState)
    (ending : Except FailureReason α) (after : JobState) : Prop where
  events : after.events = state.events ++
    if stage.reports visited then
      [.of stage (visited.path.relativeTo root)]
    else []
  warnings : ∃ warnings, after.warnings = state.warnings ++ warnings ∧
    ∀ warning ∈ warnings,
      stage = .resources ∧ warning.path = visited.path.relativeTo root
  failure : ∀ reason file, ending = .error reason →
    reason.file? = some file → file = (stage, visited.path.relativeTo root)

namespace Processes

variable {α : Type} {root : Path} {stage : Stage} {visited : Tree.Visited}
variable {state after : JobState} {ending : Except FailureReason α}

/-- It has nothing to warn about. -/
theorem of_warnings (events : after.events = state.events ++
      if stage.reports visited then
        [.of stage (visited.path.relativeTo root)]
      else [])
    (warnings : after.warnings = state.warnings)
    (failure : ∀ reason file, ending = .error reason →
      reason.file? = some file →
        file = (stage, visited.path.relativeTo root)) :
    Processes root stage visited state ending after :=
  ⟨events, ⟨[], warnings.trans (List.append_nil _).symm,
    List.forall_mem_nil _⟩, failure⟩

/-- It is a resource that is warned about. -/
theorem of_warning {path : Path} {message : String} {value : α}
    (events : after.events = state.events ++
      if Stage.resources.reports visited then
        [.of .resources (visited.path.relativeTo root)]
      else [])
    (isShown : path = visited.path.relativeTo root)
    (warnings : after.warnings = state.warnings ++ [⟨path, message⟩]) :
    Processes root .resources visited state (.ok value) after :=
  ⟨events, ⟨_, warnings, List.forall_mem_singleton.mpr ⟨rfl, isShown⟩⟩, nofun⟩

end Processes

/-! ### What is shown of all that is come upon -/

/-- What these encounters leave a part of a job with. -/
structure Covers {α : Type} (root : Path) (roots : List String)
    (state : JobState) (encounters : List Encounter)
    (ending : Except FailureReason α) (after : JobState) : Prop where
  leadsBack : ∀ encounter ∈ encounters, encounter.LeadsBack root roots
  events : after.events = state.events ++ encounters.flatMap (·.events)
  warnings : after.warnings = state.warnings ++ encounters.flatMap (·.warnings)
  failure : ∀ reason, ending = .error reason → reason.IsAbout root encounters

/-- A part of a job is run with an account of what it comes upon. -/
def Accounts {α : Type} (root : Path) (roots : List String)
    (accounting : AccountM α) (action : JobM α) : Prop :=
  ∀ state account, ∃ encounters,
    accounting.run (state, account) =
      ((action.run state).1, (action.run state).2, account ++ encounters) ∧
    Covers root roots state encounters (action.run state).1 (action.run state).2

section Accounts

variable {α β : Type} {root : Path} {roots : List String}

theorem Accounts.bind {accounting : AccountM α} {action : JobM α}
    {goesOn : α → AccountM β} {next : α → JobM β}
    (first : Accounts root roots accounting action)
    (later : ∀ value, Accounts root roots (goesOn value) (next value)) :
    Accounts root roots (accounting >>= goesOn) (action >>= next) := by
  intro state account
  obtain ⟨front, isFirst, covers⟩ := first state account
  rw [AccountM.run_bind, JobM.run_bind, isFirst]
  generalize action.run state = outcome at covers
  rcases outcome with ⟨ending, between⟩
  cases ending with
  | error reason =>
      -- a failure leaves in the account what has been entered before
      refine ⟨front, rfl, covers.leadsBack, covers.events, covers.warnings,
        fun other same => ?_⟩
      cases same
      exact covers.failure reason rfl
  | ok value =>
      obtain ⟨back, isLater, coversLater⟩ :=
        later value between (account ++ front)
      refine ⟨front ++ back, ?_, ?_, ?_, ?_, ?_⟩
      · rw [← List.append_assoc]
        exact isLater
      · exact List.forall_mem_append.mpr
          ⟨covers.leadsBack, coversLater.leadsBack⟩
      · rw [coversLater.events, covers.events, List.flatMap_append,
          List.append_assoc]
      · rw [coversLater.warnings, covers.warnings, List.flatMap_append,
          List.append_assoc]
      · exact fun reason same => (coversLater.failure reason same).append front

/-- What comes upon nothing adds no events and no warnings, and does not
fail. -/
theorem accounts_silently {action : JobM α}
    (succeeds : ∀ state, ∃ value, (action.run state).1 = .ok value)
    (events : ∀ state, (action.run state).2.events = state.events)
    (warnings : ∀ state, (action.run state).2.warnings = state.warnings) :
    Accounts root roots (AccountM.silently action) action := by
  intro state account
  refine ⟨[], ?_, List.forall_mem_nil _, ?_, ?_, ?_⟩
  · rw [List.append_nil]
    rfl
  · exact (events state).trans (List.append_nil _).symm
  · exact (warnings state).trans (List.append_nil _).symm
  · intro reason fails
    obtain ⟨value, isValue⟩ := succeeds state
    rw [isValue] at fails
    cases fails

theorem accounts_pure (value : α) :
    Accounts root roots (pure value) (pure value) :=
  @accounts_silently α root roots (pure value) (fun _ => ⟨value, rfl⟩)
    (fun _ => rfl) fun _ => rfl

theorem accounts_tree : Accounts root roots AccountM.tree JobM.tree :=
  accounts_silently (fun _ => ⟨_, rfl⟩) (fun _ => rfl) fun _ => rfl

/-- What is found by joining something to the root leads back when it is
processed. -/
theorem accounts_entering {stage : Stage} {visited : Tree.Visited}
    {action : JobM α} (joined : ∃ back, visited.path = root.join back)
    (named : stage = .directoryStructure → ∃ name ∈ roots,
      visited.path = root.join (Path.ofString name) ∧
        visited.path.relativeTo root = Path.ofString name)
    (processes : ∀ state, Processes root stage visited state
      (action.run state).1 (action.run state).2) :
    Accounts root roots
      (AccountM.entering stage visited
        (JobM.checkCancelled >>= fun _ => action))
      (JobM.checkCancelled >>= fun _ => action) := by
  intro state account
  have isRun : (AccountM.entering stage visited
        (JobM.checkCancelled >>= fun _ => action)).run (state, account) =
      let (ending, reached) :=
        (JobM.checkCancelled >>= fun _ => action).run state
      (ending, reached,
        if state.cancelled then account
        else account ++ [⟨stage, visited,
          reached.events.drop state.events.length,
          reached.warnings.drop state.warnings.length⟩]) := rfl
  rw [isRun, JobM.run_bind, JobM.run_checkCancelled]
  cases state.cancelled with
  | true =>
      -- the request is honoured first, and nothing has been entered
      refine ⟨[], by rw [List.append_nil]; rfl, List.forall_mem_nil _,
        (List.append_nil _).symm, (List.append_nil _).symm, ?_⟩
      rintro reason same file isFile
      cases same
      cases isFile
  | false =>
      obtain ⟨events, ⟨warnings, isWarnings, areShown⟩, failure⟩ :=
        processes state
      have newEvents := congrArg (List.drop state.events.length) events
      have newWarnings := congrArg (List.drop state.warnings.length) isWarnings
      rw [List.drop_left] at newEvents newWarnings
      obtain ⟨back, isPath⟩ := joined
      refine ⟨_, rfl, List.forall_mem_singleton.mpr ⟨newEvents, ?_, ?_, named⟩,
        ?_, ?_, ?_⟩
      · intro warning member
        exact areShown warning (newWarnings ▸ member)
      · change (root.join (visited.path.relativeTo root)).components =
          visited.path.components
        rw [isPath]
        exact Path.components_join_shown root back
      · rw [List.flatMap_singleton]
        exact events.trans (congrArg _ newEvents.symm)
      · rw [List.flatMap_singleton]
        exact isWarnings.trans (congrArg _ newWarnings.symm)
      · intro reason fails file isFile
        exact ⟨_, rfl, failure reason file fails isFile⟩

theorem Accounts.forM {items : List β} {accounting : β → AccountM Unit}
    {action : β → JobM Unit}
    (each : ∀ item ∈ items,
      Accounts root roots (accounting item) (action item)) :
    Accounts root roots (items.forM accounting) (items.forM action) := by
  induction items with
  | nil => exact accounts_pure ()
  | cons head rest induction =>
      exact (each head List.mem_cons_self).bind fun _ =>
        induction fun item member => each item (List.mem_cons_of_mem _ member)

/-- A walk that starts from the root goes on from there. -/
theorem Accounts.walk {accounting : Tree.Visited → AccountM Unit}
    {action : Tree.Visited → JobM Unit}
    (each : ∀ visited : Tree.Visited, (∃ back, visited.path = root.join back) →
      Accounts root roots (accounting visited) (action visited))
    (back : Path) :
    Accounts root roots
      (Tree.walk AccountM.tree accounting (root.join back))
      (Tree.walk JobM.tree action (root.join back)) := by
  refine Tree.walk_related (Accounts root roots) (accounts_pure ())
    (fun first next => first.bind fun _ => next)
    (fun looks => accounts_tree.bind fun found => looks found trivial) each
    (fun _ _ (_ : True) _ => ⟨back, Tree.path_classify ..⟩)
    (fun _ _ _ _ => ⟨back, rfl⟩) ?_ fun _ _ joined => joined
  rintro tree later above path children ⟨name, kind⟩ - - ⟨inner, isPath⟩ - -
  refine ⟨inner.join ⟨name⟩, ?_⟩
  rw [Tree.path_classify, ← Path.join_assoc, ← isPath]
  rfl

end Accounts

/-! ### The stages -/

section Stages

variable {context : JobContext} {names : Renaming} {roots : List String}

theorem accounts_visitResource (visited : Tree.Visited)
    (joined : ∃ back, visited.path = context.root.join back) :
    Accounts context.root roots (AccountM.visitResource context names visited)
      (JobM.visitResource context names visited) := by
  refine accounts_entering joined nofun fun state => ?_
  cases visited with
  | directory path => exact .of_warnings (List.append_nil _).symm rfl nofun
  | failure path fault => exact .of_warning (List.append_nil _).symm rfl rfl
  | file path =>
      simp only [JobM.run_bind, JobM.run_emit, JobM.run_updateStats,
        JobM.run_perform]
      cases isAnswer : Effect.answer _ with
      | ok outcome => exact .of_warnings rfl rfl nofun
      | error error =>
          refine .of_warning rfl ?_ rfl
          rw [subject_of_updateFile isAnswer]
          rfl

theorem accounts_updateResources (back : Path) :
    Accounts context.root roots
      (AccountM.updateResources context names (context.root.join back))
      (JobM.updateResources context names (context.root.join back)) := by
  refine accounts_tree.bind fun found => ?_
  split
  · exact Accounts.walk accounts_visitResource back
  · exact accounts_silently (fun _ => ⟨_, rfl⟩) (fun _ => rfl) fun _ => rfl

theorem accounts_updateManifest (back : Path) :
    Accounts context.root roots
      (AccountM.updateManifest context names (context.root.join back))
      (JobM.updateManifest context names (context.root.join back)) := by
  refine accounts_entering ⟨back, rfl⟩ nofun fun state => ?_
  simp only [JobM.run_bind, JobM.run_emit, JobM.run_updateStats,
    JobM.run_perform]
  cases isAnswer : Effect.answer _ with
  | ok outcome => cases outcome <;> exact .of_warnings rfl rfl nofun
  | error error =>
      refine .of_warnings rfl rfl fun reason file fails isFile => ?_
      cases fails
      cases isFile
      rfl

theorem accounts_visitBytecode (visited : Tree.Visited)
    (joined : ∃ back, visited.path = context.root.join back) :
    Accounts context.root roots (AccountM.visitBytecode context names visited)
      (JobM.visitBytecode context names visited) := by
  refine accounts_entering joined nofun fun state => ?_
  cases visited with
  | directory path => exact .of_warnings (List.append_nil _).symm rfl nofun
  | failure path fault =>
      refine .of_warnings (List.append_nil _).symm rfl
        fun reason file fails isFile => ?_
      cases fails
      cases isFile
      rfl
  | file path =>
      simp only [JobM.run_bind, JobM.run_emit, JobM.run_updateStats,
        JobM.run_perform]
      cases isAnswer : Effect.answer _ with
      | ok outcome => exact .of_warnings rfl rfl nofun
      | error error =>
          refine .of_warnings rfl rfl fun reason file fails isFile => ?_
          cases fails
          cases isFile
          rw [subject_of_updateFile isAnswer]
          rfl

/-- The directory of a bytecode root is shown by the name of the root. -/
theorem accounts_relocate {name : String} (member : name ∈ roots)
    (plain : Name.IsPlain (Utf8.encode name)) :
    Accounts context.root roots
      (AccountM.relocate context names name
        (context.root.join (Path.ofString name)))
      (JobM.relocate context names name
        (context.root.join (Path.ofString name))) := by
  refine accounts_entering ⟨_, rfl⟩
    (fun _ => ⟨name, member, rfl, Path.relativeTo_join_name plain⟩)
    fun state => ?_
  simp only [JobM.run_bind, JobM.run_emit, JobM.run_perform]
  cases isAnswer : Effect.answer _ with
  | ok moved => cases moved <;> exact .of_warnings rfl rfl nofun
  | error error =>
      refine .of_warnings rfl rfl fun reason file fails isFile => ?_
      cases fails
      cases isFile

/-- All stages are run with an account of what they come upon. -/
theorem accounts_updatePackage
    (plain : ∀ name ∈ roots, Name.IsPlain (Utf8.encode name)) :
    Accounts context.root roots (AccountM.updatePackage context names roots)
      (JobM.updatePackage context names roots) := by
  refine (accounts_updateResources _).bind fun _ => ?_
  refine (accounts_updateManifest _).bind fun _ => ?_
  refine Accounts.forM fun name member => ?_
  exact (Accounts.walk accounts_visitBytecode _).bind fun _ =>
    accounts_relocate member (plain name member)

end Stages

/-! ### Whole jobs -/

/-- All that a report shows belongs to something that the job has come upon, and
leads back to it: the events, the warnings, and the file for which the job has
failed, which is the last that it has come upon. -/
structure Report.LeadsBack (root : Path) (roots : List String)
    (encounters : List Encounter) (report : Report) : Prop where
  events : report.events = encounters.flatMap (·.events)
  warnings : report.result.warnings = encounters.flatMap (·.warnings)
  failure : ∀ reason stage path, report.result.failure = some reason →
    reason.file? = some (stage, path) →
    ∃ last, encounters.getLast? = some last ∧ stage = last.stage ∧
      path = last.shown root
  each : ∀ encounter ∈ encounters, encounter.LeadsBack root roots

theorem Covers.leadsBack_report {root : Path} {roots : List String}
    {world : World} {cancelled : Bool} {encounters : List Encounter}
    {ending : Except FailureReason Unit} {state : JobState}
    (covers : Covers root roots (.initial world cancelled) encounters ending
      state) :
    Report.LeadsBack root roots encounters
      ⟨state.result ending, state.events, state.nested⟩ := by
  refine ⟨covers.events, ?_, ?_, covers.leadsBack⟩
  · rw [JobState.result_warnings]
    exact covers.warnings
  · intro reason stage path fails isFile
    obtain ⟨last, isLast, same⟩ := covers.failure reason
      ((state.result_failure_iff ending).mp fails) _ isFile
    cases same
    exact ⟨last, isLast, rfl, rfl⟩

namespace Job

/-- A job that is refused comes upon nothing and shows nothing. -/
theorem Refused.leadsBack {job : Job} {result : JobResult}
    (refused : job.Refused result) (root : Path) :
    (bareReport result).LeadsBack root [] [] := by
  cases refused with
  | same isSame => exact ⟨rfl, rfl, nofun, List.forall_mem_nil _⟩
  | unnamed _ | busy | packageRoot _ =>
      refine ⟨rfl, rfl, fun reason stage path fails isFile => ?_,
        List.forall_mem_nil _⟩
      cases fails
      cases isFile

/-- The path from the root to what lies behind it leads back there when it is
joined to the root, and what does not lie behind the root is shown as it is.
So all that a job shows leads back: it can be run with an account of what it
comes upon, which changes nothing, and all events and warnings and the file for
which it fails are shown by paths that have, joined to the root, the components
of the path in the account.  The package directory of a bytecode root is shown
by the name of the root. -/
theorem run_leads_back :
    (∀ root path : Path,
      (root.components <+: path.components →
        (root.join (path.relativeTo root)).components = path.components) ∧
      (¬ root.components <+: path.components → path.relativeTo root = path)) ∧
    ∀ (job : Job) (observer : Observer) (cancelled : Bool) (world : World),
      world.tree.HasLegalNames →
      (∀ roots, job.Opens world roots → ∃ ending state encounters,
        (JobM.updatePackage (job.context observer) job.names roots).run
            (.initial (job.claimed world) cancelled) = (ending, state) ∧
        (AccountM.updatePackage (job.context observer) job.names roots).run
            (.initial (job.claimed world) cancelled, []) =
          (ending, state, encounters) ∧
        (job.run observer cancelled world).1 =
          ⟨state.result ending, state.events, state.nested⟩ ∧
        (job.run observer cancelled world).1.LeadsBack job.root roots
          encounters) ∧
      ((∀ roots, ¬ job.Opens world roots) →
        (job.run observer cancelled world).1.LeadsBack job.root [] []) := by
  refine ⟨fun root path => ⟨Path.components_join_relativeTo,
    Path.relativeTo_of_outside⟩, ?_⟩
  intro job observer cancelled world legal
  constructor
  · intro roots opens
    have plain : ∀ name ∈ roots, Name.IsPlain (Utf8.encode name) :=
      fun name member => opens.isPlain_of_mem legal member
    obtain ⟨encounters, isAccount, covers⟩ :=
      @accounts_updatePackage (job.context observer) job.names roots plain
        (.initial (job.claimed world) cancelled) []
    have isStages : (JobM.updatePackage (job.context observer) job.names
        roots).run (.initial (job.claimed world) cancelled) =
        job.stages observer cancelled roots world :=
      Plan.describes_updatePackage roots _
    obtain ⟨isReport, -⟩ := opens.run_eq observer cancelled
    rw [← isStages] at isReport
    refine ⟨_, _, encounters, rfl, isAccount, isReport, ?_⟩
    rw [isReport]
    exact covers.leadsBack_report
  · intro closed
    obtain ⟨result, refused, isReport, -⟩ :=
      run_refused closed observer cancelled
    rw [isReport]
    exact refused.leadsBack job.root

/-- A package with a link that leads nowhere among its resources and another in
its second bytecode root. -/
def strayTree : Tree :=
  (Tree.holding [("p/AndroidManifest.xml", ""), ("p/res/a", "com.app"),
    ("p/smali/A.smali", "Lcom/app/A;")]).edit
    ⟨[], [(Path.ofString "p/res/b", .link (Path.ofString "nowhere")),
      (Path.ofString "p/smali_classes2/B.smali",
        .link (Path.ofString "nowhere"))]⟩

/-- The root and the resources are spelled with more than their names. -/
def strayJob : Job :=
  .of (Path.ofString "./p//") "com.app" "org.clone"
    { Options.standard with resourceDirectory := "./res" }

theorem run_leads_back_stray :
    strayTree.HasLegalNames ∧
      ∃ encounters,
        (strayJob.run .passive false (.ofTree strayTree)).1.LeadsBack
          (Path.ofString "./p//") ["smali", "smali_classes2"] encounters ∧
        encounters.map (·.path.display) =
          ["./p//./res", "./p//./res/a", "./p//./res/b",
            "./p//AndroidManifest.xml", "./p//smali", "./p//smali/A.smali",
            "./p//smali", "./p//smali_classes2",
            "./p//smali_classes2/B.smali"] ∧
        (strayJob.run .passive false (.ofTree strayTree)).1.events.map
            (·.path.display) =
          ["res/a", "AndroidManifest.xml", "smali/A.smali", "smali"] ∧
        (strayJob.run .passive false (.ofTree strayTree)).1.result.warnings.map
            (·.path.display) = ["res/b"] ∧
        (strayJob.run .passive false (.ofTree strayTree)).1.result.failure =
          some (.bytecodeFile (Path.ofString "smali_classes2/B.smali")
            Fault.notFound.message) := by
  have legal : strayTree.HasLegalNames :=
    Tree.hasLegalNames_of_nodes (by decide +kernel)
  have opens : strayJob.Opens (.ofTree strayTree)
      ["smali", "smali_classes2"] :=
    ⟨by decide, by decide, by decide, by decide +kernel, by decide +kernel⟩
  obtain ⟨ofRoots, -⟩ :=
    run_leads_back.2 strayJob .passive false (.ofTree strayTree) legal
  obtain ⟨ending, state, encounters, -, isAccount, -, leadsBack⟩ :=
    ofRoots _ opens
  refine ⟨legal, encounters, leadsBack, ?_, by decide +kernel,
    by decide +kernel, by decide +kernel⟩
  obtain rfl : ((AccountM.updatePackage (strayJob.context .passive)
      strayJob.names ["smali", "smali_classes2"]).run
      (.initial (strayJob.claimed (.ofTree strayTree)) false, [])).2.2 =
      encounters := congrArg (·.2.2) isAccount
  decide +kernel

end Job

end PackageRename
