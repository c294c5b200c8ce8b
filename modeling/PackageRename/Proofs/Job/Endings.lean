import PackageRename.Proofs.Job.Journal

/-!
# How the stages of a job end

For each part of a job, the moments it can come to together with how it can end,
whatever its observer does.  They are read off its plan, and those of a whole
job are put together from those of its parts.
-/

namespace PackageRename

/-! ### What plans come to -/

/-- A bytecode root stops in its contents for one of these reasons. -/
inductive FailureReason.IsOfContents : FailureReason → Prop
  | cancelled : IsOfContents .cancelled
  | file (path : Path) (message : String) :
      IsOfContents (.bytecodeFile path message)

namespace Plan

variable {α β : Type} {context : JobContext} {names : Renaming}

/-- The moments and the ending of a plan are as specified, from whatever state
it is run. -/
def Comes (context : JobContext) (names : Renaming) (plan : Plan α)
    (spec : List Moment → Except FailureReason α → Prop) : Prop :=
  ∀ state,
    spec (plan.journal context names state) (plan.run context names state).1

theorem Comes.bind {plan : Plan α} {goesOn : α → Plan β}
    {first : List Moment → Except FailureReason α → Prop}
    {later : α → List Moment → Except FailureReason β → Prop}
    {whole : List Moment → Except FailureReason β → Prop}
    (comes : Comes context names plan first)
    (laterComes : ∀ value, Comes context names (goesOn value) (later value))
    (fails : ∀ moments reason, first moments (.error reason) →
      whole moments (.error reason))
    (goesThrough : ∀ front back value ending, first front (.ok value) →
      later value back ending → whole (front ++ back) ending) :
    Comes context names (plan >>= goesOn) whole := by
  intro state
  have firstComes := comes state
  rw [journal_bind, run_bind]
  rcases isRun : plan.run context names state with ⟨ending, reached⟩
  rw [isRun] at firstComes
  cases ending with
  | error reason =>
      rw [List.append_nil]
      exact fails _ _ firstComes
  | ok value =>
      exact goesThrough _ _ value _ firstComes (laterComes value reached)

theorem Comes.check {next : Plan α}
    {spec : List Moment → Except FailureReason α → Prop}
    (stops : spec [] (.error .cancelled))
    (later : Comes context names next spec) :
    Comes context names (.check next) spec := by
  intro state
  rw [journal, run]
  split
  · exact stops
  · exact later state

theorem Comes.act {task : Task}
    {next : Except FileError task.stage.Answer → Plan α}
    {spec : List Moment → Except FailureReason α → Prop}
    (later : ∀ state, Comes context names
      (next (task.effectIn context names state).answer)
      fun moments ending => spec (⟨state, task⟩ :: moments) ending) :
    Comes context names (.act task next) spec :=
  fun state => later state (task.carriedOut context names state)

/-! ### Files of one stage -/

/-- All moments are of one stage, and a failure is one of its own. -/
def Block (stage : Stage) (own : FailureReason → Prop)
    (moments : List Moment) (ending : Except FailureReason Unit) : Prop :=
  (∀ moment ∈ moments, moment.task.stage = stage) ∧
    ∀ reason, ending = .error reason → own reason

variable {stage : Stage} {own : FailureReason → Prop}

theorem block_done : Block stage own [] (.ok ()) :=
  ⟨List.forall_mem_nil _, nofun⟩

theorem block_fail {reason : FailureReason} (isOwn : own reason) :
    Block stage own [] (.error reason) :=
  ⟨List.forall_mem_nil _, fun _ same => Except.error.inj same ▸ isOwn⟩

theorem Block.cons {moment : Moment} {moments : List Moment}
    {ending : Except FailureReason Unit} (isStage : moment.task.stage = stage)
    (block : Block stage own moments ending) :
    Block stage own (moment :: moments) ending :=
  ⟨List.forall_mem_cons.mpr ⟨isStage, block.1⟩, block.2⟩

theorem comes_walk {visit : Tree.Visited → Plan Unit}
    (each : ∀ visited, Comes context names (visit visited) (Block stage own))
    (root : Path) :
    Comes context names (Tree.walk tree visit root) (Block stage own) := by
  refine walk_induction (fun plan => Comes context names plan (Block stage own))
    (fun _ => block_done)
    (fun first next => first.bind (fun _ => next) ?_ ?_)
    (fun looks state => looks state.world.tree trivial state)
    (fun visited (_ : True) => each visited)
    (fun _ _ (_ : True) _ => trivial) (fun _ _ _ _ => trivial)
    (fun _ _ _ _ _ _ _ _ _ _ _ => trivial) (fun _ _ _ => trivial)
  · exact fun moments reason block => block
  · exact fun front back _ ending before after =>
      ⟨List.forall_mem_append.mpr ⟨before.1, after.1⟩, after.2⟩

theorem comes_visitResource (visited : Tree.Visited) :
    Comes context names (visitResource context visited)
      (Block .resources (· = .cancelled)) := by
  refine .check (block_fail rfl) ?_
  cases visited with
  | directory path => exact fun _ => block_done
  | failure path fault => exact fun _ => block_done
  | file path =>
      refine .act fun shown => ?_
      generalize Effect.answer _ = answer
      cases answer <;> exact fun _ => block_done.cons rfl

theorem comes_updateResources (directory : Path) :
    Comes context names (updateResources context directory)
      (Block .resources (· = .cancelled)) := by
  intro state
  change Block _ _ (journal context names
      (ite (state.world.tree.isDirectory directory = true) _ _) state)
    (run context names
      (ite (state.world.tree.isDirectory directory = true) _ _) state).1
  split
  · exact comes_walk comes_visitResource directory state
  · exact block_done

theorem comes_visitBytecode (visited : Tree.Visited) :
    Comes context names (visitBytecode context visited)
      (Block .bytecode FailureReason.IsOfContents) := by
  refine .check (block_fail .cancelled) ?_
  cases visited with
  | directory path => exact fun _ => block_done
  | failure path fault => exact fun _ => block_fail (.file _ _)
  | file path =>
      refine .act fun shown => ?_
      generalize Effect.answer _ = answer
      cases answer with
      | ok outcome => exact fun _ => block_done.cons rfl
      | error error => exact fun _ => (block_fail (.file _ _)).cons rfl

/-! ### The manifest and the moves -/

inductive ManifestEnds (context : JobContext) (names : Renaming)
    (manifest : Path) : List Moment → Except FailureReason Outcome → Prop
  | cancelled : ManifestEnds context names manifest [] (.error .cancelled)
  | failed (state : JobState) (message : String) :
      ManifestEnds context names manifest [⟨state, ⟨.manifest, manifest⟩⟩]
        (.error (.manifest (manifest.relativeTo context.root) message))
  | done {state : JobState} {outcome : Outcome}
      (updated : (Moment.effect context names
        ⟨state, ⟨.manifest, manifest⟩⟩).answer = .ok outcome) :
      ManifestEnds context names manifest [⟨state, ⟨.manifest, manifest⟩⟩]
        (.ok outcome)

theorem comes_updateManifest (manifest : Path) :
    Comes context names (updateManifest context manifest)
      (ManifestEnds context names manifest) := by
  refine .check .cancelled (.act fun shown => ?_)
  cases updated : Effect.answer _ with
  | error error => exact fun _ => .failed shown _
  | ok outcome => cases outcome <;> exact fun _ => .done updated

/-- The move of one package directory. -/
inductive MoveEnds (names : Renaming) (name : String) (base : Path) :
    List Moment → Except FailureReason Unit → Prop
  | cancelled : MoveEnds names name base [] (.error .cancelled)
  | failed (state : JobState) (message : String) :
      MoveEnds names name base [⟨state, ⟨.directoryStructure, base⟩⟩]
        (.error (.directoryMove
          (names.source.directoryIn (Path.ofString name))
          (names.target.directoryIn (Path.ofString name)) message))
  | done (state : JobState) :
      MoveEnds names name base [⟨state, ⟨.directoryStructure, base⟩⟩] (.ok ())

/-- One bytecode root: it stops in its contents, or it comes to its move. -/
inductive RootEnds (context : JobContext) (names : Renaming) (name : String) :
    List Moment → Except FailureReason Unit → Prop
  | inContents {contents : List Moment} {reason : FailureReason}
      (areContents : ∀ moment ∈ contents, moment.task.stage = .bytecode)
      (isOwn : reason.IsOfContents) :
      RootEnds context names name contents (.error reason)
  | atMove {contents : List Moment} {message : String} (state : JobState)
      (areContents : ∀ moment ∈ contents, moment.task.stage = .bytecode) :
      RootEnds context names name
        (contents ++ [⟨state, ⟨.directoryStructure,
          context.root.join (Path.ofString name)⟩⟩])
        (.error (.directoryMove
          (names.source.directoryIn (Path.ofString name))
          (names.target.directoryIn (Path.ofString name)) message))
  | done {contents : List Moment} (state : JobState)
      (areContents : ∀ moment ∈ contents, moment.task.stage = .bytecode) :
      RootEnds context names name
        (contents ++ [⟨state, ⟨.directoryStructure,
          context.root.join (Path.ofString name)⟩⟩]) (.ok ())

theorem comes_relocate (name : String) (base : Path) :
    Comes context names (relocate names name base) (MoveEnds names name base) := by
  refine .check .cancelled (.act fun shown => ?_)
  generalize Effect.answer _ = answer
  cases answer with
  | error error => exact fun _ => .failed shown _
  | ok moved => cases moved <;> exact fun _ => .done shown

theorem comes_updateBytecodeRoot (name : String) :
    Comes context names (updateBytecodeRoot context names name)
      (RootEnds context names name) := by
  refine (comes_walk comes_visitBytecode _).bind
    (fun _ => comes_relocate name _) ?_ ?_
  · exact fun moments reason block => .inContents block.1 (block.2 reason rfl)
  · intro front back value ending block move
    cases move with
    | cancelled =>
        rw [List.append_nil]
        exact .inContents block.1 .cancelled
    | failed state message => exact .atMove state block.1
    | done state => exact .done state block.1

/-- All bytecode roots: those before the one that stops are done. -/
inductive BytecodeEnds (context : JobContext) (names : Renaming) :
    List String → List Moment → Except FailureReason Unit → Prop
  | done : BytecodeEnds context names [] [] (.ok ())
  | stopped {name : String} {later : List String} {moments : List Moment}
      {reason : FailureReason}
      (stops : RootEnds context names name moments (.error reason)) :
      BytecodeEnds context names (name :: later) moments (.error reason)
  | goesOn {name : String} {later : List String} {front back : List Moment}
      {ending : Except FailureReason Unit}
      (isDone : RootEnds context names name front (.ok ()))
      (rest : BytecodeEnds context names later back ending) :
      BytecodeEnds context names (name :: later) (front ++ back) ending

theorem comes_updateBytecode (roots : List String) :
    Comes context names (updateBytecode context names roots)
      (BytecodeEnds context names roots) := by
  induction roots with
  | nil => exact fun _ => .done
  | cons name rest induction =>
      exact (comes_updateBytecodeRoot name).bind (fun _ => induction)
        (fun _ _ => .stopped) fun _ _ _ _ => .goesOn

/-- All stages. -/
inductive PackageEnds (context : JobContext) (names : Renaming)
    (roots : List String) : List Moment → Except FailureReason Unit → Prop
  | early {resources : List Moment}
      (areResources : ∀ moment ∈ resources, moment.task.stage = .resources) :
      PackageEnds context names roots resources (.error .cancelled)
  | atManifest {resources : List Moment} (state : JobState) (message : String)
      (areResources : ∀ moment ∈ resources, moment.task.stage = .resources) :
      PackageEnds context names roots
        (resources ++ [⟨state, ⟨.manifest, JobM.manifestFile context⟩⟩])
        (.error (.manifest
          ((JobM.manifestFile context).relativeTo context.root) message))
  | inBytecode {resources bytecode : List Moment} {state : JobState}
      {outcome : Outcome} {ending : Except FailureReason Unit}
      (areResources : ∀ moment ∈ resources, moment.task.stage = .resources)
      (updated : (Moment.effect context names
        ⟨state, ⟨.manifest, JobM.manifestFile context⟩⟩).answer = .ok outcome)
      (later : BytecodeEnds context names roots bytecode ending) :
      PackageEnds context names roots
        (resources ++ ⟨state, ⟨.manifest, JobM.manifestFile context⟩⟩ ::
          bytecode) ending

theorem comes_updatePackage (roots : List String) :
    Comes context names (updatePackage context names roots)
      (PackageEnds context names roots) := by
  have manifestAndBytecode : Comes context names
      (updateManifest context (JobM.manifestFile context) >>= fun _ =>
        updateBytecode context names roots) fun moments ending =>
      ∀ resources : List Moment,
        (∀ moment ∈ resources, moment.task.stage = .resources) →
        PackageEnds context names roots (resources ++ moments) ending := by
    refine (comes_updateManifest _).bind (fun _ => comes_updateBytecode roots)
      ?_ ?_
    · intro moments reason manifest resources areResources
      cases manifest with
      | cancelled =>
          rw [List.append_nil]
          exact .early areResources
      | failed state message => exact .atManifest state message areResources
    · intro front back outcome ending manifest bytecode resources areResources
      cases manifest with
      | done updated => exact .inBytecode areResources updated bytecode
  refine (comes_updateResources _).bind (fun _ => manifestAndBytecode) ?_ ?_
  · intro moments reason block
    rw [block.2 reason rfl]
    exact .early block.1
  · exact fun front back _ ending block later => later front block.1

theorem RootEnds.not_manifest {name : String} {moments : List Moment}
    {ending : Except FailureReason Unit}
    (ends : RootEnds context names name moments ending) :
    ∀ moment ∈ moments, moment.task.stage ≠ .manifest := by
  intro moment member isManifest
  cases ends with
  | inContents areContents _ =>
      rw [areContents moment member] at isManifest
      cases isManifest
  | atMove state areContents | done state areContents =>
      rcases List.mem_append.mp member with inContents | isMove
      · rw [areContents moment inContents] at isManifest
        cases isManifest
      · rw [List.mem_singleton.mp isMove] at isManifest
        cases isManifest

theorem BytecodeEnds.not_manifest {roots : List String} {moments : List Moment}
    {ending : Except FailureReason Unit}
    (ends : BytecodeEnds context names roots moments ending) :
    ∀ moment ∈ moments, moment.task.stage ≠ .manifest := by
  induction ends with
  | done => exact List.forall_mem_nil _
  | stopped stops => exact stops.not_manifest
  | goesOn isDone _ induction =>
      exact List.forall_mem_append.mpr ⟨isDone.not_manifest, induction⟩

/-- A job without a failure has updated its manifest. -/
theorem PackageEnds.manifest_updated {roots : List String}
    {moments : List Moment}
    (ends : PackageEnds context names roots moments (.ok ()))
    {moment : Moment} (member : moment ∈ moments)
    (isManifest : moment.task.stage = .manifest) :
    (moment.effect context names).answer.isOk = true := by
  cases ends with
  | @inBytecode resources bytecode state _ _ areResources updated later =>
      rcases List.mem_append.mp member with inResources | inRest
      · rw [areResources moment inResources] at isManifest
        cases isManifest
      rcases List.mem_cons.mp inRest with rfl | inBytecode
      · rw [updated]
        rfl
      · exact absurd isManifest (later.not_manifest moment inBytecode)

end Plan

end PackageRename
