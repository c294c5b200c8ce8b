import PackageRename.Proofs.Job.Running

/-!
# Jobs as plans

A plan is a part of a job written down as data: what it does next, and how it
goes on after each answer.  The stages of a job are written down in this form
and run as they do.  A plan can be followed from one event to the next, which
shows the state in which a job reports each of its events.
-/

namespace PackageRename

/-! ### Tasks -/

/-- What one event announces: a file to update or, in the last stage, a bytecode
root in which the package directory is moved. -/
structure Task where
  stage : Stage
  path : Path
deriving DecidableEq

/-- What a task of a stage answers if it does not fail. -/
abbrev Stage.Answer : Stage → Type
  | .resources | .manifest | .bytecode => Outcome
  | .directoryStructure => Bool

/-- A file counts as visited before it is updated. -/
def Stage.visit : Stage → Stats → Stats
  | .resources | .manifest | .bytecode => Stats.visit
  | .directoryStructure => id

/-- What an answer adds to the counters. -/
def Stage.record : (stage : Stage) → Except FileError stage.Answer → Stats → Stats
  | .resources, .ok outcome, stats => stats.record outcome
  | .manifest, .ok outcome, stats => stats.record outcome
  | .bytecode, .ok outcome, stats => stats.record outcome
  | .directoryStructure, .ok moved, stats => if moved then stats.moved else stats
  | _, .error _, stats => stats

namespace Task

def event (root : Path) (task : Task) : ProgressEvent :=
  .of task.stage (task.path.relativeTo root)

def effect (names : Renaming) (strategy : WriteStrategy) :
    (task : Task) → Tree → Effect task.stage.Answer
  | ⟨.resources, path⟩, tree => updateFile path names.inText strategy tree
  | ⟨.manifest, path⟩, tree => updateFile path names.inText strategy tree
  | ⟨.bytecode, path⟩, tree => updateFile path names.inBytecode strategy tree
  | ⟨.directoryStructure, base⟩, tree =>
      movePackage base names.source names.target tree

variable (context : JobContext) (names : Renaming)

/-- The state after the event of a task has been reported. -/
def reported (task : Task) (state : JobState) : JobState :=
  JobM.reported context task.stage task.path state

/-- What a task does to the tree that the observer leaves behind. -/
def effectIn (task : Task) (state : JobState) : Effect task.stage.Answer :=
  task.effect names context.options.writeStrategy
    (task.reported context state).world.tree

/-- The state after a task has been reported and carried out. -/
def carriedOut (task : Task) (state : JobState) : JobState :=
  let shown := task.reported context state
  let effect := task.effectIn context names state
  { JobM.performed effect shown with
    stats := task.stage.record effect.answer (task.stage.visit shown.stats) }

end Task

/-! ### Plans -/

/-- A part of a job: each step with what comes after it. -/
inductive Plan (α : Type) where
  | done (value : α)
  | fail (reason : FailureReason)
  /-- Go on unless the job has been asked to stop. -/
  | check (next : Plan α)
  | look (next : Tree → Plan α)
  | note (severity : Severity) (message : String) (next : Plan α)
  | warn (path : Path) (message : String) (next : Plan α)
  /-- Report a task and carry it out. -/
  | act (task : Task) (next : Except FileError task.stage.Answer → Plan α)

namespace Plan

variable {α β : Type}

def bind : Plan α → (α → Plan β) → Plan β
  | done value, goesOn => goesOn value
  | fail reason, _ => fail reason
  | check next, goesOn => check (next.bind goesOn)
  | look next, goesOn => look fun tree => (next tree).bind goesOn
  | note severity message next, goesOn =>
      note severity message (next.bind goesOn)
  | warn path message next, goesOn => warn path message (next.bind goesOn)
  | act task next, goesOn => act task fun answer => (next answer).bind goesOn

instance : Monad Plan where
  pure := done
  bind := bind

/-- What a plan ends with, and the state that it has reached by then. -/
def run (context : JobContext) (names : Renaming) :
    Plan α → JobState → Except FailureReason α × JobState
  | done value, state => (.ok value, state)
  | fail reason, state => (.error reason, state)
  | check next, state =>
      if state.cancelled then (.error .cancelled, state)
      else next.run context names state
  | look next, state => (next state.world.tree).run context names state
  | note severity message next, state =>
      next.run context names
        { state with world := state.world.note severity message }
  | warn path message next, state =>
      next.run context names
        { state with warnings := state.warnings ++ [⟨path, message⟩] }
  | act task next, state =>
      (next (task.effectIn context names state).answer).run context names
        (task.carriedOut context names state)

/-! ### The stages of a job -/

def checkCancelled : Plan Unit := check (done ())

def tree : Plan Tree := look done

def noted (severity : Severity) (message : String) : Plan Unit :=
  note severity message (done ())

def warned (path : Path) (message : String) : Plan Unit :=
  warn path message (done ())

def perform (task : Task) : Plan (Except FileError task.stage.Answer) :=
  act task done

section Stages

variable (context : JobContext) (names : Renaming)

def skipResource (error : FileError) : Plan Unit := do
  noted .warn s!"Skipping resource: {error.display}"
  warned (error.subject.relativeTo context.root) error.message

def visitResource (visited : Tree.Visited) : Plan Unit := do
  checkCancelled
  match visited with
  | .directory _ => return
  | .failure path fault => skipResource context (.io path fault)
  | .file path =>
      match ← perform ⟨.resources, path⟩ with
      | .ok _ => return
      | .error error => skipResource context error

def updateResources (directory : Path) : Plan Unit := do
  if (← tree).isDirectory directory then
    Tree.walk tree (visitResource context) directory
  else
    noted .debug s!"No resource directory at {directory.display}, skipping"

def updateManifest (manifest : Path) : Plan Outcome := do
  checkCancelled
  match ← perform ⟨.manifest, manifest⟩ with
  | .ok outcome =>
      if !outcome.isChanged then
        noted .info s!"{manifest.display} has no references to update"
      return outcome
  | .error error =>
      noted .error error.display
      fail (.manifest (manifest.relativeTo context.root) error.message)

def failBytecodeFile (error : FileError) : Plan Unit := do
  noted .error error.display
  fail (.bytecodeFile (error.subject.relativeTo context.root) error.message)

def visitBytecode (visited : Tree.Visited) : Plan Unit := do
  checkCancelled
  match visited with
  | .directory _ => return
  | .failure path fault => failBytecodeFile context (.io path fault)
  | .file path =>
      match ← perform ⟨.bytecode, path⟩ with
      | .ok _ => return
      | .error error => failBytecodeFile context error

def relocate (name : String) (base : Path) : Plan Unit := do
  checkCancelled
  match ← perform ⟨.directoryStructure, base⟩ with
  | .ok true =>
      noted .info s!"{name}: moved {names.source.path} to {names.target.path}"
  | .ok false =>
      noted .debug
        s!"{name}: no {names.source.path} directory, nothing to move"
  | .error error =>
      noted .error error.display
      let shown := Path.ofString name
      fail (.directoryMove (names.source.directoryIn shown)
        (names.target.directoryIn shown) error.message)

def updateBytecodeRoot (name : String) : Plan Unit := do
  let base := context.root.join (Path.ofString name)
  Tree.walk tree (visitBytecode context) base
  relocate names name base

def updateBytecode (roots : List String) : Plan Unit :=
  roots.forM (updateBytecodeRoot context names)

def updatePackage (roots : List String) : Plan Unit := do
  updateResources context (JobM.resourceDirectory context)
  let _ ← updateManifest context (JobM.manifestFile context)
  updateBytecode context names roots

end Stages

/-! ### Plans that describe a part of a job -/

variable {context : JobContext} {names : Renaming}

theorem run_bind (plan : Plan α) (goesOn : α → Plan β) (state : JobState) :
    (plan >>= goesOn).run context names state =
      match plan.run context names state with
      | (.ok value, reached) => (goesOn value).run context names reached
      | (.error reason, reached) => (.error reason, reached) := by
  change (plan.bind goesOn).run context names state = _
  induction plan generalizing state with
  | done value => rfl
  | fail reason => rfl
  | check next induction =>
      rw [bind, run, run]
      split
      · rfl
      · exact induction state
  | look next induction => exact induction state.world.tree state
  | note severity message next induction => exact induction _
  | warn path message next induction => exact induction _
  | act task next induction => exact induction _ _

/-- Running the plan is running the part of the job. -/
def Describes (context : JobContext) (names : Renaming) (plan : Plan α)
    (action : JobM α) : Prop :=
  ∀ state, action.run state = plan.run context names state

theorem Describes.bind {plan : Plan α} {action : JobM α}
    {goesOn : α → Plan β} {next : α → JobM β}
    (first : Describes context names plan action)
    (later : ∀ value, Describes context names (goesOn value) (next value)) :
    Describes context names (plan >>= goesOn) (action >>= next) := by
  intro state
  rw [run_bind, JobM.run_bind, first state]
  rcases plan.run context names state with ⟨ending, reached⟩
  cases ending with
  | error reason => rfl
  | ok value => exact later value reached

theorem describes_pure (value : α) :
    Describes context names (pure value) (pure value) :=
  fun _ => rfl

theorem describes_checkCancelled :
    Describes context names checkCancelled JobM.checkCancelled :=
  JobM.run_checkCancelled

theorem describes_tree : Describes context names tree JobM.tree :=
  fun _ => rfl

theorem describes_noted (severity : Severity) (message : String) :
    Describes context names (noted severity message)
      (JobM.note severity message) :=
  fun _ => rfl

theorem Describes.forM {items : List β} {plan : β → Plan Unit}
    {action : β → JobM Unit}
    (each : ∀ item, Describes context names (plan item) (action item)) :
    Describes context names (items.forM plan) (items.forM action) := by
  induction items with
  | nil => exact describes_pure ()
  | cons head rest induction => exact (each head).bind fun _ => induction

/-- A walk is described by the walk of what describes its visits. -/
theorem Describes.walk {plan : Tree.Visited → Plan Unit}
    {action : Tree.Visited → JobM Unit}
    (each : ∀ visited, Describes context names (plan visited)
      (action visited)) (root : Path) :
    Describes context names (Tree.walk tree plan root)
      (Tree.walk JobM.tree action root) := by
  exact Tree.walk_related (Describes context names) (describes_pure ())
    (fun first next => first.bind fun _ => next)
    (fun looks => describes_tree.bind fun found => looks found trivial)
    (fun visited (_ : True) => each visited)
    (fun _ _ (_ : True) _ => trivial) (fun _ _ _ _ => trivial)
    (fun _ _ _ _ _ _ _ _ _ _ _ => trivial) fun _ _ _ => trivial

/-! ### Walks -/

/-- What holds of the visits and is kept when plans are put together holds of a
walk: `good` is what is known of the trees that the walk looks at, and `allowed`
of what it comes upon in them. -/
theorem walk_induction (holds : Plan Unit → Prop) {good : Tree → Prop}
    {allowed : Tree.Visited → Prop} {visit : Tree.Visited → Plan Unit}
    {root : Path} (ends : holds (done ()))
    (goesOn : ∀ {plan next : Plan Unit}, holds plan → holds next →
      holds (plan >>= fun _ => next))
    (looks : ∀ {next : Tree → Plan Unit},
      (∀ tree, good tree → holds (next tree)) → holds (look next))
    (each : ∀ visited, allowed visited → holds (visit visited))
    (starts : ∀ tree kind, good tree → tree.kindOf root = .ok kind →
      allowed (tree.classify [] root kind))
    (misses : ∀ tree fault, good tree → tree.kindOf root = .error fault →
      allowed (.failure root fault))
    (enters : ∀ tree later above path children entry, good tree → good later →
      allowed (.directory path) → tree.list path = .ok children →
      entry ∈ children →
      allowed (later.classify above (path.join ⟨entry.1⟩) entry.2))
    (stops : ∀ path fault, allowed (.directory path) →
      allowed (.failure path fault)) :
    holds (Tree.walk tree visit root) :=
  @Tree.walk_related _ _ _ _ (fun plan (_ : Plan Unit) => holds plan) good
    allowed tree tree visit visit root ends goesOn looks each starts misses
    enters stops

/-! ### The stages -/

theorem describes_skipResource (error : FileError) :
    Describes context names (skipResource context error)
      (JobM.skipResource context error) :=
  fun _ => rfl

/-- A part of a job that reports a task, carries it out and goes on by the
answer. -/
theorem describes_perform (task : Task)
    {goesOn : Except FileError task.stage.Answer → Plan α}
    {next : Except FileError task.stage.Answer → JobM α}
    (each : ∀ answer state, (next answer).run state =
      (goesOn answer).run context names
        { state with stats := task.stage.record answer state.stats }) :
    Describes context names (perform task >>= goesOn) (do
      JobM.emit context task.stage task.path
      JobM.updateStats task.stage.visit
      let answer ← JobM.perform
        (task.effect names context.options.writeStrategy)
      next answer) :=
  fun _ => each _ _

theorem describes_visitResource (visited : Tree.Visited) :
    Describes context names (visitResource context visited)
      (JobM.visitResource context names visited) := by
  refine describes_checkCancelled.bind fun _ => ?_
  cases visited with
  | directory path => exact describes_pure ()
  | failure path fault => exact describes_skipResource _
  | file path =>
      refine describes_perform ⟨.resources, path⟩ fun answer state => ?_
      cases answer <;> rfl

theorem describes_updateResources (directory : Path) :
    Describes context names (updateResources context directory)
      (JobM.updateResources context names directory) := by
  refine describes_tree.bind fun found => ?_
  split
  · exact Describes.walk describes_visitResource directory
  · exact describes_noted _ _

theorem describes_updateManifest (manifest : Path) :
    Describes context names (updateManifest context manifest)
      (JobM.updateManifest context names manifest) := by
  refine describes_checkCancelled.bind fun _ => ?_
  refine describes_perform ⟨.manifest, manifest⟩ fun answer state => ?_
  cases answer with
  | error error => rfl
  | ok outcome => cases outcome <;> rfl

theorem describes_failBytecodeFile (error : FileError) :
    Describes context names (failBytecodeFile context error)
      (JobM.failBytecodeFile context error) :=
  fun _ => rfl

theorem describes_visitBytecode (visited : Tree.Visited) :
    Describes context names (visitBytecode context visited)
      (JobM.visitBytecode context names visited) := by
  refine describes_checkCancelled.bind fun _ => ?_
  cases visited with
  | directory path => exact describes_pure ()
  | failure path fault => exact describes_failBytecodeFile _
  | file path =>
      refine describes_perform ⟨.bytecode, path⟩ fun answer state => ?_
      cases answer <;> rfl

theorem describes_relocate (name : String) (base : Path) :
    Describes context names (relocate names name base)
      (JobM.relocate context names name base) := by
  refine describes_checkCancelled.bind fun _ => ?_
  -- nothing counts as visited here, so there is a step less than for a file
  intro state
  have sameEffect : movePackage base names.source names.target
      (JobM.reported context .directoryStructure base state).world.tree =
      (⟨.directoryStructure, base⟩ : Task).effectIn context names state := rfl
  simp only [JobM.run_bind, JobM.run_emit, JobM.run_perform, sameEffect]
  rw [run_bind, perform, run, Task.carriedOut]
  generalize (⟨.directoryStructure, base⟩ : Task).effectIn context names state =
    effect
  rcases effect with ⟨answer, moved, log⟩
  cases answer with
  | error error => rfl
  | ok moved => cases moved <;> rfl

/-- The plan of all stages runs as the stages do. -/
theorem describes_updatePackage (roots : List String) :
    Describes context names (updatePackage context names roots)
      (JobM.updatePackage context names roots) := by
  refine (describes_updateResources _).bind fun _ => ?_
  refine (describes_updateManifest _).bind fun _ => ?_
  exact Describes.forM fun name =>
    (Describes.walk describes_visitBytecode _).bind
      fun _ => describes_relocate name _

end Plan

end PackageRename
