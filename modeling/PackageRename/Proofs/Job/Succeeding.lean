import PackageRename.Proofs.Job.Journal
import PackageRename.Proofs.Job.Package

/-!
# What a job has done when it succeeds

Nothing is asked of the tree here.  A job that nobody disturbs has updated the
manifest and every bytecode root, one after the other, when it succeeds, and
has no warnings exactly if it has updated all resources as well.
-/

namespace PackageRename

namespace Job

variable {job : Job} {world : World} {roots rest : List String}
variable {before after : Tree} {name : String}

open PackageRename.Tree

/-- The tree after the files of a bytecode root have been updated. -/
def updatedRoot (job : Job) (name : String) (tree : Tree) : Tree :=
  (tree.visits (job.bytecodePath name)).foldl
    (settle job.names.inBytecode job.options.writeStrategy) tree

/-- The attempt to move the package directory of a bytecode root after its files
have been updated. -/
def moving (job : Job) (name : String) (tree : Tree) : Effect Bool :=
  movePackage (job.bytecodePath name) job.names.source job.names.target
    (job.updatedRoot name tree)

/-- One bytecode root after the other is updated without complaint. -/
inductive RenamesRoots (job : Job) : Tree → List String → Tree → Prop
  | nil (tree : Tree) : RenamesRoots job tree [] tree
  | cons {before after : Tree} {name : String} {rest : List String}
      {moved : Bool}
      (settles : SettlesAll job.names.inBytecode job.options.writeStrategy
        before (before.visits (job.bytecodePath name)))
      (answered : (job.moving name before).answer = .ok moved)
      (later : RenamesRoots job (job.moving name before).tree rest after) :
      RenamesRoots job before (name :: rest) after

theorem completes_or_fails_root (job : Job) (name : String) (before : Tree) :
    (∃ moved, SettlesAll job.names.inBytecode job.options.writeStrategy before
        (before.visits (job.bytecodePath name)) ∧
      (job.moving name before).answer = .ok moved ∧
      JobM.Completes (JobM.updateBytecodeRoot (job.context .passive) job.names
        name) before (job.moving name before).tree True) ∨
      JobM.Fails (JobM.updateBytecodeRoot (job.context .passive) job.names name)
        before := by
  have quiet : (job.context .passive).observer = .passive := rfl
  by_cases settles : SettlesAll job.names.inBytecode job.options.writeStrategy
      before (before.visits (job.bytecodePath name))
  · have walks := JobM.completes_walk_visitBytecode quiet settles
    cases answered : (job.moving name before).answer with
    | ok moved =>
        exact .inl ⟨moved, settles, rfl, walks.clean_bind fun _ =>
          JobM.completes_relocate quiet name answered⟩
    | error error =>
        exact .inr (walks.bind_fails fun _ =>
          JobM.fails_relocate quiet answered)
  · exact .inr ((JobM.fails_walk_visitBytecode quiet settles).bind _)

theorem completes_or_fails_roots (job : Job) (roots : List String)
    (before : Tree) :
    (∃ after, job.RenamesRoots before roots after ∧
      JobM.Completes (JobM.updateBytecode (job.context .passive) job.names
        roots) before after True) ∨
      JobM.Fails (JobM.updateBytecode (job.context .passive) job.names roots)
        before := by
  induction roots generalizing before with
  | nil => exact .inl ⟨before, .nil before, JobM.completes_pure ()⟩
  | cons name rest induction =>
      rcases job.completes_or_fails_root name before with
        ⟨moved, settles, answered, completes⟩ | fails
      · rcases induction (job.moving name before).tree with
          ⟨after, later, further⟩ | fails
        · exact .inl ⟨after, .cons settles answered later,
            completes.clean_bind fun _ => further⟩
        · exact .inr (completes.bind_fails fun _ => fails)
      · exact .inr (fails.bind _)

/-! ### The whole job -/

/-- The plan of the stages runs as the stages do. -/
theorem stages_eq (job : Job) (observer : Observer) (cancelled : Bool)
    (roots : List String) (world : World) :
    job.stages observer cancelled roots world =
      (JobM.updatePackage (job.context observer) job.names roots).run
        (.initial (job.claimed world) cancelled) :=
  (Plan.describes_updatePackage roots _).symm

/-- What a job has done when it succeeds. -/
structure HasRenamedRoots (job : Job) (roots : List String) (before after : Tree) :
    Prop where
  manifest : (updateFile job.manifestPath job.names.inText
    job.options.writeStrategy (job.afterResources before)).answer.isOk = true
  bytecode : job.RenamesRoots (job.afterManifest before) roots after

theorem Opens.of_success (opens : job.Opens world roots)
    (success : (job.run .passive false world).1.result.success = true) :
    job.HasRenamedRoots roots world.tree (job.run .passive false world).2.tree ∧
      ((job.run .passive false world).1.result.warnings = [] ↔
        job.CleanResources world.tree) := by
  have quiet : (job.context .passive).observer = .passive := rfl
  obtain ⟨isReport, isTree⟩ := opens.run_eq .passive false
  rw [stages_eq] at isReport isTree
  have noFailure : ¬ JobM.Fails
      (JobM.updatePackage (job.context .passive) job.names roots)
      world.tree := by
    intro fails
    obtain ⟨reason, reached, isRun⟩ :=
      fails (.initial (job.claimed world) false) rfl rfl
    rw [isReport, isRun] at success
    cases success
  have resources := JobM.completes_updateResources quiet job.names
    job.resourcePath world.tree
  cases manifest : (updateFile job.manifestPath job.names.inText
      job.options.writeStrategy (job.afterResources world.tree)).answer.isOk with
  | false =>
      exact absurd (resources.bind_fails fun _ =>
        (JobM.fails_updateManifest quiet manifest).bind _) noFailure
  | true =>
      have updates := JobM.completes_updateManifest quiet manifest
      rcases job.completes_or_fails_roots roots (job.afterManifest world.tree)
        with ⟨after, renames, completes⟩ | fails
      · obtain ⟨value, reached, isRun, -, isAfter, warned⟩ :=
          (resources.bind fun _ => updates.clean_bind fun _ => completes)
            (.initial (job.claimed world) false) rfl rfl
        have isStages : (JobM.updatePackage (job.context .passive) job.names
            roots).run (.initial (job.claimed world) false) =
              (.ok value, reached) := isRun
        rw [isStages] at isReport isTree
        refine ⟨⟨manifest, ?_⟩, ?_⟩
        · rw [isTree, isAfter]
          exact renames
        · rw [isReport]
          exact warned.trans
            ⟨fun clean => clean.2.1, fun clean => ⟨rfl, clean, trivial⟩⟩
      · exact absurd (resources.bind_fails fun _ =>
          updates.bind_fails fun _ => fails) noFailure

end Job

end PackageRename
