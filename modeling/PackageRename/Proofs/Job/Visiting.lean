import PackageRename.Proofs.Job.Replaying
import PackageRename.Proofs.Tree.Sharing

/-!
# The visits to a file

A job updates a file once for each of its names and for each link to it that it
comes upon.  What becomes of the contents is told by these visits: each applies
the substitutions of its stage to what the one before has left.
-/

namespace PackageRename

/-- The substitutions that a stage applies to the files it visits. -/
def Renaming.inStage (names : Renaming) : Stage → List Substitution
  | .resources | .manifest => names.inText
  | .bytecode => names.inBytecode
  | .directoryStructure => []

/-! ### One task -/

namespace Task

variable (names : Renaming) (strategy : WriteStrategy) (task : Task)
variable {tree : Tree} {place next : Place} {file : File}

/-- Where a task takes what stands at a place. -/
def carry (tree : Tree) (place : Place) : Option Place :=
  match task.stage with
  | .directoryStructure =>
      tree.followPackage task.path names.source names.target place
  | _ => some place

/-- Whether a task updates the file at a place, under whatever name. -/
def visits (tree : Tree) (place : Place) : Bool :=
  match task.stage with
  | .directoryStructure => false
  | _ => (task.effect names strategy tree).answer.isOk &&
      tree.reaches strategy task.path place

theorem sharesContents_effect (shares : tree.SharesContents) :
    (task.effect names strategy tree).tree.SharesContents := by
  obtain ⟨stage, path⟩ := task
  cases stage with
  | resources | manifest | bytecode => exact shares.updateFile path _ strategy
  | directoryStructure =>
      exact (Tree.carriesFiles_movePackage path _ _ tree).sharesContents shares

/-- A task applies the substitutions of its stage to the files that it visits
and leaves the contents of all others alone. -/
theorem exists_after (shares : tree.SharesContents)
    (isFile : tree.node? place = some (.file file))
    (arrives : task.carry names tree place = some next) :
    ∃ after, (task.effect names strategy tree).tree.node? next =
        some (.file after) ∧
      after.contents =
        if task.visits names strategy tree place then
          Substitution.inContents (names.inStage task.stage) file.contents
        else file.contents := by
  obtain ⟨stage, path⟩ := task
  cases stage with
  | resources | manifest | bytecode =>
      cases arrives
      exact Tree.exists_updated shares isFile path _ strategy
  | directoryStructure =>
      exact ⟨file, (Tree.carriesFiles_movePackage path _ _ tree).arrives isFile
        arrives, rfl⟩

/-- No task makes a file. -/
theorem exists_before {after : File}
    (isFile : (task.effect names strategy tree).tree.node? next =
      some (.file after)) :
    ∃ place file, tree.node? place = some (.file file) ∧
      task.carry names tree place = some next := by
  obtain ⟨stage, path⟩ := task
  cases stage with
  | resources | manifest | bytecode =>
      obtain ⟨file, wasFile⟩ :=
        Tree.exists_file_of_layout (Tree.layout_updateFile path) isFile
      exact ⟨next, file, wasFile, rfl⟩
  | directoryStructure =>
      obtain ⟨place, arrives, wasFile⟩ :=
        (Tree.carriesFiles_movePackage path _ _ tree).comes isFile
      exact ⟨place, after, wasFile, arrives⟩

end Task

/-! ### A row of moments -/

namespace Job

variable (job : Job)

/-- Where the tasks of some moments take what stands at a place. -/
def followed : List Moment → Place → Option Place
  | [], place => some place
  | moment :: later, place =>
      (moment.task.carry job.names moment.state.world.tree place).bind
        (followed later)

/-- The stages of the moments that visit the file at a place, which is followed
through the moves. -/
def visits : List Moment → Place → List Stage
  | [], _ => []
  | moment :: later, place =>
      let tree := moment.state.world.tree
      let rest := (moment.task.carry job.names tree place).elim [] (visits later)
      if moment.task.visits job.names job.options.writeStrategy tree place then
        moment.task.stage :: rest
      else rest

/-- What the visits of some stages make of contents, one after the other. -/
def contentsAfter (stages : List Stage) (contents : List UInt8) : List UInt8 :=
  stages.foldl (fun contents stage =>
    Substitution.inContents (job.names.inStage stage) contents) contents

end Job

section Course

open Job

variable {job : Job} {observer : Observer} {state reached : JobState}
variable {moments : List Moment} {final : Place}

theorem Moment.tree_after (keeps : observer.KeepsTree) (moment : Moment) :
    (moment.after (job.context observer) job.names).world.tree =
      (moment.task.effect job.names job.options.writeStrategy
        moment.state.world.tree).tree :=
  Task.carriedOut_tree keeps moment.task moment.state

/-- A file that can be followed to the end of a course has the contents that
its visits have made. -/
theorem Course.exists_after (keeps : observer.KeepsTree)
    (course : Course (job.context observer) job.names state moments reached)
    (shares : state.world.tree.SharesContents) {place : Place} {file : File}
    (isFile : state.world.tree.node? place = some (.file file))
    (arrives : job.followed moments place = some final) :
    ∃ last, reached.world.tree.node? final = some (.file last) ∧
      last.contents =
        job.contentsAfter (job.visits moments place) file.contents := by
  induction course generalizing place file with
  | rest quiet =>
      cases arrives
      exact ⟨file, by rw [quiet.tree, isFile], rfl⟩
  | @act state reached moment later quiet goesOn induction =>
      obtain ⟨next, carried, arrives⟩ := Option.bind_eq_some_iff.mp arrives
      rw [← quiet.tree] at shares isFile
      have isTree : (moment.after (job.context observer) job.names).world.tree =
          _ := moment.tree_after keeps
      obtain ⟨after, isAfter, contents⟩ := moment.task.exists_after job.names
        job.options.writeStrategy shares isFile carried
      rw [← isTree] at isAfter
      have sharesAfter := moment.task.sharesContents_effect job.names
        job.options.writeStrategy shares
      rw [← isTree] at sharesAfter
      obtain ⟨last, isLast, lastContents⟩ :=
        induction sharesAfter isAfter arrives
      refine ⟨last, isLast, ?_⟩
      rw [lastContents, contents, visits, carried]
      dsimp only [Option.elim]
      split <;> rfl

/-- Every file at the end of a course can be followed from one at its start. -/
theorem Course.exists_before (keeps : observer.KeepsTree)
    (course : Course (job.context observer) job.names state moments reached)
    {last : File} (isLast : reached.world.tree.node? final = some (.file last)) :
    ∃ place file, state.world.tree.node? place = some (.file file) ∧
      job.followed moments place = some final := by
  induction course with
  | rest quiet => exact ⟨final, last, by rw [← quiet.tree, isLast], rfl⟩
  | @act state reached moment later quiet goesOn induction =>
      obtain ⟨next, after, isAfter, arrives⟩ := induction isLast
      rw [moment.tree_after keeps] at isAfter
      obtain ⟨place, file, wasFile, carried⟩ := moment.task.exists_before
        job.names job.options.writeStrategy isAfter
      exact ⟨place, file, by rw [← quiet.tree, wasFile],
        Option.bind_eq_some_iff.mpr ⟨next, carried, arrives⟩⟩

end Course

namespace Job

variable {job : Job}

/-- A file with at most one visit has its contents or those after one
update. -/
theorem contentsAfter_cases {stages : List Stage} (few : stages.length ≤ 1)
    (contents : List UInt8) :
    job.contentsAfter stages contents = contents ∨
      ∃ stage, stages = [stage] ∧ job.contentsAfter stages contents =
        Substitution.inContents (job.names.inStage stage) contents := by
  match stages, few with
  | [], _ => exact .inl rfl
  | [stage], _ => exact .inr ⟨stage, rfl, rfl⟩

/-- Job that has succeeded has come to its stages, unless there was nothing to
do. -/
theorem opens_of_success {observer : Observer} {cancelled : Bool}
    {world : World} (different : job.names.source ≠ job.names.target)
    (success : (job.run observer cancelled world).1.result.success = true) :
    ∃ roots, job.Opens world roots := by
  by_contra closed
  obtain ⟨result, refused, report, -⟩ :=
    run_refused (not_exists.mp closed) observer cancelled
  rw [report] at success
  cases refused with
  | same isSame => exact different isSame
  | unnamed _ | busy | packageRoot _ => cases success

/-- What becomes of the files of a package whose job succeeds: each that is
there afterwards has been there before, and has the contents that its visits
have made.  So a file that is visited at most once is never renamed twice. -/
theorem run_applies_visits (job : Job) (world : World)
    (different : job.names.source ≠ job.names.target)
    (shares : world.tree.SharesContents)
    (success : (job.run .passive false world).1.result.success = true) :
    ∃ roots, job.Opens world roots ∧
      (∀ place file final, world.tree.node? place = some (.file file) →
        job.followed (job.journal .passive false roots world) place =
          some final →
        ∃ last, (job.run .passive false world).2.tree.node? final =
            some (.file last) ∧
          last.contents = job.contentsAfter
            (job.visits (job.journal .passive false roots world) place)
            file.contents ∧
          ((job.visits (job.journal .passive false roots world)
              place).length ≤ 1 →
            last.contents = file.contents ∨
              ∃ stage, last.contents = Substitution.inContents
                (job.names.inStage stage) file.contents)) ∧
      ∀ final last, (job.run .passive false world).2.tree.node? final =
          some (.file last) →
        ∃ place file, world.tree.node? place = some (.file file) ∧
          job.followed (job.journal .passive false roots world) place =
            some final := by
  obtain ⟨roots, opens⟩ := opens_of_success different success
  have course := course_stages job .passive false roots world
  have keeps : Observer.passive.KeepsTree := fun _ _ => rfl
  obtain ⟨-, tree⟩ := opens.run_eq .passive false
  refine ⟨roots, opens, fun place file final isFile arrives => ?_,
    fun final last isLast => ?_⟩
  · obtain ⟨last, isLast, contents⟩ :=
      course.exists_after keeps shares isFile arrives
    refine ⟨last, by rw [tree, isLast], contents, fun few => ?_⟩
    rw [contents]
    exact (contentsAfter_cases few file.contents).imp_right
      fun ⟨stage, _, once⟩ => ⟨stage, once⟩
  · rw [tree] at isLast
    exact course.exists_before keeps isLast

/-- A package in which a link leads to a resource file. -/
def linkedTree : Tree :=
  (Tree.holding [("p/AndroidManifest.xml", ""), ("p/res/a", "com.app")]).edit
    ⟨[], [(Path.ofString "p/res/b", .link (Path.ofString "a"))]⟩

def linkedJob (target : String) : Job :=
  .of (Path.ofString "p") "com.app" target .standard

def linkedFile : Place := [Utf8.encode "p", Utf8.encode "res", Utf8.encode "a"]

theorem linkedTree_sharesContents : linkedTree.SharesContents :=
  Tree.sharesContents_of_nodes (by decide +kernel)

/-- The second visit finds nothing to do if the new name does not hold the
old. -/
theorem run_applies_visits_linked :
    ∃ roots, (linkedJob "org.clone").Opens (.ofTree linkedTree) roots ∧
      ∃ last, ((linkedJob "org.clone").run .passive false
          (.ofTree linkedTree)).2.tree.node? linkedFile = some (.file last) ∧
        last.contents = (linkedJob "org.clone").contentsAfter
          [.resources, .resources] (Utf8.encode "com.app") := by
  obtain ⟨roots, opens, applies, -⟩ := run_applies_visits
    (linkedJob "org.clone") (.ofTree linkedTree) (by decide)
    linkedTree_sharesContents (by decide +kernel)
  have same : roots = [] := by
    have found : bytecodeRoots (linkedJob "org.clone").root
        (linkedJob "org.clone").options linkedTree = .ok [] := by
      decide +kernel
    exact Except.ok.inj (opens.found.symm.trans found)
  subst same
  obtain ⟨last, isLast, contents, -⟩ := applies linkedFile
    (.fresh (Utf8.encode "com.app") File.ownerMode) linkedFile
    (by decide +kernel) (by decide +kernel)
  refine ⟨[], opens, last, isLast, contents.trans ?_⟩
  decide +kernel

/-- If the new name holds the old, the second visit renames what the first has
written. -/
theorem renamed_twice_through_link :
    ((linkedJob "com.app.clone").run .passive false
        (.ofTree linkedTree)).1.result.success = true ∧
      ((linkedJob "com.app.clone").run .passive false
        (.ofTree linkedTree)).1.result.warnings = [] ∧
      ∃ file last, linkedTree.node? linkedFile = some (.file file) ∧
        ((linkedJob "com.app.clone").run .passive false
          (.ofTree linkedTree)).2.tree.node? linkedFile = some (.file last) ∧
        last.contents = Utf8.encode "com.app.clone.clone" ∧
        last.contents ≠ file.contents ∧
        last.contents ≠ Substitution.inContents
          (linkedJob "com.app.clone").names.inText file.contents ∧
        last.contents ≠ Substitution.inContents
          (linkedJob "com.app.clone").names.inBytecode file.contents := by
  refine ⟨by decide +kernel, by decide +kernel,
    .fresh (Utf8.encode "com.app") File.ownerMode,
    ⟨Utf8.encode "com.app.clone.clone", File.ownerMode, none, true⟩, ?_⟩
  decide +kernel

end Job

end PackageRename
