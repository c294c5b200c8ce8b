import PackageRename.Job.Replay
import PackageRename.Job.Script
import PackageRename.Proofs.Job.Meeting
import PackageRename.Proofs.Job.Package
import PackageRename.Proofs.Tree.Deciding
import PackageRename.Proofs.Tree.Orderly
import PackageRename.Proofs.Tree.Spelling
import PackageRename.Proofs.Tree.Walking

/-!
# Replaying the events of a job

Nothing is changed without an event, and no event is shown whose task is left
out.  So whatever comes of a job, its tree and its counters can be told from
where it started and the events that it has reported.
-/

namespace PackageRename

open PackageRename.Path

/-- The tree and the counters after a task. -/
def Task.count (names : Renaming) (strategy : WriteStrategy) (task : Task)
    (reached : Tree × Stats) : Tree × Stats :=
  let effect := task.effect names strategy reached.1
  (effect.tree, task.stage.record effect.answer (task.stage.visit reached.2))

namespace Job

variable (job : Job)

/-- The task that an event stands for. -/
def replayed (event : ProgressEvent) : Task :=
  ⟨event.stage, job.root.join event.path⟩

/-- The tree and the counters after the task that an event stands for. -/
def countEvent (reached : Tree × Stats) (event : ProgressEvent) :
    Tree × Stats :=
  (job.replayed event).count job.names job.options.writeStrategy reached

/-- The counters of a job that reports the given events. -/
def replayStats (tree : Tree) (events : List ProgressEvent) : Stats :=
  (events.foldl job.countEvent (tree, .zero)).2

theorem replayEvent_eq (tree : Tree) (event : ProgressEvent) :
    job.replayEvent tree event = ((job.replayed event).effect job.names
      job.options.writeStrategy tree).tree := by
  obtain ⟨stage, description, path⟩ := event
  cases stage <;> rfl

theorem replay_eq (tree : Tree) (events : List ProgressEvent) (stats : Stats) :
    job.replay tree events = (events.foldl job.countEvent (tree, stats)).1 := by
  rw [replay]
  induction events generalizing tree stats with
  | nil => rfl
  | cons event rest induction =>
      rw [List.foldl_cons, List.foldl_cons, induction, replayEvent_eq]
      rfl

theorem filesVisited_countEvent (reached : Tree × Stats)
    (event : ProgressEvent) :
    (job.countEvent reached event).2.filesVisited =
      reached.2.filesVisited +
        if event.stage ≠ .directoryStructure then 1 else 0 := by
  obtain ⟨stage, description, path⟩ := event
  rw [countEvent, replayed, Task.count]
  generalize Task.effect _ _ _ _ = effect
  rcases effect with ⟨answer, after, log⟩
  cases stage <;> cases answer with
  | error error => rfl
  | ok value => cases value <;> rfl

/-- Each event but that of a move is a visit. -/
theorem filesVisited_replayStats (tree : Tree) (events : List ProgressEvent) :
    (job.replayStats tree events).filesVisited =
      events.countP fun event => event.stage ≠ .directoryStructure := by
  have counts : ∀ reached : Tree × Stats,
      (events.foldl job.countEvent reached).2.filesVisited =
        reached.2.filesVisited +
          events.countP fun event => event.stage ≠ .directoryStructure := by
    induction events with
    | nil => exact fun _ => rfl
    | cons event rest induction =>
        intro reached
        rw [List.foldl_cons, induction, List.countP_cons, Nat.add_comm _ (ite ..),
          ← Nat.add_assoc]
        rw [filesVisited_countEvent]
        simp only [decide_eq_true_eq]
  exact (counts (tree, .zero)).trans (Nat.zero_add _)

end Job

/-! ### Moments that can be replayed -/

/-- The path of a task can be followed if that of its event can. -/
def Task.Fits (root : Path) (task : Task) : Prop :=
  task.path.bytes.length ≤ Tree.pathLimit ↔
    (root.join (task.path.relativeTo root)).bytes.length ≤ Tree.pathLimit

/-- What the event of a moment stands for is what the moment does. -/
def Moment.Replays (job : Job) (moment : Moment) : Prop :=
  ∀ stats, job.countEvent (moment.state.world.tree, stats)
      (moment.event job.root) =
    moment.task.count job.names job.options.writeStrategy
      (moment.state.world.tree, stats)

namespace Tree

variable {tree : Tree} {path other : Path} {substitutions : List Substitution}
variable {strategy : WriteStrategy}

/-- Two paths lead to one file, which can be replaced under both or under
neither, or to no file. -/
def SameFile (tree : Tree) (path other : Path) : Prop :=
  tree.fileAt path = tree.fileAt other ∧
      tree.replacedBy path = tree.replacedBy other ∨
    (∀ found, tree.fileAt path ≠ .ok found) ∧
      ∀ found, tree.fileAt other ≠ .ok found

/-- What an update does to the tree, and what it answers if it does not fail,
depends on the file alone. -/
theorem SameFile.updateFile (same : tree.SameFile path other) :
    (updateFile path substitutions strategy tree).tree =
        (updateFile other substitutions strategy tree).tree ∧
      ∀ outcome,
        (updateFile path substitutions strategy tree).answer = .ok outcome ↔
          (updateFile other substitutions strategy tree).answer =
            .ok outcome := by
  rcases same with ⟨same, sameTarget⟩ | ⟨missing, otherMissing⟩
  · have sameWrite : ∀ place file contents,
        tree.write path place file contents strategy =
          tree.write other place file contents strategy := by
      intro place file contents
      cases strategy with
      | inPlace => rfl
      | atomic => rw [write, write, sameTarget]
    rw [PackageRename.updateFile, PackageRename.updateFile, same]
    cases tree.fileAt other with
    | error fault => exact ⟨rfl, fun _ => by simp [Effect.fail]⟩
    | ok found =>
        obtain ⟨place, file⟩ := found
        dsimp only
        cases Utf8.decode? file.contents with
        | none =>
            dsimp only
            split
            · exact ⟨rfl, fun _ => by simp [Effect.fail]⟩
            · exact ⟨rfl, fun _ => Iff.rfl⟩
        | some text =>
            dsimp only
            split
            · exact ⟨rfl, fun _ => Iff.rfl⟩
            · split
              · exact ⟨rfl, fun _ => by simp [Effect.fail]⟩
              · rw [sameWrite]
                split
                · exact ⟨rfl, fun _ => by simp [Effect.fail]⟩
                · exact ⟨rfl, fun _ => Iff.rfl⟩
  · cases isPath : tree.fileAt path with
    | ok found => exact absurd isPath (missing found)
    | error fault =>
        cases isOther : tree.fileAt other with
        | ok found => exact absurd isOther (otherMissing found)
        | error otherFault =>
            rw [updateFile_of_missing isPath, updateFile_of_missing isOther]
            exact ⟨rfl, fun _ => by simp [Effect.fail]⟩

end Tree

/-- What failed adds nothing to the counters. -/
theorem Stage.record_congr {stage : Stage}
    {answer other : Except FileError stage.Answer}
    (same : ∀ value, answer = .ok value ↔ other = .ok value) (stats : Stats) :
    stage.record answer stats = stage.record other stats := by
  cases answer with
  | ok value => rw [(same value).mp rfl]
  | error error =>
      cases other with
      | ok value => cases (same value).mpr rfl
      | error otherError => cases stage <;> rfl

namespace Moment

variable {job : Job} {state : JobState} {path : Path}

theorem replays_of_same_path {stage : Stage}
    (same : job.root.join (path.relativeTo job.root) = path) :
    (⟨state, ⟨stage, path⟩⟩ : Moment).Replays job := by
  intro stats
  have isTask : job.replayed
      ((⟨state, ⟨stage, path⟩⟩ : Moment).event job.root) = ⟨stage, path⟩ :=
    congrArg (Task.mk stage) same
  rw [Job.countEvent, isTask]

theorem replays_of_same_file {stage : Stage}
    (isFile : stage ≠ .directoryStructure)
    (same : state.world.tree.SameFile
      (job.root.join (path.relativeTo job.root)) path) :
    (⟨state, ⟨stage, path⟩⟩ : Moment).Replays job := by
  intro stats
  cases stage with
  | directoryStructure => exact absurd rfl isFile
  | resources | manifest | bytecode =>
      exact Prod.ext same.updateFile.1
        (Stage.record_congr same.updateFile.2 _)

end Moment

/-! ### Courses through such moments -/

/-- The observer leaves the tree alone. -/
def Observer.KeepsTree (observer : Observer) : Prop :=
  ∀ events world, (observer events world).world.tree = world.tree

variable {context : JobContext} {names : Renaming}

theorem Task.carriedOut_tree (keeps : context.observer.KeepsTree) (task : Task)
    (state : JobState) :
    (task.carriedOut context names state).world.tree =
      (task.effect names context.options.writeStrategy state.world.tree).tree := by
  have sameTree : (task.reported context state).world.tree = state.world.tree :=
    keeps _ _
  rw [← sameTree]
  rfl

theorem Task.carriedOut_stats (keeps : context.observer.KeepsTree) (task : Task)
    (state : JobState) :
    (task.carriedOut context names state).stats =
      (task.count names context.options.writeStrategy
        (state.world.tree, state.stats)).2 := by
  have sameTree : (task.reported context state).world.tree = state.world.tree :=
    keeps _ _
  rw [Task.count, ← sameTree]
  rfl

/-- What a course leaves is what its events stand for. -/
theorem Course.replays {job : Job} {observer : Observer}
    (keeps : observer.KeepsTree) {state reached : JobState}
    {moments : List Moment}
    (course : Course (job.context observer) job.names state moments reached)
    (all : ∀ moment ∈ moments, moment.Replays job) :
    (reached.world.tree, reached.stats) =
      (moments.map (·.event job.root)).foldl job.countEvent
        (state.world.tree, state.stats) := by
  induction course with
  | rest quiet => rw [quiet.tree, quiet.stats, List.map_nil, List.foldl_nil]
  | @act state reached moment later quiet goesOn induction =>
      obtain ⟨now, afterwards⟩ := List.forall_mem_cons.mp all
      rw [induction afterwards, List.map_cons, List.foldl_cons, ← quiet.tree,
        ← quiet.stats, now, Moment.after, Task.carriedOut_tree keeps,
        Task.carriedOut_stats keeps]
      rfl

/-! ### What the stages come upon -/

namespace Tree

variable {tree other : Tree} {path root : Path}

/-- A directory whose path ends like that of a directory is walked as one. -/
theorem classify_ne_file {kind : Kind} (ends : EndsInSpelling path.pieces)
    (isDirectory : tree.isDirectory path = true)
    (found : tree.kindOf path = .ok kind) (other : Path) :
    tree.classify [] path kind ≠ .file other := by
  rw [kindOf_eq_directory ends isDirectory found]
  exact nofun

/-- A path that is named from the root leads to the file that its event leads
to. -/
theorem sameFile_of_isNamed {back : Path} (named : root.IsNamed back)
    (isDirectory : tree.isDirectory root = true)
    (fits : (root.join back).bytes.length ≤ pathLimit ↔
      (root.join ((root.join back).relativeTo root)).bytes.length ≤
        pathLimit) :
    tree.SameFile (root.join ((root.join back).relativeTo root))
      (root.join back) := by
  obtain ⟨same, ends | sameRoot⟩ := join_relativeTo_join named
  · exact .inl ⟨fileAt_eq_of_components same ends fits.symm,
      replacedBy_eq_of_components same ends⟩
  · exact .inr ⟨fileAt_ne_ok_of_components (same.trans sameRoot) isDirectory,
      fileAt_ne_ok_of_components sameRoot isDirectory⟩

end Tree

namespace Job

variable {job : Job} {observer : Observer} {tree other : Tree}

/-- The names in the tree are legal, and the root is a directory. -/
structure Stands (job : Job) (tree : Tree) : Prop where
  legal : tree.HasLegalNames
  root : tree.isDirectory job.root = true

theorem Stands.of_layout (stands : job.Stands tree)
    (same : other.layout = tree.layout) : job.Stands other :=
  ⟨stands.legal.of_layout same,
    (Tree.isDirectory_of_layout same job.root).trans stands.root⟩

/-- If the path of its task can be followed, a moment can be replayed. -/
def Replayable (job : Job) (moment : Moment) : Prop :=
  moment.task.Fits job.root → moment.Replays job

open Plan

theorem layout_carriedOut {stage : Stage}
    (isFile : stage ≠ .directoryStructure) (keeps : observer.KeepsTree)
    (path : Path) (state : JobState) :
    ((⟨stage, path⟩ : Task).carriedOut (job.context observer) job.names
      state).world.tree.layout = state.world.tree.layout := by
  rw [Task.carriedOut_tree keeps]
  cases stage with
  | directoryStructure => exact absurd rfl isFile
  | resources | manifest | bytecode => exact Tree.layout_updateFile path

/-- During the resource walk the resources stay a directory too. -/
def StandsWithResources (job : Job) (tree : Tree) : Prop :=
  job.Stands tree ∧ tree.isDirectory job.resourcePath = true

/-- What the resource walk can come upon: what is named from the root, and no
file whose path ends like that of a directory. -/
def ResourceVisit (job : Job) : Tree.Visited → Prop
  | .directory path => ∃ back, path = job.root.join back
  | .file path => (∃ back, path = job.root.join back) ∧
      ¬ EndsInSpelling path.pieces
  | .failure _ _ => True

theorem meets_visitResource (keeps : observer.KeepsTree)
    {visited : Tree.Visited} (isVisit : job.ResourceVisit visited) :
    Meets (job.context observer) job.names job.StandsWithResources
      job.Replayable job.StandsWithResources
      (visitResource (job.context observer) visited) := by
  refine .check ?_
  cases visited with
  | directory path => exact meets_done fun _ stands => stands
  | failure path fault =>
      exact .note (.warn (meets_done fun _ stands => stands))
  | file path =>
      obtain ⟨⟨back, rfl⟩, closed⟩ := isVisit
      have leaves : ∀ state : JobState, job.StandsWithResources
          state.world.tree → job.StandsWithResources
            (Task.carriedOut (job.context observer) job.names
              ⟨.resources, job.root.join back⟩ state).world.tree := by
        intro state stands
        exact ⟨stands.1.of_layout (layout_carriedOut (by decide) keeps _ state),
          (Tree.isDirectory_of_layout
            (layout_carriedOut (by decide) keeps _ state) _).trans stands.2⟩
      refine .act (fun state stands fits => ?_) leaves fun answer => ?_
      · exact Moment.replays_of_same_file nofun
          (Tree.sameFile_of_isNamed (.inl closed) stands.1.root fits)
      · cases answer with
        | ok outcome => exact meets_done fun _ stands => stands
        | error error =>
            exact .note (.warn (meets_done fun _ stands => stands))

theorem meets_updateResources (keeps : observer.KeepsTree) :
    Meets (job.context observer) job.names job.Stands job.Replayable job.Stands
      (updateResources (job.context observer) job.resourcePath) := by
  have walks : Meets (job.context observer) job.names job.StandsWithResources
      job.Replayable job.StandsWithResources
      (Tree.walk Plan.tree (visitResource (job.context observer))
        job.resourcePath) := by
    refine .walk (fun visited => meets_visitResource keeps)
      (fun tree kind stands isKind => ?_) (fun _ => trivial)
      (fun tree later above path children entry stands _ isVisit listed
        member => ?_) (fun _ _ _ => trivial)
    · rcases Tree.classify_cases tree job.resourcePath [] kind with
        isVisit | isVisit | ⟨fault, isVisit⟩
      · rw [isVisit]
        exact ⟨_, rfl⟩
      · rw [isVisit]
        exact ⟨⟨_, rfl⟩, fun ends =>
          Tree.classify_ne_file ends stands.2 isKind _ isVisit⟩
      · rw [isVisit]
        trivial
    · obtain ⟨back, rfl⟩ := isVisit
      have plain := (stands.1.legal.of_list listed member).plain
      have isNamed : ∃ further, (job.root.join back).join ⟨entry.1⟩ =
          job.root.join further := ⟨_, join_assoc job.root back ⟨entry.1⟩⟩
      rcases Tree.classify_cases later
        ((job.root.join back).join ⟨entry.1⟩) above entry.2 with
        isVisit | isVisit | ⟨fault, isVisit⟩
      · rw [isVisit]
        exact isNamed
      · rw [isVisit]
        refine ⟨isNamed, ?_⟩
        rw [pieces_join_name plain, endsInSpelling_concat,
          plain.not_isSpelling]
        exact Bool.false_ne_true
      · rw [isVisit]
        trivial
  refine .look_at fun found stands => ?_
  change Meets _ _ _ _ _ (ite (found.isDirectory job.resourcePath = true) _ _)
  split
  · rename_i isDirectory
    exact walks.mono (fun _ same => same ▸ ⟨stands, isDirectory⟩)
      fun _ stands => stands.1
  · exact .note (meets_done fun _ same => same ▸ stands)

theorem meets_updateManifest (keeps : observer.KeepsTree)
    (named : job.root.IsNamed (Path.ofString job.options.manifestFile)) :
    Meets (job.context observer) job.names job.Stands job.Replayable job.Stands
      (updateManifest (job.context observer) job.manifestPath) := by
  have leaves : ∀ state : JobState, job.Stands state.world.tree →
      job.Stands (Task.carriedOut (job.context observer) job.names
        ⟨.manifest, job.manifestPath⟩ state).world.tree :=
    fun state stands => stands.of_layout
      (layout_carriedOut (by decide) keeps job.manifestPath state)
  refine .check (.act (fun state stands fits => ?_) leaves fun answer => ?_)
  · exact Moment.replays_of_same_file nofun
      (Tree.sameFile_of_isNamed named stands.root fits)
  · cases answer with
    | error error => exact .note meets_fail
    | ok outcome =>
        cases outcome with
        | changed replacements => exact meets_done fun _ stands => stands
        | unchanged => exact .note (meets_done fun _ stands => stands)

/-- What the walk of a bytecode root can come upon. -/
def BytecodeVisit (job : Job) : Tree.Visited → Prop
  | .directory path | .file path => ∃ names, names ≠ [] ∧
      ArePlain names ∧ path = job.root.below names
  | .failure _ _ => True

theorem bytecodeVisit_classify {names : List Name} (some : names ≠ [])
    (plain : ArePlain names) (above : List Path) (kind : Kind) :
    job.BytecodeVisit (tree.classify above (job.root.below names) kind) := by
  rcases Tree.classify_cases tree (job.root.below names) above kind with
    isVisit | isVisit | ⟨fault, isVisit⟩
  · rw [isVisit]
    exact ⟨names, some, plain, rfl⟩
  · rw [isVisit]
    exact ⟨names, some, plain, rfl⟩
  · rw [isVisit]
    trivial

/-- The event of what lies below the root leads straight back to it. -/
theorem join_relativeTo_below {root : Path} {names : List Name}
    (some : names ≠ []) (plain : ArePlain names) :
    root.join ((root.below names).relativeTo root) = root.below names := by
  have ends : ¬ EndsInSpelling (root.below names).pieces := by
    obtain ⟨front, last, isNames⟩ :=
      (List.eq_nil_or_concat names).resolve_left some
    rw [List.concat_eq_append] at isNames
    rw [isNames] at plain
    rw [pieces_below some (isNames ▸ plain), isNames, ← List.append_assoc,
      endsInSpelling_concat, plain.last.not_isSpelling]
    exact Bool.false_ne_true
  cases names with
  | nil => exact absurd rfl some
  | cons name rest =>
      have isBack : root.below (name :: rest) =
          root.join ((Path.mk name).below rest) := below_join root ⟨name⟩ rest
      have straight : IsStraight ((Path.mk name).below rest) := by
        refine ⟨?_, ?_⟩
        · rw [isAbsolute_below plain.tail, isAbsolute_name plain.head]
        · have isBelow : (Path.mk name).below rest =
              (Path.mk []).below (name :: rest) := by
            rw [below_cons, join_of_empty rfl]
          rw [isBelow, pieces_below some plain, stem_eq_nil_iff.mpr rfl,
            List.nil_append, List.head?_cons, ne_eq, Option.some_inj]
          exact plain.head.notCurrent
      rw [isBack] at ends ⊢
      exact join_relativeTo_of_straight straight (.inl ends)

theorem meets_visitBytecode (keeps : observer.KeepsTree)
    {visited : Tree.Visited} (isVisit : job.BytecodeVisit visited) :
    Meets (job.context observer) job.names Tree.HasLegalNames job.Replayable
      Tree.HasLegalNames (visitBytecode (job.context observer) visited) := by
  refine .check ?_
  cases visited with
  | directory path => exact meets_done fun _ legal => legal
  | failure path fault => exact .note meets_fail
  | file path =>
      obtain ⟨names, some, plain, rfl⟩ := isVisit
      have leaves : ∀ state : JobState, state.world.tree.HasLegalNames →
          (Task.carriedOut (job.context observer) job.names
            ⟨.bytecode, job.root.below names⟩ state).world.tree.HasLegalNames :=
        fun state legal =>
          legal.of_layout (layout_carriedOut (by decide) keeps _ state)
      refine .act (fun _ _ _ => ?_) leaves fun answer => ?_
      · exact Moment.replays_of_same_path (join_relativeTo_below some plain)
      · cases answer with
        | ok outcome => exact meets_done fun _ legal => legal
        | error error => exact .note meets_fail

theorem meets_relocate (keeps : observer.KeepsTree) {name : String}
    (plain : Name.IsPlain (Utf8.encode name)) :
    Meets (job.context observer) job.names Tree.HasLegalNames job.Replayable
      Tree.HasLegalNames
      (relocate job.names name (job.root.join (Path.ofString name))) := by
  have leaves : ∀ state : JobState, state.world.tree.HasLegalNames →
      (Task.carriedOut (job.context observer) job.names
        ⟨.directoryStructure, job.root.join (Path.ofString name)⟩
        state).world.tree.HasLegalNames := by
    intro state legal
    rw [Task.carriedOut_tree keeps]
    exact legal.movePackage _ _ _
  have same : job.root.join
      ((job.root.join (Path.ofString name)).relativeTo job.root) =
        job.root.join (Path.ofString name) := by
    rw [Tree.join_ofString]
    exact join_relativeTo_below (List.cons_ne_nil _ _)
      (arePlain_singleton plain)
  refine .check (.act (fun _ _ _ => ?_) leaves fun answer => ?_)
  · exact Moment.replays_of_same_path same
  · cases answer with
    | error error => exact .note meets_fail
    | ok moved =>
        cases moved <;> exact .note (meets_done fun _ legal => legal)

theorem meets_updateBytecodeRoot (keeps : observer.KeepsTree) {name : String}
    (plain : Name.IsPlain (Utf8.encode name)) :
    Meets (job.context observer) job.names Tree.HasLegalNames job.Replayable
      Tree.HasLegalNames
      (updateBytecodeRoot (job.context observer) job.names name) := by
  have walks : Meets (job.context observer) job.names Tree.HasLegalNames
      job.Replayable Tree.HasLegalNames
      (Tree.walk Plan.tree (visitBytecode (job.context observer))
        (job.root.below [Utf8.encode name])) := by
    refine .walk (fun visited => meets_visitBytecode keeps)
      (fun tree kind _ _ => bytecodeVisit_classify (List.cons_ne_nil _ _)
        (arePlain_singleton plain) [] kind) (fun _ => trivial)
      (fun tree later above path children entry legal _ isVisit listed
        member => ?_) (fun _ _ _ => trivial)
    obtain ⟨names, -, plainNames, rfl⟩ := isVisit
    have entryPlain := (legal.of_list listed member).plain
    rw [← below_concat]
    exact bytecodeVisit_classify (by simp)
      (plainNames.append (arePlain_singleton entryPlain)) above entry.2
  exact walks.bind fun _ => meets_relocate keeps plain

theorem meets_updatePackage (keeps : observer.KeepsTree) {roots : List String}
    (named : job.root.IsNamed (Path.ofString job.options.manifestFile))
    (plain : ∀ name ∈ roots, Name.IsPlain (Utf8.encode name)) :
    Meets (job.context observer) job.names job.Stands job.Replayable
      Tree.HasLegalNames (job.plan observer roots) := by
  have bytecode : Meets (job.context observer) job.names Tree.HasLegalNames
      job.Replayable Tree.HasLegalNames
      (updateBytecode (job.context observer) job.names roots) :=
    .forM fun name member => meets_updateBytecodeRoot keeps (plain name member)
  have manifest := (meets_updateManifest keeps named).bind fun _ =>
    bytecode.mono (fun _ (stands : job.Stands _) => stands.legal)
      fun _ legal => legal
  exact (meets_updateResources keeps).bind fun _ => manifest

theorem Opens.replays {cancelled : Bool} {world : World} {roots : List String}
    (opens : job.Opens world roots) (legal : world.tree.HasLegalNames)
    (named : job.root.IsNamed (Path.ofString job.options.manifestFile))
    (keeps : observer.KeepsTree)
    (fits : ∀ moment ∈ job.journal observer cancelled roots world,
      moment.task.Fits job.root) :
    ((job.run observer cancelled world).2.tree,
        (job.run observer cancelled world).1.result.stats) =
      (job.run observer cancelled world).1.events.foldl job.countEvent
        (world.tree, .zero) := by
  have stands : job.Stands world.tree := by
    refine ⟨legal, ?_⟩
    obtain ⟨children, listed, -⟩ := Tree.bind_eq_ok.mp opens.found
    exact Tree.isDirectory_of_list listed
  obtain ⟨moments, -⟩ := meets_updatePackage keeps named
    (fun _ member => opens.isPlain_of_mem legal member)
    (.initial (job.claimed world) cancelled) stands
  have reaches := (course_stages job observer cancelled roots world).replays
    keeps fun moment member => moments moment member (fits moment member)
  rw [← opens.events_eq observer cancelled] at reaches
  obtain ⟨report, tree⟩ := opens.run_eq observer cancelled
  have stats : (job.run observer cancelled world).1.result.stats =
      (job.stages observer cancelled roots world).2.stats := by
    rw [report, JobState.result_stats]
  rw [tree, stats]
  exact reaches

/-- Whatever comes of a job whose observer leaves the tree alone, its tree and
its counters are what its events stand for, and each event but that of a move
is a visit. -/
theorem run_replays (job : Job) (observer : Observer) (cancelled : Bool)
    (world : World) (legal : world.tree.HasLegalNames)
    (notSlash : ¬ [slash] <:+ Utf8.encode job.options.manifestFile)
    (notDotted : ¬ [slash, dot] <:+ Utf8.encode job.options.manifestFile)
    (keeps : observer.KeepsTree)
    (fits : ∀ roots, job.Opens world roots →
      ∀ moment ∈ job.journal observer cancelled roots world,
        moment.task.Fits job.root) :
    (job.run observer cancelled world).2.tree =
        job.replay world.tree (job.run observer cancelled world).1.events ∧
      (job.run observer cancelled world).1.result.stats =
        job.replayStats world.tree
          (job.run observer cancelled world).1.events ∧
      (job.run observer cancelled world).1.result.stats.filesVisited =
        (job.run observer cancelled world).1.events.countP
          fun event => event.stage ≠ .directoryStructure := by
  have told : ((job.run observer cancelled world).2.tree,
      (job.run observer cancelled world).1.result.stats) =
        (job.run observer cancelled world).1.events.foldl job.countEvent
          (world.tree, .zero) := by
    by_cases opened : ∃ roots, job.Opens world roots
    · obtain ⟨roots, opens⟩ := opened
      exact opens.replays legal (isNamed_of_not_suffix notSlash notDotted) keeps
        (fits roots opens)
    · obtain ⟨result, refused, report, tree⟩ :=
        run_refused (not_exists.mp opened) observer cancelled
      rw [report, tree]
      cases refused <;> rfl
  have stats := congrArg Prod.snd told
  refine ⟨?_, stats, ?_⟩
  · rw [replay_eq job world.tree _ .zero]
    exact congrArg Prod.fst told
  · exact (congrArg Stats.filesVisited stats).trans
      (filesVisited_replayStats job world.tree _)

/-- A job whose manifest is written in a longer way than its event shows it. -/
def windingJob : Job :=
  .of (Path.ofString "p") "a" "b" ⟨"res", "./m", "smali", .inPlace⟩

def windingTree : Tree :=
  .holding [("p/m", "a"), ("p/res/x", "a"), ("p/smali/a/X", "La/X;")]

/-- Asked to stop in the bytecode root, the job has renamed the manifest that
its second event stands for. -/
theorem run_replays_winding :
    windingTree.HasLegalNames ∧
      ((windingJob.run (Script.cancel 2 .done).observer false
          (.ofTree windingTree)).2.tree =
        windingJob.replay windingTree
          (windingJob.run (Script.cancel 2 .done).observer false
            (.ofTree windingTree)).1.events) ∧
      (windingJob.run (Script.cancel 2 .done).observer false
          (.ofTree windingTree)).1.result.stats.filesVisited = 3 := by
  have legal : windingTree.HasLegalNames :=
    Tree.hasLegalNames_of_nodes (by decide +kernel)
  have opens : windingJob.Opens (.ofTree windingTree) ["smali"] :=
    ⟨by decide, by decide, by decide, List.not_mem_nil, by decide +kernel⟩
  have told := run_replays windingJob (Script.cancel 2 .done).observer false
    (.ofTree windingTree) legal (by decide +kernel) (by decide +kernel)
    (fun _ _ => rfl) (fun roots others => by
      have same : roots = ["smali"] :=
        Except.ok.inj (others.found.symm.trans opens.found)
      rw [same]
      simp only [Task.Fits]
      decide +kernel)
  refine ⟨legal, told.1, told.2.2.trans ?_⟩
  decide +kernel

/-- A job whose manifest is written in so long a way that the system does not
follow it, though it would follow what its event shows. -/
def overlongJob : Job :=
  .of (Path.ofString "p") "a" "b"
    ⟨"res", String.ofList ((List.replicate 2047 ['.', '/']).flatten ++ ['m']),
      "smali", .atomic⟩

def overlongTree : Tree :=
  .holding [("p/m", "a")]

set_option maxRecDepth 100000 in
/-- Its one event stands for renaming the manifest, which the job does not. -/
theorem not_replays_overlong :
    overlongTree.HasLegalNames ∧
      ¬ [slash] <:+ Utf8.encode overlongJob.options.manifestFile ∧
      ¬ [slash, dot] <:+ Utf8.encode overlongJob.options.manifestFile ∧
      Observer.passive.KeepsTree ∧
      (overlongJob.run .passive false (.ofTree overlongTree)).2.tree ≠
        overlongJob.replay overlongTree
          (overlongJob.run .passive false (.ofTree overlongTree)).1.events := by
  refine ⟨Tree.hasLegalNames_of_nodes (by decide +kernel), by decide +kernel,
    by decide +kernel, fun _ _ => rfl, fun same => ?_⟩
  have contents := congrArg
    (fun tree : Tree => (tree.fileAt (Path.ofString "p/m")).toOption.map
      fun found => found.2.contents) same
  revert contents
  decide +kernel

end Job

end PackageRename
