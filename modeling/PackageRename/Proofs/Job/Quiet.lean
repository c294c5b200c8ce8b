import PackageRename.Proofs.Job.Running
import PackageRename.Proofs.Tree.Settling

/-!
# Jobs that nobody disturbs

With an observer that only watches, and as long as nobody cancels the job, each
of its parts takes the tree from one state to another or fails, whatever else
the job has in its state.
-/

namespace PackageRename

namespace JobM

variable {α β : Type} {before between after : Tree} {clean further : Prop}

/-- Started on a tree and not cancelled, the part ends normally with another
tree, and warns about something unless all is clean. -/
def Completes (action : JobM α) (before after : Tree) (clean : Prop) : Prop :=
  ∀ state : JobState, state.cancelled = false → state.world.tree = before →
    ∃ value reached, action.run state = (.ok value, reached) ∧
      reached.cancelled = false ∧ reached.world.tree = after ∧
      (reached.warnings = [] ↔ state.warnings = [] ∧ clean)

/-- Started on a tree and not cancelled, the part fails. -/
def Fails (action : JobM α) (before : Tree) : Prop :=
  ∀ state : JobState, state.cancelled = false → state.world.tree = before →
    ∃ reason reached, action.run state = (.error reason, reached)

/-! ### Putting parts together -/

theorem Completes.bind {first : JobM α} {next : α → JobM β}
    (completes : Completes first before between clean)
    (goesOn : ∀ value, Completes (next value) between after further) :
    Completes (first >>= next) before after (clean ∧ further) := by
  intro state running isTree
  obtain ⟨value, reached, isRun, reachedRunning, reachedTree, warned⟩ :=
    completes state running isTree
  obtain ⟨answer, final, isFinal, finalRunning, finalTree, finalWarned⟩ :=
    goesOn value reached reachedRunning reachedTree
  refine ⟨answer, final, ?_, finalRunning, finalTree, ?_⟩
  · rw [run_bind, isRun]
    exact isFinal
  · rw [finalWarned, warned, and_assoc]

theorem Completes.bind_fails {first : JobM α} {next : α → JobM β}
    (completes : Completes first before between clean)
    (fails : ∀ value, Fails (next value) between) :
    Fails (first >>= next) before := by
  intro state running isTree
  obtain ⟨value, reached, isRun, reachedRunning, reachedTree, -⟩ :=
    completes state running isTree
  obtain ⟨reason, final, isFinal⟩ :=
    fails value reached reachedRunning reachedTree
  refine ⟨reason, final, ?_⟩
  rw [run_bind, isRun]
  exact isFinal

theorem Fails.bind {first : JobM α} (fails : Fails first before)
    (next : α → JobM β) : Fails (first >>= next) before := by
  intro state running isTree
  obtain ⟨reason, reached, isRun⟩ := fails state running isTree
  refine ⟨reason, reached, ?_⟩
  rw [run_bind, isRun]

theorem Completes.congr {action : JobM α}
    (completes : Completes action before after clean)
    (same : clean ↔ further) : Completes action before after further := by
  intro state running isTree
  obtain ⟨value, reached, isRun, stillRunning, isAfter, warned⟩ :=
    completes state running isTree
  exact ⟨value, reached, isRun, stillRunning, isAfter, by rw [warned, same]⟩

/-- What goes before without complaint can be left out of account. -/
theorem Completes.clean_bind {first : JobM α} {next : α → JobM β}
    (completes : Completes first before between True)
    (goesOn : ∀ value, Completes (next value) between after clean) :
    Completes (first >>= next) before after clean :=
  (completes.bind goesOn).congr (by simp)

theorem completes_pure (value : α) :
    Completes (pure value : JobM α) before before True := by
  intro state running isTree
  exact ⟨value, state, rfl, running, isTree, by simp⟩

theorem completes_note (severity : Severity) (message : String) :
    Completes (note severity message) before before True := by
  intro state running isTree
  exact ⟨(), _, run_note severity message state, running, isTree, by simp⟩

theorem completes_updateStats (update : Stats → Stats) :
    Completes (updateStats update) before before True := by
  intro state running isTree
  exact ⟨(), _, run_updateStats update state, running, isTree, by simp⟩

theorem completes_warn (path : Path) (message : String) :
    Completes (warn path message) before before False := by
  intro state running isTree
  exact ⟨(), _, run_warn path message state, running, isTree, by simp⟩

theorem fails_throw (reason : FailureReason) :
    Fails (throw reason : JobM α) before :=
  fun state _ _ => ⟨reason, state, run_throw reason state⟩

theorem completes_checkCancelled :
    Completes checkCancelled before before True := by
  intro state running isTree
  refine ⟨(), state, ?_, running, isTree, by simp⟩
  rw [run_checkCancelled, running]
  rfl

theorem completes_emit {context : JobContext}
    (quiet : context.observer = .passive) (stage : Stage) (path : Path) :
    Completes (emit context stage path) before before True := by
  intro state running isTree
  refine ⟨(), _, run_emit context stage path state, ?_, ?_, by simp [reported]⟩
  · simp [reported, quiet, Observer.passive, Reply.unchanged, running]
  · simpa [reported, quiet, Observer.passive, Reply.unchanged] using isTree

/-- What follows an operation may rely on its answer. -/
theorem Completes.perform_bind {operation : Tree → Effect α}
    {next : Except FileError α → JobM β}
    (goesOn : Completes (next (operation before).answer)
      (operation before).tree after clean) :
    Completes (perform operation >>= next) before after clean := by
  intro state running isTree
  subst isTree
  have isRun := run_perform operation state
  obtain ⟨answer, final, isFinal, finalRunning, finalTree, warned⟩ :=
    goesOn (performed (operation state.world.tree) state) running rfl
  refine ⟨answer, final, ?_, finalRunning, finalTree, warned⟩
  rw [run_bind, isRun]
  exact isFinal

theorem Fails.perform_bind {operation : Tree → Effect α}
    {next : Except FileError α → JobM β}
    (fails : Fails (next (operation before).answer) (operation before).tree) :
    Fails (perform operation >>= next) before := by
  intro state running isTree
  subst isTree
  have isRun := run_perform operation state
  obtain ⟨reason, final, isFinal⟩ :=
    fails (performed (operation state.world.tree) state) running rfl
  refine ⟨reason, final, ?_⟩
  rw [run_bind, isRun]
  exact isFinal

theorem Completes.tree_bind {next : Tree → JobM β}
    (goesOn : Completes (next before) before after clean) :
    Completes (JobM.tree >>= next) before after clean := by
  intro state running isTree
  subst isTree
  obtain ⟨answer, final, isFinal, rest⟩ := goesOn state running rfl
  refine ⟨answer, final, ?_, rest⟩
  rw [run_bind, run_tree]
  exact isFinal

/-! ### Resources -/

variable {context : JobContext} {names : Renaming}

theorem completes_skipResource (error : FileError) :
    Completes (skipResource context error) before before False :=
  (completes_note _ _).clean_bind fun _ => completes_warn _ _

theorem completes_visitResource (quiet : context.observer = .passive)
    (visited : Tree.Visited) :
    Completes (visitResource context names visited) before
      (before.settle names.inText context.options.writeStrategy visited)
      (Tree.Settles names.inText context.options.writeStrategy before
        visited) := by
  unfold visitResource
  refine completes_checkCancelled.clean_bind fun _ => ?_
  cases visited with
  | directory path => exact completes_pure ()
  | failure path fault => exact completes_skipResource _
  | file path =>
      refine (completes_emit quiet _ _).clean_bind fun _ => ?_
      refine (completes_updateStats _).clean_bind fun _ => ?_
      apply Completes.perform_bind
      rw [Tree.settle, Tree.Settles]
      cases (updateFile path names.inText context.options.writeStrategy
        before).answer with
      | ok outcome =>
          exact (completes_updateStats _).congr
            (by simp [Except.isOk, Except.toBool])
      | error error =>
          exact (completes_skipResource _).congr
            (by simp [Except.isOk, Except.toBool])

theorem keepsLayout_emit (quiet : context.observer = .passive) (stage : Stage)
    (path : Path) : KeepsLayout (emit context stage path) := by
  intro state
  rw [run_emit, reported, quiet]
  rfl

theorem keepsLayout_skipResource (error : FileError) :
    KeepsLayout (skipResource context error) :=
  fun _ => rfl

theorem keepsLayout_visitResource (quiet : context.observer = .passive)
    (visited : Tree.Visited) :
    KeepsLayout (visitResource context names visited) := by
  unfold visitResource
  refine keepsLayout_checkCancelled.bind fun _ => ?_
  cases visited with
  | directory path => exact fun _ => rfl
  | failure path fault => exact keepsLayout_skipResource _
  | file path =>
      refine (keepsLayout_emit quiet _ _).bind fun _ => ?_
      refine KeepsLayout.bind (fun _ => rfl) fun _ => ?_
      refine (keepsLayout_perform fun tree =>
        Tree.layout_updateFile path).bind fun answer => ?_
      cases answer with
      | ok outcome => exact fun _ => rfl
      | error error => exact keepsLayout_skipResource _

theorem completes_forM_visitResource (quiet : context.observer = .passive)
    (items : List Tree.Visited) :
    Completes (List.forM items (visitResource context names)) before
      (items.foldl
        (Tree.settle names.inText context.options.writeStrategy) before)
      (Tree.SettlesAll names.inText context.options.writeStrategy before
        items) := by
  induction items generalizing before with
  | nil => exact completes_pure ()
  | cons visited rest induction =>
      exact (completes_visitResource quiet visited).bind fun _ => induction

theorem Completes.walk {visit : Tree.Visited → JobM Unit}
    (keeps : ∀ visited, KeepsLayout (visit visited)) {root : Path}
    (completes : Completes (List.forM (before.visits root) visit) before after
      clean) :
    Completes (Tree.walk JobM.tree visit root) before after clean := by
  intro state running isTree
  rw [run_walk keeps root (congrArg Tree.layout isTree)]
  exact completes state running isTree

theorem Fails.walk {visit : Tree.Visited → JobM Unit}
    (keeps : ∀ visited, KeepsLayout (visit visited)) {root : Path}
    (fails : Fails (List.forM (before.visits root) visit : JobM Unit) before) :
    Fails (Tree.walk JobM.tree visit root) before := by
  intro state running isTree
  rw [run_walk keeps root (congrArg Tree.layout isTree)]
  exact fails state running isTree

/-- The resource stage never fails. -/
theorem completes_updateResources (quiet : context.observer = .passive)
    (names : Renaming) (directory : Path) (before : Tree) :
    Completes (updateResources context names directory) before
      (if before.isDirectory directory then
        (before.visits directory).foldl
          (Tree.settle names.inText context.options.writeStrategy) before
      else before)
      (before.isDirectory directory = true →
        Tree.SettlesAll names.inText context.options.writeStrategy before
          (before.visits directory)) := by
  unfold updateResources
  apply Completes.tree_bind
  split
  · rename_i isDirectory
    exact ((completes_forM_visitResource quiet _).walk
      fun visited => keepsLayout_visitResource quiet visited).congr
      (by simp [isDirectory])
  · rename_i noDirectory
    exact (completes_note _ _).congr (by simp [noDirectory])

/-! ### Manifest -/

theorem completes_updateManifest (quiet : context.observer = .passive)
    {manifest : Path}
    (succeeds : (updateFile manifest names.inText context.options.writeStrategy
      before).answer.isOk = true) :
    Completes (updateManifest context names manifest) before
      (updateFile manifest names.inText context.options.writeStrategy
        before).tree True := by
  unfold updateManifest
  refine completes_checkCancelled.clean_bind fun _ => ?_
  refine (completes_emit quiet _ _).clean_bind fun _ => ?_
  refine (completes_updateStats _).clean_bind fun _ => ?_
  apply Completes.perform_bind
  cases isAnswer : (updateFile manifest names.inText
      context.options.writeStrategy before).answer with
  | error error =>
      rw [isAnswer] at succeeds
      cases succeeds
  | ok outcome =>
      refine (completes_updateStats _).clean_bind fun _ => ?_
      dsimp only
      split
      · exact (completes_note _ _).clean_bind fun _ => completes_pure outcome
      · exact completes_pure outcome

theorem fails_updateManifest (quiet : context.observer = .passive)
    {manifest : Path}
    (fails : (updateFile manifest names.inText context.options.writeStrategy
      before).answer.isOk = false) :
    Fails (updateManifest context names manifest) before := by
  unfold updateManifest
  refine completes_checkCancelled.bind_fails fun _ => ?_
  refine (completes_emit quiet _ _).bind_fails fun _ => ?_
  refine (completes_updateStats _).bind_fails fun _ => ?_
  apply Fails.perform_bind
  cases isAnswer : (updateFile manifest names.inText
      context.options.writeStrategy before).answer with
  | ok outcome =>
      rw [isAnswer] at fails
      cases fails
  | error error =>
      exact (completes_note _ _).bind_fails fun _ => fails_throw _

/-! ### Bytecode -/

theorem fails_failBytecodeFile (error : FileError) :
    Fails (failBytecodeFile context error) before :=
  (completes_note _ _).bind_fails fun _ => fails_throw _

theorem completes_visitBytecode (quiet : context.observer = .passive)
    {visited : Tree.Visited}
    (settles : Tree.Settles names.inBytecode context.options.writeStrategy
      before visited) :
    Completes (visitBytecode context names visited) before
      (before.settle names.inBytecode context.options.writeStrategy visited)
      True := by
  unfold visitBytecode
  refine completes_checkCancelled.clean_bind fun _ => ?_
  cases visited with
  | directory path => exact completes_pure ()
  | failure path fault => exact settles.elim
  | file path =>
      refine (completes_emit quiet _ _).clean_bind fun _ => ?_
      refine (completes_updateStats _).clean_bind fun _ => ?_
      apply Completes.perform_bind
      rw [Tree.settle]
      rw [Tree.Settles] at settles
      cases isAnswer : (updateFile path names.inBytecode
          context.options.writeStrategy before).answer with
      | ok outcome => exact completes_updateStats _
      | error error =>
          rw [isAnswer] at settles
          cases settles

theorem fails_visitBytecode (quiet : context.observer = .passive)
    {visited : Tree.Visited}
    (complains : ¬ Tree.Settles names.inBytecode
      context.options.writeStrategy before visited) :
    Fails (visitBytecode context names visited) before := by
  unfold visitBytecode
  refine completes_checkCancelled.bind_fails fun _ => ?_
  cases visited with
  | directory path => exact absurd trivial complains
  | failure path fault => exact fails_failBytecodeFile _
  | file path =>
      refine (completes_emit quiet _ _).bind_fails fun _ => ?_
      refine (completes_updateStats _).bind_fails fun _ => ?_
      apply Fails.perform_bind
      rw [Tree.Settles] at complains
      cases isAnswer : (updateFile path names.inBytecode
          context.options.writeStrategy before).answer with
      | ok outcome =>
          rw [isAnswer] at complains
          exact absurd rfl complains
      | error error => exact fails_failBytecodeFile _

theorem keepsLayout_failBytecodeFile (error : FileError) :
    KeepsLayout (failBytecodeFile context error) :=
  fun _ => rfl

theorem keepsLayout_visitBytecode (quiet : context.observer = .passive)
    (visited : Tree.Visited) :
    KeepsLayout (visitBytecode context names visited) := by
  unfold visitBytecode
  refine keepsLayout_checkCancelled.bind fun _ => ?_
  cases visited with
  | directory path => exact fun _ => rfl
  | failure path fault => exact keepsLayout_failBytecodeFile _
  | file path =>
      refine (keepsLayout_emit quiet _ _).bind fun _ => ?_
      refine KeepsLayout.bind (fun _ => rfl) fun _ => ?_
      refine (keepsLayout_perform fun tree =>
        Tree.layout_updateFile path).bind fun answer => ?_
      cases answer with
      | ok outcome => exact fun _ => rfl
      | error error => exact keepsLayout_failBytecodeFile _

theorem completes_forM_visitBytecode (quiet : context.observer = .passive)
    {items : List Tree.Visited}
    (settles : Tree.SettlesAll names.inBytecode context.options.writeStrategy
      before items) :
    Completes (List.forM items (visitBytecode context names)) before
      (items.foldl
        (Tree.settle names.inBytecode context.options.writeStrategy) before)
      True := by
  induction items generalizing before with
  | nil => exact completes_pure ()
  | cons visited rest induction =>
      exact (completes_visitBytecode quiet settles.1).clean_bind
        fun _ => induction settles.2

theorem fails_forM_visitBytecode (quiet : context.observer = .passive)
    {items : List Tree.Visited}
    (complains : ¬ Tree.SettlesAll names.inBytecode
      context.options.writeStrategy before items) :
    Fails (List.forM items (visitBytecode context names) : JobM Unit)
      before := by
  induction items generalizing before with
  | nil => exact absurd trivial complains
  | cons visited rest induction =>
      by_cases settles : Tree.Settles names.inBytecode
          context.options.writeStrategy before visited
      · exact (completes_visitBytecode quiet settles).bind_fails
          fun _ => induction fun later => complains ⟨settles, later⟩
      · exact (fails_visitBytecode quiet settles).bind _

/-- The files below a path are updated if none of them complains. -/
theorem completes_walk_visitBytecode (quiet : context.observer = .passive)
    {root : Path}
    (settles : Tree.SettlesAll names.inBytecode context.options.writeStrategy
      before (before.visits root)) :
    Completes (Tree.walk tree (visitBytecode context names) root) before
      ((before.visits root).foldl
        (Tree.settle names.inBytecode context.options.writeStrategy) before)
      True :=
  (completes_forM_visitBytecode quiet settles).walk
    fun visited => keepsLayout_visitBytecode quiet visited

theorem fails_walk_visitBytecode (quiet : context.observer = .passive)
    {root : Path}
    (complains : ¬ Tree.SettlesAll names.inBytecode
      context.options.writeStrategy before (before.visits root)) :
    Fails (Tree.walk tree (visitBytecode context names) root) before :=
  (fails_forM_visitBytecode quiet complains).walk
    fun visited => keepsLayout_visitBytecode quiet visited

theorem completes_relocate (quiet : context.observer = .passive)
    (name : String) {base : Path} {moved : Bool}
    (answered : (movePackage base names.source names.target before).answer =
      .ok moved) :
    Completes (relocate context names name base) before
      (movePackage base names.source names.target before).tree True := by
  unfold relocate
  refine completes_checkCancelled.clean_bind fun _ => ?_
  refine (completes_emit quiet _ _).clean_bind fun _ => ?_
  apply Completes.perform_bind
  rw [answered]
  cases moved with
  | true => exact (completes_note _ _).clean_bind fun _ => completes_updateStats _
  | false => exact completes_note _ _

theorem fails_relocate (quiet : context.observer = .passive)
    {name : String} {base : Path} {error : FileError}
    (refused : (movePackage base names.source names.target before).answer =
      .error error) :
    Fails (relocate context names name base) before := by
  unfold relocate
  refine completes_checkCancelled.bind_fails fun _ => ?_
  refine (completes_emit quiet _ _).bind_fails fun _ => ?_
  apply Fails.perform_bind
  rw [refused]
  exact (completes_note _ _).bind_fails fun _ => fails_throw _

end JobM

end PackageRename
