import PackageRename.Proofs.Clearing
import PackageRename.Proofs.Job.Quiet

/-!
# Jobs with nothing to do

Where nothing that is sought is left in any file, and no directory has to move,
a job visits everything and changes nothing: it completes without a warning and
counts no change.
-/

namespace PackageRename

namespace Tree

variable {tree : Tree} {path : Path} {place : Place} {file : File}
variable {substitutions : List Substitution} {strategy : WriteStrategy}

/-- A file in which nothing is sought for is left alone. -/
theorem updateFile_of_free (found : tree.fileAt path = .ok (place, file))
    (free : tree.IsFreeAt (substitutions.map (·.sought)) place) :
    updateFile path substitutions strategy tree = .succeed tree .unchanged := by
  have absent : ∀ substitution ∈ substitutions,
      ¬ Utf8.encode substitution.sought <:+: file.contents :=
    fun substitution member => free file (fileAt_eq_ok.mp found).2 _
      (List.mem_map_of_mem member)
  have exit := updateFile_exits path substitutions strategy tree
  rw [found] at exit
  generalize updateFile path substitutions strategy tree = effect at exit ⊢
  have same : ∀ {text}, Utf8.decode? file.contents = some text →
      (Substitution.applyAll substitutions text).1 = text := by
    intro text decoded
    refine Substitution.applyAll_of_absent fun substitution member => ?_
    rw [← Utf8.encode_infix_iff, Utf8.encode_of_decode? decoded]
    exact absent substitution member
  cases exit with
  | undecodable noText sought =>
      obtain ⟨substitution, member, -, occurs⟩ := sought
      exact absurd occurs (absent substitution member)
  | foreign noText unsought => rfl
  | settled decoded isSame => rfl
  | guarded decoded changes readOnly => exact absurd (same decoded) changes
  | refused decoded changes writable isAtomic refusal =>
      exact absurd (same decoded) changes
  | written decoded changes writable can => exact absurd (same decoded) changes

/-- Visited, it gives no reason to complain and is left alone. -/
def Rests (substitutions : List Substitution) (strategy : WriteStrategy)
    (tree : Tree) : Visited → Prop
  | .directory _ => True
  | .file path =>
      updateFile path substitutions strategy tree = .succeed tree .unchanged
  | .failure _ _ => False

end Tree

/-! ### Parts that idle -/

/-- Nobody has asked the job to stop, and nothing has been added to it but
events, visits and log records. -/
structure JobState.Idled (state reached : JobState) : Prop where
  live : reached.cancelled = false
  tree : reached.world.tree = state.world.tree
  warnings : reached.warnings = state.warnings
  filesChanged : reached.stats.filesChanged = state.stats.filesChanged
  replacements : reached.stats.replacements = state.stats.replacements
  directoriesMoved :
    reached.stats.directoriesMoved = state.stats.directoriesMoved

theorem JobState.Idled.trans {state between reached : JobState}
    (first : state.Idled between) (later : between.Idled reached) :
    state.Idled reached where
  live := later.live
  tree := later.tree.trans first.tree
  warnings := later.warnings.trans first.warnings
  filesChanged := later.filesChanged.trans first.filesChanged
  replacements := later.replacements.trans first.replacements
  directoriesMoved := later.directoriesMoved.trans first.directoriesMoved

namespace JobM

variable {α β : Type} {tree : Tree} {context : JobContext} {names : Renaming}

/-- Started on a tree and not cancelled, the part ends normally with nothing
changed. -/
def Idles (action : JobM α) (tree : Tree) : Prop :=
  ∀ state : JobState, state.cancelled = false → state.world.tree = tree →
    ∃ value reached, action.run state = (.ok value, reached) ∧
      state.Idled reached

theorem Idles.bind {first : JobM α} {next : α → JobM β}
    (idles : Idles first tree) (goesOn : ∀ value, Idles (next value) tree) :
    Idles (first >>= next) tree := by
  intro state live isTree
  obtain ⟨value, between, isRun, idled⟩ := idles state live isTree
  obtain ⟨answer, reached, isRest, later⟩ :=
    goesOn value between idled.live (idled.tree.trans isTree)
  refine ⟨answer, reached, ?_, idled.trans later⟩
  rw [run_bind, isRun]
  exact isRest

theorem idles_pure (value : α) : Idles (pure value : JobM α) tree :=
  fun state live _ => ⟨value, state, rfl, live, rfl, rfl, rfl, rfl, rfl⟩

theorem idles_note (severity : Severity) (message : String) :
    Idles (note severity message) tree :=
  fun _ live _ => ⟨(), _, rfl, live, rfl, rfl, rfl, rfl, rfl⟩

theorem idles_visit : Idles (updateStats Stats.visit) tree :=
  fun _ live _ => ⟨(), _, rfl, live, rfl, rfl, rfl, rfl, rfl⟩

theorem idles_checkCancelled : Idles checkCancelled tree := by
  intro state live _
  refine ⟨(), state, ?_, live, rfl, rfl, rfl, rfl, rfl⟩
  rw [run_checkCancelled, live]
  rfl

theorem idles_emit (quiet : context.observer = .passive) (stage : Stage)
    (path : Path) : Idles (emit context stage path) tree := by
  intro state live _
  refine ⟨(), _, rfl, ?_, ?_, rfl, rfl, rfl, rfl⟩ <;>
    simp [quiet, Observer.passive, Reply.unchanged, live]

/-- An operation that leaves the tree alone is followed by what suits its
answer. -/
theorem Idles.perform_bind {operation : Tree → Effect α} {value : α}
    {next : Except FileError α → JobM β}
    (rests : operation tree = .succeed tree value)
    (goesOn : Idles (next (.ok value)) tree) :
    Idles (perform operation >>= next) tree := by
  intro state live isTree
  subst isTree
  have isPerformed := run_perform operation state
  rw [rests] at isPerformed
  obtain ⟨answer, reached, isRest, later⟩ := goesOn
    (performed (.succeed state.world.tree value) state) live rfl
  refine ⟨answer, reached, ?_, later.live, later.tree, later.warnings,
    later.filesChanged, later.replacements, later.directoriesMoved⟩
  rw [run_bind, isPerformed]
  exact isRest

theorem idles_forM {items : List α} {visit : α → JobM Unit}
    (each : ∀ item ∈ items, Idles (visit item) tree) :
    Idles (List.forM items visit) tree := by
  induction items with
  | nil => exact idles_pure ()
  | cons head rest induction =>
      exact (each head List.mem_cons_self).bind fun _ =>
        induction fun item member => each item (List.mem_cons_of_mem _ member)

theorem Idles.walk {visit : Tree.Visited → JobM Unit}
    (keeps : ∀ visited, KeepsLayout (visit visited)) {root : Path}
    (each : ∀ visited ∈ tree.visits root, Idles (visit visited) tree) :
    Idles (Tree.walk JobM.tree visit root) tree := by
  intro state live isTree
  rw [run_walk keeps root (congrArg Tree.layout isTree)]
  exact idles_forM each state live isTree

/-! ### Stages that idle -/

variable (quiet : context.observer = .passive)

include quiet

theorem idles_visitResource {visited : Tree.Visited}
    (rests : tree.Rests names.inText context.options.writeStrategy visited) :
    Idles (visitResource context names visited) tree := by
  unfold visitResource
  refine idles_checkCancelled.bind fun _ => ?_
  cases visited with
  | directory path => exact idles_pure ()
  | failure path fault => exact rests.elim
  | file path =>
      refine (idles_emit quiet _ _).bind fun _ => idles_visit.bind fun _ => ?_
      exact Idles.perform_bind rests (idles_pure ())

theorem idles_updateResources {directory : Path}
    (rests : tree.isDirectory directory = true →
      ∀ visited ∈ tree.visits directory,
        tree.Rests names.inText context.options.writeStrategy visited) :
    Idles (updateResources context names directory) tree := by
  intro state live isTree
  unfold updateResources
  rw [run_bind, run_tree]
  dsimp only
  split
  · rename_i isDirectory
    rw [isTree] at isDirectory
    exact Idles.walk (fun visited => keepsLayout_visitResource quiet visited)
      (fun visited member => idles_visitResource quiet
        (rests isDirectory visited member)) state live isTree
  · exact idles_note _ _ state live isTree

theorem idles_updateManifest {manifest : Path}
    (rests : updateFile manifest names.inText context.options.writeStrategy
      tree = .succeed tree .unchanged) :
    Idles (updateManifest context names manifest) tree := by
  unfold updateManifest
  refine idles_checkCancelled.bind fun _ => (idles_emit quiet _ _).bind
    fun _ => idles_visit.bind fun _ => Idles.perform_bind rests ?_
  exact (idles_pure ()).bind fun _ => (idles_note _ _).bind
    fun _ => idles_pure _

theorem idles_visitBytecode {visited : Tree.Visited}
    (rests : tree.Rests names.inBytecode context.options.writeStrategy
      visited) :
    Idles (visitBytecode context names visited) tree := by
  unfold visitBytecode
  refine idles_checkCancelled.bind fun _ => ?_
  cases visited with
  | directory path => exact idles_pure ()
  | failure path fault => exact rests.elim
  | file path =>
      refine (idles_emit quiet _ _).bind fun _ => idles_visit.bind fun _ => ?_
      exact Idles.perform_bind rests (idles_pure ())

theorem idles_updateBytecodeRoot {name : String}
    (rests : ∀ visited ∈
        tree.visits (context.root.join (Path.ofString name)),
      tree.Rests names.inBytecode context.options.writeStrategy visited)
    (gone : tree.isDirectory (names.source.directoryIn
      (context.root.join (Path.ofString name))) = false) :
    Idles (updateBytecodeRoot context names name) tree := by
  unfold updateBytecodeRoot relocate
  have stays : movePackage (context.root.join (Path.ofString name))
      names.source names.target tree = .succeed tree false := by
    rw [movePackage]
    simp only [gone, Bool.false_eq_true, if_false]
  refine (Idles.walk (fun visited => keepsLayout_visitBytecode quiet visited)
    fun visited member => idles_visitBytecode quiet
      (rests visited member)).bind fun _ => ?_
  refine idles_checkCancelled.bind fun _ => (idles_emit quiet _ _).bind
    fun _ => Idles.perform_bind stays (idles_note _ _)

end JobM

end PackageRename
