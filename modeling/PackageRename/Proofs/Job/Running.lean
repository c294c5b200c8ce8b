import PackageRename.Job.Stages
import PackageRename.Proofs.Tree.Visits

/-!
# Running parts of a job

What each building block of a job answers and leaves behind, and what a walk
does when its visitor keeps the layout: it visits a list of things that is known
before it starts.
-/

namespace PackageRename

namespace JobM

variable {α β : Type} {state : JobState}

/-! ### Building blocks -/

theorem run_bind (action : JobM α) (next : α → JobM β) (state : JobState) :
    (action >>= next).run state =
      match action.run state with
      | (.ok value, reached) => (next value).run reached
      | (.error reason, reached) => (.error reason, reached) := by
  simp only [ExceptT.run, bind, ExceptT.bind, ExceptT.mk, StateT.bind,
    ExceptT.bindCont]
  rcases action state with ⟨ending, reached⟩
  cases ending <;> rfl

@[simp]
theorem run_throw (reason : FailureReason) (state : JobState) :
    (throw reason : JobM α).run state = (.error reason, state) := rfl

@[simp]
theorem run_tree (state : JobState) :
    JobM.tree.run state = (.ok state.world.tree, state) := rfl

@[simp]
theorem run_note (severity : Severity) (message : String)
    (state : JobState) :
    (note severity message).run state =
      (.ok (), { state with world := state.world.note severity message }) := rfl

@[simp]
theorem run_updateStats (update : Stats → Stats) (state : JobState) :
    (updateStats update).run state =
      (.ok (), { state with stats := update state.stats }) := rfl

@[simp]
theorem run_warn (path : Path) (message : String) (state : JobState) :
    (warn path message).run state =
      (.ok (), { state with
        warnings := state.warnings ++ [⟨path, message⟩] }) := rfl

/-- The state after an event has been reported and the observer has
reacted. -/
def reported (context : JobContext) (stage : Stage) (path : Path)
    (state : JobState) : JobState :=
  let events := state.events ++ [.of stage (path.relativeTo context.root)]
  let reply := context.observer events state.world
  { state with
    world := reply.world
    cancelled := state.cancelled || reply.cancels
    events
    nested := state.nested ++ reply.nested }

@[simp]
theorem run_emit (context : JobContext) (stage : Stage) (path : Path)
    (state : JobState) :
    (emit context stage path).run state =
      (.ok (), reported context stage path state) := rfl

/-- The state after an operation on the tree. -/
def performed (effect : Effect α) (state : JobState) : JobState :=
  { state with
    world :=
      { state.world with
        tree := effect.tree
        log := state.world.log ++ effect.log } }

@[simp]
theorem run_perform (operation : Tree → Effect α) (state : JobState) :
    (perform operation).run state =
      (.ok (operation state.world.tree).answer,
        performed (operation state.world.tree) state) := rfl

theorem run_checkCancelled (state : JobState) :
    checkCancelled.run state =
      if state.cancelled then (.error .cancelled, state) else (.ok (), state) := by
  change _ = ite (state.cancelled = true) _ _
  rw [checkCancelled, run_bind]
  change (ite (state.cancelled = true) _ _ : JobM Unit).run state = _
  split <;> rfl

/-! ### Lists of visits -/

theorem run_forM_cons (visit : α → JobM Unit) (head : α) (rest : List α)
    (state : JobState) :
    (List.forM (head :: rest) visit : JobM Unit).run state =
      match (visit head).run state with
      | (.ok (), reached) => (List.forM rest visit : JobM Unit).run reached
      | (.error reason, reached) => (.error reason, reached) := by
  change (visit head >>= fun _ => List.forM rest visit).run state = _
  rw [run_bind]
  rcases (visit head).run state with ⟨ending, reached⟩
  cases ending <;> rfl

@[simp]
theorem run_forM_singleton (visit : α → JobM Unit) (item : α)
    (state : JobState) :
    (List.forM [item] visit : JobM Unit).run state =
      (visit item).run state := by
  rw [run_forM_cons]
  rcases (visit item).run state with ⟨ending, reached⟩
  cases ending <;> rfl

theorem run_forM_append (visit : α → JobM Unit) (front back : List α)
    (state : JobState) :
    (List.forM (front ++ back) visit : JobM Unit).run state =
      match (List.forM front visit : JobM Unit).run state with
      | (.ok (), reached) => (List.forM back visit : JobM Unit).run reached
      | (.error reason, reached) => (.error reason, reached) := by
  induction front generalizing state with
  | nil => rfl
  | cons head rest induction =>
      rw [List.cons_append, run_forM_cons, run_forM_cons]
      rcases (visit head).run state with ⟨ending, reached⟩
      cases ending with
      | error reason => rfl
      | ok value => exact induction reached

/-! ### Walks that keep the layout -/

/-- A part of a job that changes nothing but files. -/
def KeepsLayout (action : JobM α) : Prop :=
  ∀ state, (action.run state).2.world.tree.layout = state.world.tree.layout

theorem KeepsLayout.bind {first : JobM α} {next : α → JobM β}
    (keeps : KeepsLayout first) (goesOn : ∀ value, KeepsLayout (next value)) :
    KeepsLayout (first >>= next) := by
  intro state
  have kept := keeps state
  rw [run_bind]
  rcases isEnd : first.run state with ⟨ending, reached⟩
  rw [isEnd] at kept
  cases ending with
  | error reason => exact kept
  | ok value => exact (goesOn value reached).trans kept

theorem keepsLayout_checkCancelled : KeepsLayout checkCancelled := by
  intro state
  rw [run_checkCancelled]
  split <;> rfl

theorem keepsLayout_perform {operation : Tree → Effect α}
    (keeps : ∀ tree, (operation tree).tree.layout = tree.layout) :
    KeepsLayout (perform operation) :=
  fun state => keeps state.world.tree

theorem keepsLayout_forM {visit : α → JobM Unit} (items : List α)
    (keeps : ∀ item, KeepsLayout (visit item)) :
    KeepsLayout (List.forM items visit : JobM Unit) := by
  induction items with
  | nil => exact fun _ => rfl
  | cons head rest induction =>
      intro state
      have first := keeps head state
      rw [run_forM_cons]
      rcases isEnd : (visit head).run state with ⟨ending, reached⟩
      rw [isEnd] at first
      cases ending with
      | error reason => exact first
      | ok value => exact (induction reached).trans first

/-- Steps that run as lists of visits, as long as the layout stays, run one after
the other as all their visits. -/
theorem run_forM_flatMap {visit : α → JobM Unit} {step : β → JobM Unit}
    {visits : β → List α} (keeps : ∀ item, KeepsLayout (visit item))
    {tree : Tree}
    (runs : ∀ item (state : JobState), state.world.tree.layout = tree.layout →
      (step item).run state =
        (List.forM (visits item) visit : JobM Unit).run state)
    (items : List β) (same : state.world.tree.layout = tree.layout) :
    (List.forM items step : JobM Unit).run state =
      (List.forM (items.flatMap visits) visit : JobM Unit).run state := by
  induction items generalizing state with
  | nil => rfl
  | cons head rest induction =>
      rw [List.flatMap_cons, run_forM_cons, run_forM_append, runs head _ same]
      have kept := keepsLayout_forM (visits head) keeps state
      rcases isEnd : (List.forM (visits head) visit : JobM Unit).run state with
        ⟨ending, reached⟩
      rw [isEnd] at kept
      cases ending with
      | error reason => rfl
      | ok value => exact induction (kept.trans same)

private theorem run_walkFrom {visit : Tree.Visited → JobM Unit}
    (keeps : ∀ visited, KeepsLayout (visit visited)) {tree : Tree}
    (depth : Nat) (above : List Path) (visited : Tree.Visited)
    (same : state.world.tree.layout = tree.layout) :
    (Tree.walkFrom JobM.tree visit depth above visited).run state =
      (List.forM (tree.visitsFrom depth above visited) visit : JobM Unit).run
        state := by
  induction depth generalizing above visited state with
  | zero =>
      cases visited with
      | file path | failure path fault =>
          rw [Tree.walkFrom, Tree.visitsFrom, run_forM_singleton]
      | directory path =>
          rw [Tree.walkFrom, Tree.visitsFrom, run_bind, run_forM_cons]
          rcases (visit (.directory path)).run state with ⟨ending, reached⟩
          cases ending with
          | error reason => rfl
          | ok value => exact (run_forM_singleton visit _ reached).symm
  | succ depth induction =>
      cases visited with
      | file path | failure path fault =>
          rw [Tree.walkFrom, Tree.visitsFrom, run_forM_singleton]
      | directory path =>
          rw [Tree.walkFrom, Tree.visitsFrom, run_bind, run_forM_cons]
          have entered := keeps (.directory path) state
          rcases isEntered : (visit (.directory path)).run state with
            ⟨ending, reached⟩
          rw [isEntered] at entered
          have reachedSame := entered.trans same
          cases ending with
          | error reason => rfl
          | ok value =>
              simp only [run_bind, run_tree,
                Tree.list_of_layout reachedSame path]
              cases tree.list path with
              | error fault => exact (run_forM_singleton visit _ reached).symm
              | ok children =>
                  refine run_forM_flatMap keeps ?_ children reachedSame
                  intro child later laterSame
                  rw [run_bind, run_tree]
                  simp only
                  rw [Tree.classify_of_layout laterSame]
                  exact induction _ _ laterSame

/-- A walk whose visitor keeps the layout visits what can be read off the tree
before it starts. -/
theorem run_walk {visit : Tree.Visited → JobM Unit}
    (keeps : ∀ visited, KeepsLayout (visit visited)) {tree : Tree}
    (root : Path) (same : state.world.tree.layout = tree.layout) :
    (Tree.walk JobM.tree visit root).run state =
      (List.forM (tree.visits root) visit : JobM Unit).run state := by
  rw [Tree.walk, run_bind, run_tree, Tree.visits]
  simp only [Tree.kindOf_of_layout same root]
  cases tree.kindOf root with
  | error fault => exact (run_forM_singleton visit _ state).symm
  | ok kind =>
      simp only [Tree.classify_of_layout same]
      exact run_walkFrom keeps Tree.pathLimit [] _ same

end JobM

end PackageRename
