import PackageRename.Proofs.Job.Journal
import PackageRename.Proofs.Job.Quiet
import PackageRename.Proofs.Path.Relative
import PackageRename.Proofs.Tree.Sharing
import PackageRename.Proofs.Tree.Walking

/-!
# Best effort in the resources

The resource stage comes to the end of its walk whatever it meets.  What cannot
be walked or updated gets one warning in its turn and changes nothing; all that
comes after it is processed as if it were not there.
-/

namespace PackageRename

/-- The path of a file that cannot be updated is the one it was looked up by. -/
theorem subject_of_updateFile {path : Path}
    {substitutions : List Substitution} {strategy : WriteStrategy}
    {tree : Tree} {error : FileError}
    (fails : (updateFile path substitutions strategy tree).answer =
      .error error) : error.subject = path := by
  have exit := Tree.updateFile_exits path substitutions strategy tree
  generalize tree.fileAt path = found at exit
  generalize updateFile path substitutions strategy tree = effect at exit fails
  cases exit <;> cases fails <;> rfl

/-- A file that cannot be updated is left as it is, and so is the tree. -/
theorem tree_of_updateFile_error {path : Path}
    {substitutions : List Substitution} {strategy : WriteStrategy}
    {tree : Tree} {error : FileError}
    (fails : (updateFile path substitutions strategy tree).answer =
      .error error) :
    (updateFile path substitutions strategy tree).tree = tree := by
  rcases Tree.updateFile_cases tree path substitutions strategy with
    ⟨same, -⟩ | ⟨_, _, _, -, changed, -⟩
  · exact same
  · rw [changed] at fails
    cases fails

namespace Tree

variable (substitutions : List Substitution) (strategy : WriteStrategy)

/-- Why something visited is left out. -/
def complaint? (tree : Tree) : Visited → Option FileError
  | .directory _ => none
  | .failure path fault => some (.io path fault)
  | .file path =>
      match (updateFile path substitutions strategy tree).answer with
      | .ok _ => none
      | .error error => some error

/-- The complaints about visits made one after the other, each with what it is
about. -/
def complaints (tree : Tree) : List Visited → List (Visited × FileError)
  | [] => []
  | visited :: later =>
      ((complaint? substitutions strategy tree visited).map
        fun error => (visited, error)).toList ++
        complaints (settle substitutions strategy tree visited) later

variable {substitutions strategy} {tree : Tree} {visited : Visited}

theorem complaints_append (front back : List Visited) :
    complaints substitutions strategy tree (front ++ back) =
      complaints substitutions strategy tree front ++
        complaints substitutions strategy
          (front.foldl (settle substitutions strategy) tree) back := by
  induction front generalizing tree with
  | nil => rfl
  | cons visited rest induction =>
      simp [complaints, induction, List.append_assoc]

/-- What is complained about changes nothing. -/
theorem settle_of_complaint? {error : FileError}
    (complains : complaint? substitutions strategy tree visited = some error) :
    settle substitutions strategy tree visited = tree := by
  cases visited with
  | directory path => rfl
  | failure path fault => rfl
  | file path =>
      rw [complaint?] at complains
      split at complains
      · cases complains
      · rename_i fails
        exact tree_of_updateFile_error fails

end Tree

/-! ### The stage -/

/-- What the resource stage adds to the state of a job that it processes these
visits in. -/
structure JobState.Resourced (context : JobContext) (names : Renaming)
    (visits : List Tree.Visited) (state after : JobState) : Prop where
  tree : after.world.tree = visits.foldl
    (Tree.settle names.inText context.options.writeStrategy) state.world.tree
  live : after.cancelled = false
  events : after.events = state.events ++ (Tree.files visits).map
    fun path => .of .resources (path.relativeTo context.root)
  filesVisited : after.stats.filesVisited =
    state.stats.filesVisited + (Tree.files visits).length
  warnings : after.warnings = state.warnings ++
    (Tree.complaints names.inText context.options.writeStrategy
      state.world.tree visits).map fun (visited, error) =>
        ⟨visited.path.relativeTo context.root, error.message⟩

section Stage

variable {context : JobContext} {names : Renaming} {state : JobState}

theorem JobState.Resourced.append {front back : List Tree.Visited}
    {between after : JobState}
    (first : state.Resourced context names front between)
    (later : between.Resourced context names back after) :
    state.Resourced context names (front ++ back) after where
  tree := by rw [later.tree, first.tree, List.foldl_append]
  live := later.live
  events := by simp [later.events, first.events, Tree.files]
  filesVisited := by
    simp [later.filesVisited, first.filesVisited, Tree.files, Nat.add_assoc]
  warnings := by
    rw [later.warnings, first.warnings, first.tree, Tree.complaints_append]
    simp

namespace JobM

/-- One visit, in a job that nobody asks to stop. -/
theorem run_visitResource (quiet : context.observer = .passive)
    (live : state.cancelled = false) (visited : Tree.Visited) :
    ∃ after, (visitResource context names visited).run state =
        (.ok (), after) ∧
      state.Resourced context names [visited] after := by
  have goesOn : checkCancelled.run state = (.ok (), state) := by
    rw [run_checkCancelled, live]
    rfl
  unfold visitResource
  rw [run_bind, goesOn]
  cases visited with
  | directory path =>
      exact ⟨state, rfl, rfl, live, (List.append_nil _).symm, rfl,
        (List.append_nil _).symm⟩
  | failure path fault =>
      exact ⟨_, rfl, rfl, live, (List.append_nil _).symm, rfl, rfl⟩
  | file path =>
      dsimp only
      have isReported : reported context .resources path state = { state with
          events := state.events ++
            [.of .resources (path.relativeTo context.root)] } := by
        simp [reported, quiet, Observer.passive, Reply.unchanged]
      rw [run_bind, run_emit, isReported]
      simp only [run_bind, run_updateStats, run_perform]
      cases isAnswer : (updateFile path names.inText
          context.options.writeStrategy state.world.tree).answer with
      | ok outcome =>
          refine ⟨_, rfl, rfl, live, rfl, ?_, ?_⟩
          · cases outcome <;> rfl
          · simp [Tree.complaints, Tree.complaint?, isAnswer, performed]
      | error error =>
          refine ⟨_, rfl, rfl, live, rfl, rfl, ?_⟩
          simp [Tree.complaints, Tree.complaint?, isAnswer, performed,
            subject_of_updateFile isAnswer, Tree.Visited.path]

/-- Visits made one after the other. -/
theorem run_forM_visitResource (quiet : context.observer = .passive)
    (visits : List Tree.Visited) (live : state.cancelled = false) :
    ∃ after, (List.forM visits (visitResource context names) : JobM Unit).run
        state = (.ok (), after) ∧
      state.Resourced context names visits after := by
  induction visits generalizing state with
  | nil =>
      exact ⟨state, rfl, rfl, live, (List.append_nil _).symm, rfl,
        (List.append_nil _).symm⟩
  | cons visited rest induction =>
      obtain ⟨between, isFirst, first⟩ :=
        run_visitResource quiet live visited
      obtain ⟨after, isRest, later⟩ := induction first.live
      refine ⟨after, ?_, first.append later⟩
      rw [run_forM_cons, isFirst]
      exact isRest

/-- What there is to visit in a resource directory. -/
def resourceVisits (directory : Path) (tree : Tree) : List Tree.Visited :=
  if tree.isDirectory directory then tree.visits directory else []

/-- The whole stage, in a job that nobody asks to stop. -/
theorem run_updateResources (quiet : context.observer = .passive)
    (directory : Path) (live : state.cancelled = false) :
    ∃ after, (updateResources context names directory).run state =
        (.ok (), after) ∧
      state.Resourced context names
        (resourceVisits directory state.world.tree) after := by
  unfold updateResources resourceVisits
  rw [run_bind, run_tree]
  dsimp only
  split
  · rw [run_walk (keepsLayout_visitResource quiet) directory rfl]
    exact run_forM_visitResource quiet _ live
  · exact ⟨_, rfl, rfl, live, (List.append_nil _).symm, rfl,
      (List.append_nil _).symm⟩

/-- The paths of files below a directory in the package, as events show them,
are as different as the files. -/
theorem nodup_shown (legal : state.world.tree.HasLegalNames) (back : Path) :
    ((Tree.files (resourceVisits (context.root.join back)
      state.world.tree)).map (·.relativeTo context.root)).Nodup := by
  unfold resourceVisits
  split
  · rcases Tree.files_visits_cases legal (context.root.join back) with
      alone | inside
    · rw [alone]
      exact List.nodup_singleton _
    refine List.Nodup.map_on ?_ (Tree.nodup_files_visits legal _)
    intro file member other otherMember same
    obtain ⟨names, some, plain, rfl⟩ := inside file member
    obtain ⟨others, otherSome, otherPlain, rfl⟩ := inside other otherMember
    have shown : ∀ {names : List Name}, names ≠ [] → Path.ArePlain names →
        (context.root.join (((context.root.join back).below names).relativeTo
          context.root)).components =
        (context.root.join back).components ++ names.map Component.name := by
      intro names some plain
      rw [Path.below_join, Path.components_join_shown, ← Path.below_join,
        Path.components_below plain]
    have alike := (shown some plain).symm.trans
      ((congrArg (fun path => (context.root.join path).components) same).trans
        (shown otherSome otherPlain))
    have sameNames : names = others :=
      List.map_injective_iff.mpr (fun _ _ => Component.name.inj)
        (List.append_cancel_left alike)
    rw [sameNames]
  · exact List.nodup_nil

/-- The resource stage, in a job that nobody asks to stop and whose observer
only watches, ends normally on every tree.  What it reaches is the one walk of
the directory.  It reports each file of the walk once and in its turn, counts
it, and warns about what it cannot walk or update, with the path from the
package root; below the root no two events show the same path.  Wherever
something is complained about, the tree is left as it is and ends up as if that
had not been visited. -/
theorem updateResources_endures (quiet : context.observer = .passive)
    (live : state.cancelled = false) (legal : state.world.tree.HasLegalNames)
    (directory : Path) :
    let settle := Tree.settle names.inText context.options.writeStrategy
    ∃ reached after,
      (if state.world.tree.isDirectory directory then
        ∀ visits, state.world.tree.IsWalk directory visits ↔ visits = reached
      else reached = []) ∧
      (updateResources context names directory).run state = (.ok (), after) ∧
      state.Resourced context names reached after ∧
      (Tree.files reached).Nodup ∧
      (∀ back, directory = context.root.join back →
        ((Tree.files reached).map (·.relativeTo context.root)).Nodup) ∧
      ∀ front visited back error, reached = front ++ visited :: back →
        Tree.complaint? names.inText context.options.writeStrategy
          (front.foldl settle state.world.tree) visited = some error →
        settle (front.foldl settle state.world.tree) visited =
            front.foldl settle state.world.tree ∧
          after.world.tree = (front ++ back).foldl settle state.world.tree := by
  intro settle
  obtain ⟨after, isRun, resourced⟩ :=
    run_updateResources quiet directory live
  refine ⟨_, after, ?_, isRun, resourced, ?_, ?_, ?_⟩
  · rw [resourceVisits]
    split
    · exact fun visits => Tree.isWalk_iff legal directory
    · rfl
  · rw [resourceVisits]
    split
    · exact Tree.nodup_files_visits legal directory
    · exact List.nodup_nil
  · rintro back rfl
    exact nodup_shown legal back
  · intro front visited back error isSplit complains
    have unchanged := Tree.settle_of_complaint? complains
    refine ⟨unchanged, ?_⟩
    rw [resourced.tree, isSplit, List.foldl_append, List.foldl_cons,
      List.foldl_append]
    exact congrArg (back.foldl settle) unchanged

end JobM

end Stage

namespace JobM

/-- Resources with a link back to the package, a link that leads nowhere, a
file that may not be written, one that is no text, and plain files between
them. -/
def snaredTree : Tree :=
  (Tree.holding [("p/res/a", "com.app"), ("p/res/e/f", "com.app")]).edit
    ⟨[], [(Path.ofString "p/res/b", .link (Path.ofString "..")),
      (Path.ofString "p/res/c", .link (Path.ofString "nowhere")),
      (Path.ofString "p/res/d", .file (Utf8.encode "com.app") 0o444),
      (Path.ofString "p/res/e/e", .file (0xff :: Utf8.encode "com.app")
        File.ownerMode)]⟩

def snaredContext (root : String) : JobContext :=
  ⟨Path.ofString root, .standard, .passive⟩

def snaredNames : Renaming :=
  (Job.of (Path.ofString "p") "com.app" "org.clone" .standard).names

def snaredState : JobState :=
  .initial (.ofTree snaredTree) false

theorem updateResources_endures_snared :
    snaredTree.HasLegalNames ∧
      ∃ reached after,
        snaredTree.IsWalk (Path.ofString "p/res") reached ∧
        (updateResources (snaredContext "p") snaredNames
          (Path.ofString "p/res")).run snaredState = (.ok (), after) ∧
        after.events.map (·.path.display) =
          ["res/a", "res/b/res/a", "res/b/res/d", "res/b/res/e/e",
            "res/b/res/e/f", "res/d", "res/e/e", "res/e/f"] ∧
        after.warnings.map (·.path.display) =
          ["res/b/res/b", "res/b/res/c", "res/b/res/d", "res/b/res/e/e",
            "res/c", "res/d", "res/e/e"] ∧
        after.stats.filesChanged = 2 := by
  have legal : snaredTree.HasLegalNames :=
    Tree.hasLegalNames_of_nodes (by decide +kernel)
  obtain ⟨reached, after, isWalk, isRun, -⟩ :=
    @updateResources_endures (snaredContext "p") snaredNames snaredState rfl
      rfl legal (Path.ofString "p/res")
  refine ⟨legal, reached, after, ?_, isRun, ?_⟩
  · rw [if_pos (by decide +kernel)] at isWalk
    exact (isWalk reached).mpr rfl
  · obtain rfl : ((updateResources (snaredContext "p") snaredNames
        (Path.ofString "p/res")).run snaredState).2 = after :=
      congrArg Prod.snd isRun
    decide +kernel

/-- A directory that holds the package root. -/
def outerTree : Tree :=
  .holding [("d/d/d/x", ""), ("d/x", "")]

/-- For resources that hold the package root, events show two files under one
path: one is named from the root, the other lies beside it. -/
theorem not_nodup_shown_around_root :
    outerTree.HasLegalNames ∧
      ¬ ((updateResources (snaredContext "d/d") snaredNames
          (Path.ofString "d")).run
        (.initial (.ofTree outerTree) false)).2.events.Nodup :=
  ⟨Tree.hasLegalNames_of_nodes (by decide +kernel), by decide +kernel⟩

end JobM

end PackageRename
