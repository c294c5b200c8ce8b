import PackageRename.Proofs.Job.Opening
import PackageRename.Proofs.Job.Visiting
import PackageRename.Proofs.Tree.SingleNames

/-!
# The two ways to write

A job whose files have one name each does the same whether it writes files in
place or puts new ones in their places, as long as it comes upon no file that has
to be written and cannot be replaced: the same events, the same report, the same
log, and trees between which there is no difference.  What a job does next
depends on answers and on the layout of the tree, and neither tells the two ways
apart.
-/

namespace PackageRename

/-- An observer that does no more than ask the job to stop. -/
def Observer.asking (asks : List ProgressEvent → Bool) : Observer :=
  fun events world => ⟨world, asks events, []⟩

/-- The job with another way to write. -/
def Job.writing (strategy : WriteStrategy) (job : Job) : Job :=
  { job with options := { job.options with writeStrategy := strategy } }

/-- What a job works on that writes in one way and may be asked to stop. -/
def Job.asked (job : Job) (asks : List ProgressEvent → Bool)
    (strategy : WriteStrategy) : JobContext :=
  (job.writing strategy).context (.asking asks)

/-- If the file of a task has to be written, it can be. -/
def Task.CanUpdate (names : Renaming) (strategy : WriteStrategy) :
    Task → Tree → Prop
  | ⟨.resources, path⟩, tree => tree.CanUpdate names.inText strategy path
  | ⟨.manifest, path⟩, tree => tree.CanUpdate names.inText strategy path
  | ⟨.bytecode, path⟩, tree => tree.CanUpdate names.inBytecode strategy path
  | ⟨.directoryStructure, _⟩, _ => True

/-- In each of the moments the file that has to be written can be. -/
def Moment.AllCanUpdate (job : Job) (moments : List Moment) : Prop :=
  ∀ moment ∈ moments, moment.task.CanUpdate job.names
    job.options.writeStrategy moment.state.world.tree

/-! ### States that are alike -/

/-- Nothing but the shares of files tells the worlds apart. -/
structure World.Alike (first second : World) : Prop where
  tree : first.tree.Alike second.tree
  held : first.held = second.held
  log : first.log = second.log

theorem World.Alike.note {first second : World} (alike : first.Alike second)
    (severity : Severity) (message : String) :
    (first.note severity message).Alike (second.note severity message) :=
  ⟨alike.tree, alike.held, congrArg (· ++ _) alike.log⟩

structure JobState.Alike (first second : JobState) : Prop where
  world : first.world.Alike second.world
  cancelled : first.cancelled = second.cancelled
  events : first.events = second.events
  nested : first.nested = second.nested
  stats : first.stats = second.stats
  warnings : first.warnings = second.warnings

section Tasks

variable (job : Job) (asks : List ProgressEvent → Bool)
variable (strategy : WriteStrategy)

theorem Task.effect_alike (task : Task) {first second : Tree}
    (alike : first.Alike second)
    (can : task.CanUpdate job.names strategy first) :
    (task.effect job.names strategy first).answer =
        (task.effect job.names .inPlace second).answer ∧
      (task.effect job.names strategy first).log =
        (task.effect job.names .inPlace second).log ∧
      (task.effect job.names strategy first).tree.Alike
        (task.effect job.names .inPlace second).tree := by
  obtain ⟨stage, path⟩ := task
  cases stage with
  | resources | manifest | bytecode =>
      exact alike.updateFile can (second.canUpdate_inPlace _ path)
  | directoryStructure => exact alike.movePackage path _ _

/-- A task answers the same in states that are alike and leaves such
states. -/
theorem JobState.Alike.carriedOut {first second : JobState}
    (alike : first.Alike second) (task : Task)
    (can : task.CanUpdate job.names strategy first.world.tree) :
    (task.effectIn (job.asked asks strategy) job.names first).answer =
        (task.effectIn (job.asked asks .inPlace) job.names second).answer ∧
      (task.carriedOut (job.asked asks strategy) job.names first).Alike
        (task.carriedOut (job.asked asks .inPlace) job.names second) := by
  obtain ⟨answer, log, tree⟩ :=
    task.effect_alike job strategy alike.world.tree can
  have events := congrArg (· ++ [task.event job.root]) alike.events
  have cancelled := congrArg₂ (fun live events => live || asks events)
    alike.cancelled events
  exact ⟨answer, ⟨tree, alike.world.held,
      congrArg₂ (· ++ ·) alike.world.log log⟩,
    cancelled, events, congrArg (· ++ []) alike.nested,
    congrArg₂ task.stage.record answer
      (congrArg task.stage.visit alike.stats),
    alike.warnings⟩

end Tasks

/-! ### Plans that do not look into files -/

namespace Plan

variable {α β : Type}

/-- The plan goes on alike in trees with one layout. -/
inductive IsBlind : Plan α → Prop
  | done (value : α) : IsBlind (done value)
  | fail (reason : FailureReason) : IsBlind (fail reason)
  | check {next : Plan α} (blind : next.IsBlind) : IsBlind (check next)
  | look {next : Tree → Plan α}
      (same : ∀ {tree other : Tree}, tree.layout = other.layout →
        next tree = next other)
      (blind : ∀ tree, (next tree).IsBlind) : IsBlind (look next)
  | note {severity : Severity} {message : String} {next : Plan α}
      (blind : next.IsBlind) : IsBlind (note severity message next)
  | warn {path : Path} {message : String} {next : Plan α}
      (blind : next.IsBlind) : IsBlind (warn path message next)
  | act {task : Task} {next : Except FileError task.stage.Answer → Plan α}
      (blind : ∀ answer, (next answer).IsBlind) : IsBlind (act task next)

theorem IsBlind.bind {plan : Plan α} {goesOn : α → Plan β}
    (first : plan.IsBlind) (later : ∀ value, (goesOn value).IsBlind) :
    (plan >>= goesOn).IsBlind := by
  change (plan.bind goesOn).IsBlind
  induction first with
  | done value => exact later value
  | fail reason => exact .fail reason
  | check _ induction => exact .check induction
  | look same _ induction =>
      exact .look (fun layout => congrArg (Plan.bind · goesOn) (same layout))
        induction
  | note _ induction => exact .note induction
  | warn _ induction => exact .warn induction
  | act _ induction => exact .act induction

/-- What does not look into files sees the layout only. -/
theorem isBlind_tree {goesOn : Tree → Plan β}
    (blind : ∀ tree change, goesOn (tree.mapFiles change) = goesOn tree)
    (later : ∀ tree, (goesOn tree).IsBlind) : (tree >>= goesOn).IsBlind :=
  .look (Tree.eq_of_layout goesOn blind) later

theorem IsBlind.forM {items : List β} {plan : β → Plan Unit}
    (each : ∀ item, (plan item).IsBlind) : (items.forM plan).IsBlind := by
  induction items with
  | nil => exact .done ()
  | cons head rest induction => exact (each head).bind fun _ => induction

private theorem IsBlind.walkFrom {visit : Tree.Visited → Plan Unit}
    (each : ∀ visited, (visit visited).IsBlind) (depth : Nat)
    (above : List Path) (visited : Tree.Visited) :
    (Tree.walkFrom tree visit depth above visited).IsBlind := by
  induction depth generalizing above visited with
  | zero =>
      cases visited with
      | file path => exact each _
      | failure path fault => exact each _
      | directory path => exact (each _).bind fun _ => each _
  | succ depth induction =>
      cases visited with
      | file path => exact each _
      | failure path fault => exact each _
      | directory path =>
          refine (each _).bind fun _ => ?_
          refine isBlind_tree (fun tree change => ?_) fun listed => ?_
          · rw [Tree.list_mapFiles]
          cases listed.list path with
          | error fault => exact each _
          | ok children =>
              refine .forM fun (name, kind) => ?_
              refine isBlind_tree (fun tree change => ?_) fun found =>
                induction _ _
              rw [Tree.classify_mapFiles]

theorem IsBlind.walk {visit : Tree.Visited → Plan Unit}
    (each : ∀ visited, (visit visited).IsBlind) (root : Path) :
    (Tree.walk tree visit root).IsBlind := by
  refine isBlind_tree (fun tree change => ?_) fun found => ?_
  · simp only [Tree.kindOf_mapFiles, Tree.classify_mapFiles]
  cases found.kindOf root with
  | error fault => exact each _
  | ok kind => exact IsBlind.walkFrom each _ _ _

variable (context : JobContext) (names : Renaming)

theorem isBlind_updateResources (directory : Path) :
    (updateResources context directory).IsBlind := by
  have skips : ∀ error, (skipResource context error).IsBlind :=
    fun error => .note (.warn (.done ()))
  refine isBlind_tree (fun tree change => ?_) fun found => ?_
  · rw [Tree.isDirectory_mapFiles]
  split
  · refine .walk (fun visited => .check ?_) directory
    cases visited with
    | directory path => exact .done ()
    | failure path fault => exact skips _
    | file path =>
        refine .act fun answer => ?_
        cases answer with
        | ok outcome => exact .done ()
        | error error => exact skips error
  · exact .note (.done ())

theorem isBlind_updateManifest (manifest : Path) :
    (updateManifest context manifest).IsBlind := by
  refine .check (.act fun answer => ?_)
  cases answer with
  | error error => exact .note (.fail _)
  | ok outcome =>
      cases outcome with
      | unchanged => exact .note (.done _)
      | changed count => exact .done _

theorem isBlind_relocate (name : String) (base : Path) :
    (relocate names name base).IsBlind := by
  refine .check (.act fun answer => ?_)
  cases answer with
  | error error => exact .note (.fail _)
  | ok moved => cases moved <;> exact .note (.done ())

theorem isBlind_updateBytecodeRoot (name : String) :
    (updateBytecodeRoot context names name).IsBlind := by
  have fails : ∀ error, (failBytecodeFile context error).IsBlind :=
    fun error => .note (.fail _)
  refine .bind (.walk (fun visited => .check ?_) _)
    fun _ => isBlind_relocate names name _
  cases visited with
  | directory path => exact .done ()
  | failure path fault => exact fails _
  | file path =>
      refine .act fun answer => ?_
      cases answer with
      | ok outcome => exact .done ()
      | error error => exact fails error

theorem isBlind_updatePackage (roots : List String) :
    (updatePackage context names roots).IsBlind :=
  (isBlind_updateResources context _).bind fun _ =>
    (isBlind_updateManifest context _).bind fun _ =>
      .forM (isBlind_updateBytecodeRoot context names)

end Plan

/-! ### Runs -/

section Runs

variable (job : Job) (asks : List ProgressEvent → Bool)
variable (strategy other : WriteStrategy)

/-- A plan that does not look into files ends alike from states that are alike,
if whatever has to be written can be. -/
theorem Plan.IsBlind.run_alike {α : Type} {plan : Plan α}
    (blind : plan.IsBlind) {first second : JobState}
    (alike : first.Alike second)
    (can : Moment.AllCanUpdate (job.writing strategy)
      (plan.journal (job.asked asks strategy) job.names first)) :
    (plan.run (job.asked asks strategy) job.names first).1 =
        (plan.run (job.asked asks .inPlace) job.names second).1 ∧
      (plan.run (job.asked asks strategy) job.names first).2.Alike
        (plan.run (job.asked asks .inPlace) job.names second).2 := by
  induction blind generalizing first second with
  | done value => exact ⟨rfl, alike⟩
  | fail reason => exact ⟨rfl, alike⟩
  | check _ induction =>
      rw [Plan.journal] at can
      rw [Plan.run, Plan.run, ← alike.cancelled]
      split
      · exact ⟨rfl, alike⟩
      · rename_i live
        rw [if_neg live] at can
        exact induction alike can
  | look same _ induction =>
      rw [Plan.journal, same alike.world.tree.layout] at can
      rw [Plan.run, Plan.run, same alike.world.tree.layout]
      exact induction _ alike can
  | note _ induction =>
      exact induction ⟨alike.world.note _ _, alike.cancelled, alike.events,
        alike.nested, alike.stats, alike.warnings⟩ can
  | warn _ induction =>
      exact induction ⟨alike.world, alike.cancelled, alike.events,
        alike.nested, alike.stats, congrArg (· ++ _) alike.warnings⟩ can
  | @act task _ _ induction =>
      obtain ⟨now, afterwards⟩ := List.forall_mem_cons.mp can
      obtain ⟨answer, after⟩ := alike.carriedOut job asks strategy task now
      rw [answer] at afterwards
      rw [Plan.run, Plan.run, answer]
      exact induction _ after afterwards

namespace Job

theorem rootKey_of_layout {first second : Tree}
    (same : first.layout = second.layout) (root : Path) :
    RootKey.of root first = RootKey.of root second := by
  refine Tree.eq_of_layout (RootKey.of root) ?_ same
  intro tree change
  rw [RootKey.of, RootKey.of, Tree.canonical_mapFiles]

theorem ended_alike {first second : Except FailureReason Unit × JobState}
    (same : first.1 = second.1) (alike : first.2.Alike second.2) :
    ((job.writing strategy).ended first).1 =
        ((job.writing other).ended second).1 ∧
      ((job.writing strategy).ended first).2.Alike
        ((job.writing other).ended second).2 := by
  obtain ⟨ending, state⟩ := first
  obtain ⟨endingToo, stateToo⟩ := second
  dsimp only at same alike
  subst same
  have result := JobState.result_congr state ending alike.warnings alike.stats
  rw [ended, ended, result]
  refine ⟨?_, ?_⟩
  · rw [alike.events, alike.nested]
  · cases ending <;> exact alike.world.note _ _

variable {first second : World}

/-- Whatever the stages have to write can be written. -/
def StagesCanWrite (job : Job) (observer : Observer) (cancelled : Bool)
    (claimed : World) (roots : List String) : Prop :=
  Moment.AllCanUpdate job ((job.plan observer roots).journal
    (job.context observer) job.names (.initial claimed cancelled))

theorem runStages_alike (alike : first.Alike second) (cancelled : Bool)
    (roots : List String)
    (can : (job.writing strategy).StagesCanWrite (.asking asks) cancelled first
      roots) :
    ((job.writing strategy).runStages (.asking asks) cancelled roots first).1 =
        ((job.writing .inPlace).runStages (.asking asks) cancelled roots
          second).1 ∧
      ((job.writing strategy).runStages (.asking asks) cancelled roots
          first).2.Alike
        ((job.writing .inPlace).runStages (.asking asks) cancelled roots
          second).2 := by
  have starts : (JobState.initial first cancelled).Alike
      (.initial second cancelled) := ⟨alike, rfl, rfl, rfl, rfl, rfl⟩
  obtain ⟨ending, state⟩ := (Plan.isBlind_updatePackage
    (job.asked asks .inPlace) job.names roots).run_alike job asks strategy starts
    can
  rw [runStages_eq, runStages_eq]
  exact job.ended_alike strategy .inPlace ending state

theorem runClaimed_alike (alike : first.Alike second) (cancelled : Bool)
    (can : ∀ roots, bytecodeRoots job.root job.options first.tree = .ok roots →
      (job.writing strategy).StagesCanWrite (.asking asks) cancelled first
        roots) :
    ((job.writing strategy).runClaimed (.asking asks) cancelled first).1 =
        ((job.writing .inPlace).runClaimed (.asking asks) cancelled second).1 ∧
      ((job.writing strategy).runClaimed (.asking asks) cancelled
          first).2.Alike
        ((job.writing .inPlace).runClaimed (.asking asks) cancelled
          second).2 := by
  have same := Tree.bytecodeRoots_of_layout alike.tree.layout job.root
    job.options
  change bytecodeRoots (job.writing strategy).root
      (job.writing strategy).options first.tree =
    bytecodeRoots (job.writing .inPlace).root (job.writing .inPlace).options
      second.tree at same
  rw [runClaimed, runClaimed, same]
  cases found : bytecodeRoots (job.writing .inPlace).root
    (job.writing .inPlace).options second.tree with
  | error fault => exact ⟨rfl, alike.note _ _⟩
  | ok roots =>
      exact runStages_alike job asks strategy alike cancelled roots
        (can roots (same.trans found))

/-- Whatever a job has to write can be written, if it comes to its stages. -/
def CanWriteAll (job : Job) (observer : Observer) (cancelled : Bool)
    (world : World) : Prop :=
  ∀ roots, job.Opens world roots →
    Moment.AllCanUpdate job (job.journal observer cancelled roots world)

/-- A job reports the same as one that writes in place, and leaves a world that
is alike, if it can write whatever it has to. -/
theorem run_alike (alike : first.Alike second) (cancelled : Bool)
    (can : (job.writing strategy).CanWriteAll (.asking asks) cancelled first) :
    ((job.writing strategy).run (.asking asks) cancelled first).1 =
        ((job.writing .inPlace).run (.asking asks) cancelled second).1 ∧
      ((job.writing strategy).run (.asking asks) cancelled first).2.Alike
        ((job.writing .inPlace).run (.asking asks) cancelled second).2 := by
  have announced : ((job.writing strategy).announced first).Alike
      ((job.writing .inPlace).announced second) := alike.note _ _
  have key := rootKey_of_layout alike.tree.layout job.root
  rcases job.proper_cases with missing | ⟨named, same⟩ | proper
  · rw [(job.writing strategy).run_unnamed missing,
      (job.writing .inPlace).run_unnamed missing]
    exact ⟨rfl, announced.note _ _⟩
  · rw [(job.writing strategy).run_same named same,
      (job.writing .inPlace).run_same named same]
    exact ⟨rfl, announced.note _ _⟩
  have isProper : ∀ strategy, (job.writing strategy).IsProper :=
    fun _ => ⟨proper.sourceNamed, proper.targetNamed, proper.different⟩
  by_cases held : RootKey.of job.root first.tree ∈ first.held
  · rw [run_busy (isProper strategy) held, run_busy (isProper .inPlace)
      (by rw [← alike.held]; exact key ▸ held)]
    exact ⟨rfl, announced.note _ _⟩
  · rw [run_claiming (isProper strategy) held, run_claiming (isProper .inPlace)
      (by rw [← alike.held]; exact key ▸ held)]
    have claimed : ((job.writing strategy).claimed first).Alike
        ((job.writing .inPlace).claimed second) :=
      ⟨alike.tree, congrArg₂ List.cons key alike.held, announced.log⟩
    obtain ⟨report, world⟩ :=
      runClaimed_alike job asks strategy claimed cancelled fun roots found =>
        can roots ⟨proper.sourceNamed, proper.targetNamed, proper.different,
          held, found⟩
    exact ⟨report, world.tree, congrArg₂ List.erase world.held key, world.log⟩

/-- The two ways to write cannot be told apart in a tree whose files have one
name each, unless a file that has to be written cannot be replaced: the job
reports the same, and the trees it leaves differ in no name, link, directory,
mode or contents, nor in which files have been written.  No file is left over
either: each can be followed from one that was there before.  The observer may
ask the job to stop after any of its events. -/
theorem run_writing (job : Job) (asks : List ProgressEvent → Bool)
    (cancelled : Bool) (world : World) (single : world.tree.IsSinglyNamed)
    (can : (job.writing .atomic).CanWriteAll (.asking asks) cancelled world) :
    ((job.writing .atomic).run (.asking asks) cancelled world).1 =
        ((job.writing .inPlace).run (.asking asks) cancelled world).1 ∧
      ((job.writing .atomic).run (.asking asks) cancelled
          world).2.tree.unshared =
        ((job.writing .inPlace).run (.asking asks) cancelled
          world).2.tree.unshared ∧
      ((job.writing .atomic).run (.asking asks) cancelled world).2.held =
        ((job.writing .inPlace).run (.asking asks) cancelled world).2.held ∧
      ((job.writing .atomic).run (.asking asks) cancelled world).2.log =
        ((job.writing .inPlace).run (.asking asks) cancelled world).2.log ∧
      ((∀ roots, ¬ (job.writing .atomic).Opens world roots) →
        ((job.writing .atomic).run (.asking asks) cancelled world).2.tree =
          world.tree) ∧
      ∀ roots, (job.writing .atomic).Opens world roots → ∀ final last,
        ((job.writing .atomic).run (.asking asks) cancelled
          world).2.tree.node? final = some (.file last) →
        ∃ place file, world.tree.node? place = some (.file file) ∧
          (job.writing .atomic).followed ((job.writing .atomic).journal
            (.asking asks) cancelled roots world) place = some final := by
  have alike : world.Alike world := ⟨⟨rfl, single, single⟩, rfl, rfl⟩
  obtain ⟨report, same⟩ := run_alike job asks .atomic alike cancelled can
  refine ⟨report, same.tree.unshared, same.held, same.log, fun closed => ?_,
    fun roots opens final last isLast => ?_⟩
  · obtain ⟨-, -, -, kept⟩ := run_refused closed (.asking asks) cancelled
    exact kept
  · rw [(opens.run_eq (.asking asks) cancelled).2] at isLast
    exact (course_stages (job.writing .atomic) (.asking asks) cancelled roots
      world).exists_before (fun _ _ => rfl) isLast

end Job

end Runs

namespace Job

/-- Whether whatever has to be written can be written shows in the journal. -/
theorem canWriteAll_of_journal {job : Job} {observer : Observer}
    {cancelled : Bool} {world : World} {roots : List String}
    (found : bytecodeRoots job.root job.options world.tree = .ok roots)
    (can : ∀ moment ∈ job.journal observer cancelled roots world,
      moment.task.stage = .directoryStructure ∨
        moment.state.world.tree.CanWrite job.options.writeStrategy
          moment.task.path) :
    job.CanWriteAll observer cancelled world := by
  intro others opens moment member
  rw [opens.found, Except.ok.injEq] at found
  subst found
  have isMoved := can moment member
  generalize moment.task = task at isMoved
  obtain ⟨stage, path⟩ := task
  cases stage with
  | directoryStructure => trivial
  | resources | manifest | bytecode =>
      exact fun _ _ _ _ _ => isMoved.resolve_left nofun

/-- A package with a link to a resource, a link that leads nowhere, a link back
to a directory, a file that may not be written, one that is no text, and one
whose other name has been removed. -/
def tangledWorld : World :=
  .ofTree <| (Tree.holding [("p/AndroidManifest.xml", "com.app"),
    ("p/res/a", "com.app"), ("p/smali/com/app/A.smali", "Lcom/app/A;"),
    ("q", "com.app")]).edit
      ⟨[], [(Path.ofString "p/res/b", .link (Path.ofString "a")),
        (Path.ofString "p/res/c", .link (Path.ofString "nowhere")),
        (Path.ofString "p/res/d", .link (Path.ofString "..")),
        (Path.ofString "p/res/e", .file (Utf8.encode "com.app") 0o444),
        (Path.ofString "p/res/f", .file [0xff] File.ownerMode),
        (Path.ofString "p/res/g", .hardLink (Path.ofString "q"))]⟩ |>.edit
      ⟨[Path.ofString "q"], []⟩

def tangledJob : Job :=
  .of (Path.ofString "p") "com.app" "org.clone" .standard

theorem tangledWorld_isSinglyNamed : tangledWorld.tree.IsSinglyNamed :=
  Tree.isSinglyNamed_of_nodes (by decide +kernel)

theorem tangledJob_canWriteAll :
    (tangledJob.writing .atomic).CanWriteAll (.asking fun _ => false) false
      tangledWorld :=
  @canWriteAll_of_journal _ _ _ _ ["smali"] (by decide +kernel)
    (by decide +kernel)

theorem run_writing_tangled :
    tangledWorld.tree.IsSinglyNamed ∧
      (tangledJob.writing .atomic).CanWriteAll (.asking fun _ => false) false
        tangledWorld ∧
      ((tangledJob.writing .atomic).run (.asking fun _ => false) false
          tangledWorld).1 =
        ((tangledJob.writing .inPlace).run (.asking fun _ => false) false
          tangledWorld).1 ∧
      ((tangledJob.writing .inPlace).run (.asking fun _ => false) false
        tangledWorld).1.result.stats.filesChanged = 4 := by
  obtain ⟨report, -⟩ := run_writing tangledJob (fun _ => false) false
    tangledWorld tangledWorld_isSinglyNamed tangledJob_canWriteAll
  refine ⟨tangledWorld_isSinglyNamed, tangledJob_canWriteAll, report, ?_⟩
  decide +kernel

/-- A package far away from the top, with a class in a directory whose path
leaves no room for that of a temporary file. -/
def farWorld : World :=
  .ofTree <| Tree.farTree.withFiles
    [("p/m", ""), ("p/s/abcdefghijklmnop/x", "z")]

def farJob : Job :=
  .of (Path.ofString "p") "z" "y" ⟨"q", "m", "s", .atomic⟩

/-- A file that can be opened cannot always be replaced: there has to be room for
the path of a temporary file beside it. -/
theorem run_writing_parts_far :
    farWorld.tree.IsSinglyNamed ∧
      ((farJob.writing .atomic).run (.asking fun _ => false) false
        farWorld).1.result.success = false ∧
      ((farJob.writing .inPlace).run (.asking fun _ => false) false
        farWorld).1.result.success = true := by
  refine ⟨Tree.isSinglyNamed_of_nodes ?_, ?_, ?_⟩ <;> decide +kernel

end Job

end PackageRename
