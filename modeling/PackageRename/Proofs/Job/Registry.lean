import PackageRename.Job.Script
import PackageRename.Proofs.Job.Endings
import PackageRename.Proofs.Job.Opening
import PackageRename.Proofs.Tree.Deciding

/-!
# Claims on roots

A program of jobs is a script: jobs run to their ends one after the other, and
while one runs its observer may run others, which have observers of their own.
A program passes through worlds in each of which some jobs are running, one
inside the other.  The claims that are held in such a world are those of the
running jobs and no others; a job that finds its root claimed gives up, and
any other gives its own claim back, whatever becomes of it.
-/

namespace PackageRename

/-! ### What a program passes through -/

/-- A world that a program comes through, and the jobs that hold their roots in
it, innermost first, each with the tree in which it has claimed its root. -/
structure Passage where
  running : List (Job × Tree)
  world : World

namespace Passage

/-- The keys under which the running jobs have claimed their roots. -/
def keys (passage : Passage) : List RootKey :=
  passage.running.map fun (job, tree) => RootKey.of job.root tree

/-- No job holds a root. -/
def idle (world : World) : Passage := ⟨[], world⟩

/-- The same inside a job. -/
def inside (job : Job) (tree : Tree) (passage : Passage) : Passage :=
  { passage with running := passage.running ++ [(job, tree)] }

/-- Apart from the claims there have been before, those of the running jobs are
held, and no claim is held twice. -/
structure Fits (passage : Passage) (before : List RootKey) : Prop where
  held : passage.world.held = passage.keys ++ before
  single : passage.world.held.Nodup

theorem fits_idle {world : World} {before : List RootKey}
    (kept : world.held = before) (single : before.Nodup) :
    (idle world).Fits before :=
  ⟨kept, by rw [idle, kept]; exact single⟩

theorem Fits.inside {passage : Passage} {before : List RootKey} {job : Job}
    {tree : Tree}
    (fits : passage.Fits (RootKey.of job.root tree :: before)) :
    (passage.inside job tree).Fits before := by
  refine ⟨fits.held.trans ?_, fits.single⟩
  rw [keys, keys, Passage.inside, List.map_append, List.append_assoc]
  rfl

end Passage

/-- What a plan passes through; `watched` tells what the observer passes through
on its part. -/
def Plan.passages {α : Type} (context : JobContext) (names : Renaming)
    (watched : List ProgressEvent → World → List Passage) :
    Plan α → JobState → List Passage
  | done _, state => [.idle state.world]
  | fail _, state => [.idle state.world]
  | check next, state =>
      if state.cancelled then [.idle state.world]
      else next.passages context names watched state
  | look next, state =>
      (next state.world.tree).passages context names watched state
  | note severity message next, state =>
      .idle state.world :: next.passages context names watched
        { state with world := state.world.note severity message }
  | warn path message next, state =>
      next.passages context names watched
        { state with warnings := state.warnings ++ [⟨path, message⟩] }
  | act task next, state =>
      .idle state.world ::
        watched (state.events ++ [task.event context.root]) state.world ++
        .idle (task.reported context state).world ::
          (next (task.effectIn context names state).answer).passages context
            names watched (task.carriedOut context names state)

namespace Job

variable (job : Job) (observer : Observer)
variable (watched : List ProgressEvent → World → List Passage)
variable (cancelled : Bool) (world : World)

/-- What a job passes through while it holds its root. -/
def claimedPassages : List Passage :=
  .idle world ::
    (match bytecodeRoots job.root job.options world.tree with
      | .error _ => []
      | .ok roots => (job.plan observer roots).passages (job.context observer)
          job.names watched (.initial world cancelled)) ++
    [.idle (job.runClaimed observer cancelled world).2]

/-- What a job passes through from its start to its end. -/
def passages : List Passage :=
  .idle (job.announced world) ::
    (if job.IsProper ∧ RootKey.of job.root world.tree ∉ world.held then
      (job.claimedPassages observer watched cancelled (job.claimed world)).map
        (.inside job world.tree)
    else []) ++
    [.idle (job.run observer cancelled world).2]

end Job

/-- What a script passes through at one event. -/
def Script.passages : Script → (index : Nat) → World → List Passage
  | done, _, world => [.idle world]
  | edit wanted change rest, index, world =>
      if wanted = index then
        .idle world ::
          rest.passages index { world with tree := world.tree.edit change }
      else
        rest.passages index world
  | cancel _ rest, index, world => rest.passages index world
  | launch wanted job cancelled inner rest, index, world =>
      if wanted = index then
        job.passages inner.observer
            (fun events world => inner.passages (events.length - 1) world)
            cancelled world ++
          rest.passages index (job.run inner.observer cancelled world).2
      else
        rest.passages index world

/-! ### Claims are given back -/

/-- The observer holds the same roots after each event as before. -/
def Observer.KeepsClaims (observer : Observer) : Prop :=
  ∀ events world, (observer events world).world.held = world.held

section Claims

variable (context : JobContext) (names : Renaming) {observer : Observer}

theorem Plan.run_held {α : Type} (keeps : context.observer.KeepsClaims)
    (plan : Plan α) (state : JobState) :
    (plan.run context names state).2.world.held = state.world.held := by
  induction plan generalizing state with
  | done value => rfl
  | fail reason => rfl
  | check next induction =>
      rw [run]
      split
      · rfl
      · exact induction state
  | look next induction => exact induction state.world.tree state
  | note severity message next induction => exact induction _
  | warn path message next induction => exact induction _
  | act task next induction => exact (induction _ _).trans (keeps _ _)

namespace Job

variable {job : Job} {cancelled : Bool} {world : World}

theorem runStages_held (keeps : observer.KeepsClaims) (roots : List String) :
    (job.runStages observer cancelled roots world).2.held = world.held := by
  rw [runStages_eq]
  have kept := Plan.run_held (job.context observer) job.names keeps
    (job.plan observer roots) (.initial world cancelled)
  rw [ended]
  split <;> exact kept

theorem runClaimed_held (keeps : observer.KeepsClaims) :
    (job.runClaimed observer cancelled world).2.held = world.held := by
  rw [runClaimed]
  split
  · rfl
  · exact runStages_held keeps _

/-- However a job ends, it holds nothing any more, and has released nothing but
its own claim. -/
theorem run_held (keeps : observer.KeepsClaims) :
    (job.run observer cancelled world).2.held = world.held := by
  rcases job.proper_cases with missing | ⟨named, same⟩ | proper
  · rw [job.run_unnamed missing]
    rfl
  · rw [job.run_same named same]
    rfl
  by_cases held : RootKey.of job.root world.tree ∈ world.held
  · rw [run_busy proper held]
    rfl
  · rw [run_claiming proper held]
    calc
      ((job.runClaimed observer cancelled (job.claimed world)).2.release
          (RootKey.of job.root world.tree)).held =
        (RootKey.of job.root world.tree :: world.held).erase
          (RootKey.of job.root world.tree) :=
        congrArg (List.erase · _) (runClaimed_held keeps)
      _ = world.held := List.erase_cons_head _ _

end Job

end Claims

theorem Script.reply_held (script : Script) (index : Nat) (world : World) :
    (script.reply index world).world.held = world.held := by
  induction script generalizing index world with
  | done => rfl
  | edit wanted change rest induction =>
      rw [reply]
      split
      · exact induction index _
      · exact induction index world
  | cancel wanted rest induction => exact induction index world
  | launch wanted job cancelled inner rest innerInduction induction =>
      rw [reply]
      split
      · exact (induction index _).trans
          (Job.run_held fun events world => innerInduction _ world)
      · exact induction index world

theorem Script.keepsClaims (script : Script) : script.observer.KeepsClaims :=
  fun _ world => script.reply_held _ world

/-! ### At every moment -/

/-- In all that is passed through the claims are those of the running jobs. -/
def Watched.Fits (watched : List ProgressEvent → World → List Passage) : Prop :=
  ∀ events world, world.held.Nodup →
    ∀ passage ∈ watched events world, passage.Fits world.held

section Moments

variable (context : JobContext) (names : Renaming) {observer : Observer}
variable {watched : List ProgressEvent → World → List Passage}

theorem Plan.passages_fit {α : Type} (keeps : context.observer.KeepsClaims)
    (fits : Watched.Fits watched) (plan : Plan α) (state : JobState)
    (single : state.world.held.Nodup) :
    ∀ passage ∈ plan.passages context names watched state,
      passage.Fits state.world.held := by
  have here : (Passage.idle state.world).Fits state.world.held :=
    Passage.fits_idle rfl single
  induction plan generalizing state with
  | done value => exact List.forall_mem_singleton.mpr here
  | fail reason => exact List.forall_mem_singleton.mpr here
  | check next induction =>
      rw [passages]
      split
      · exact List.forall_mem_singleton.mpr here
      · exact induction state single here
  | look next induction => exact induction state.world.tree state single here
  | note severity message next induction =>
      exact List.forall_mem_cons.mpr ⟨here, induction _ single ⟨rfl, single⟩⟩
  | warn path message next induction => exact induction _ single here
  | act task next induction =>
      have kept : (task.reported context state).world.held =
          state.world.held := keeps _ _
      have after : (task.carriedOut context names state).world.held =
          state.world.held := keeps _ _
      have later := induction (task.effectIn context names state).answer
        (task.carriedOut context names state) (by rw [after]; exact single)
        (Passage.fits_idle rfl (by rw [after]; exact single))
      rw [after] at later
      rw [passages, List.cons_append, List.forall_mem_cons,
        List.forall_mem_append, List.forall_mem_cons]
      exact ⟨here, fits _ _ single, Passage.fits_idle kept single, later⟩

namespace Job

variable {job : Job} {cancelled : Bool} {world : World}

theorem claimedPassages_fit (keeps : observer.KeepsClaims)
    (fits : Watched.Fits watched) (single : world.held.Nodup) :
    ∀ passage ∈ job.claimedPassages observer watched cancelled world,
      passage.Fits world.held := by
  rw [claimedPassages, List.cons_append, List.forall_mem_cons,
    List.forall_mem_append, List.forall_mem_singleton]
  refine ⟨Passage.fits_idle rfl single, ?_,
    Passage.fits_idle (runClaimed_held keeps) single⟩
  split
  · exact List.forall_mem_nil _
  · exact Plan.passages_fit (job.context observer) job.names keeps fits _ _
      single

theorem passages_fit (keeps : observer.KeepsClaims)
    (fits : Watched.Fits watched) (single : world.held.Nodup) :
    ∀ passage ∈ job.passages observer watched cancelled world,
      passage.Fits world.held := by
  rw [passages, List.cons_append, List.forall_mem_cons,
    List.forall_mem_append, List.forall_mem_singleton]
  refine ⟨Passage.fits_idle rfl single, ?_,
    Passage.fits_idle (run_held keeps) single⟩
  split
  · rename_i claims
    refine List.forall_mem_map.mpr fun passage member => Passage.Fits.inside ?_
    exact claimedPassages_fit keeps fits
      (List.nodup_cons.mpr ⟨claims.2, single⟩) passage member
  · exact List.forall_mem_nil _

end Job

end Moments

theorem Script.passages_fit (script : Script) (index : Nat) (world : World)
    (single : world.held.Nodup) :
    ∀ passage ∈ script.passages index world, passage.Fits world.held := by
  induction script generalizing index world with
  | done => exact List.forall_mem_singleton.mpr (Passage.fits_idle rfl single)
  | edit wanted change rest induction =>
      rw [passages]
      split
      · exact List.forall_mem_cons.mpr
          ⟨Passage.fits_idle rfl single, induction index _ single⟩
      · exact induction index world single
  | cancel wanted rest induction => exact induction index world single
  | launch wanted job cancelled inner rest innerInduction induction =>
      rw [passages]
      split
      · have kept : (job.run inner.observer cancelled world).2.held =
            world.held := Job.run_held inner.keepsClaims
        have later := induction index
          (job.run inner.observer cancelled world).2 (by rw [kept]; exact single)
        rw [kept] at later
        exact List.forall_mem_append.mpr ⟨Job.passages_fit inner.keepsClaims
          (fun events world single => innerInduction _ world single) single,
          later⟩
      · exact induction index world single

/-- The last world that a script passes through is the one it leaves. -/
theorem Script.exists_passages (script : Script) (index : Nat)
    (world : World) :
    ∃ front, script.passages index world =
      front ++ [.idle (script.reply index world).world] := by
  induction script generalizing index world with
  | done => exact ⟨[], rfl⟩
  | edit wanted change rest induction =>
      rw [passages, reply]
      split
      · obtain ⟨front, isRest⟩ := induction index
          { world with tree := world.tree.edit change }
        exact ⟨_ :: front, congrArg (_ :: ·) isRest⟩
      · exact induction index world
  | cancel wanted rest induction => exact induction index world
  | launch wanted job cancelled inner rest _ induction =>
      rw [passages, reply]
      split
      · obtain ⟨front, isRest⟩ := induction index
          (job.run inner.observer cancelled world).2
        rw [isRest, ← List.append_assoc]
        exact ⟨_, rfl⟩
      · exact induction index world

/-! ### Jobs whose root is claimed -/

namespace Plan

theorem BytecodeEnds.not_busy {context : JobContext} {names : Renaming}
    {roots : List String} {moments : List Moment}
    {ending : Except FailureReason Unit}
    (ends : BytecodeEnds context names roots moments ending) (path : Path) :
    ending ≠ .error (.busy path) := by
  rintro rfl
  generalize isEnding : Except.error (FailureReason.busy path) = ending at ends
  induction ends with
  | done => cases isEnding
  | stopped stops =>
      cases isEnding
      cases stops with
      | inContents _ isOwn => cases isOwn
  | goesOn _ _ induction => exact induction isEnding

theorem PackageEnds.not_busy {context : JobContext} {names : Renaming}
    {roots : List String} {moments : List Moment} {path : Path} :
    ¬ PackageEnds context names roots moments (.error (.busy path)) := by
  intro ends
  cases ends with
  | inBytecode _ _ later => exact later.not_busy path rfl

end Plan

namespace Job

variable {job : Job} {observer : Observer} {cancelled : Bool} {world : World}

theorem runClaimed_not_busy (path : Path) :
    (job.runClaimed observer cancelled world).1.result.failure ≠
      some (.busy path) := by
  rw [runClaimed]
  split
  · exact fun busy => by cases busy
  · rename_i roots found
    rw [runStages_eq]
    intro busy
    have ending := (JobState.result_failure_iff _ _).mp busy
    have comes : Plan.Comes (job.context observer) job.names
        (job.plan observer roots)
        (Plan.PackageEnds (job.context observer) job.names roots) :=
      Plan.comes_updatePackage roots
    have ends := comes (.initial world cancelled)
    rw [ending] at ends
    exact Plan.PackageEnds.not_busy ends

/-- A job fails for a claim on its root if and only if there is one. -/
theorem busy_iff (job : Job) (observer : Observer) (cancelled : Bool)
    (world : World) :
    (∃ path, (job.run observer cancelled world).1.result.failure =
        some (.busy path)) ↔
      job.IsProper ∧ RootKey.of job.root world.tree ∈ world.held := by
  constructor
  · rintro ⟨path, busy⟩
    rcases job.proper_cases with missing | ⟨named, same⟩ | proper
    · rw [job.run_unnamed missing] at busy
      cases busy
    · rw [job.run_same named same] at busy
      cases busy
    refine ⟨proper, ?_⟩
    by_contra free
    rw [run_claiming proper free] at busy
    exact runClaimed_not_busy path busy
  · rintro ⟨proper, held⟩
    rw [run_busy proper held]
    exact ⟨job.root, rfl⟩

end Job

namespace RootKey

theorem of_of_canonical {root : Path} {tree : Tree} {place : Place}
    (leads : tree.canonical root = .ok place) :
    RootKey.of root tree = absolute place := by
  rw [RootKey.of, leads]

theorem of_of_error {root : Path} {tree : Tree} {fault : Fault}
    (fails : tree.canonical root = .error fault) :
    RootKey.of root tree = root.components := by
  rw [RootKey.of, fails]

theorem absolute_injective : Function.Injective absolute := fun _ _ same =>
  List.map_injective_iff.mpr (fun _ _ => Component.name.inj)
    (List.cons.inj same).2

/-- A root that leads to a place is claimed under the key of another, perhaps at
another time, just if that one leads there too, or leads nowhere and is written
as the absolute path of the place. -/
theorem absolute_eq_of_iff (place : Place) (root : Path) (tree : Tree) :
    absolute place = RootKey.of root tree ↔
      tree.canonical root = .ok place ∨
        (∃ fault, tree.canonical root = .error fault ∧
          root.components = absolute place) := by
  cases leads : tree.canonical root with
  | ok other =>
      simp [of_of_canonical leads, absolute_injective.eq_iff, eq_comm]
  | error fault =>
      rw [of_of_error leads]
      refine ⟨fun same => .inr ⟨fault, rfl, same.symm⟩, ?_⟩
      rintro (impossible | ⟨_, -, same⟩)
      · cases impossible
      · exact same.symm

/-- Two roots, each in a tree of its own, are claimed under one key just if they
lead to one place, or lead nowhere and are written alike, or one of them leads
to a place and the other leads nowhere and is written as the absolute path of
that place. -/
theorem of_eq_iff (first second : Path) (tree later : Tree) :
    RootKey.of first tree = RootKey.of second later ↔
      (∃ place, tree.canonical first = .ok place ∧
        later.canonical second = .ok place) ∨
      (∃ fault other, tree.canonical first = .error fault ∧
        later.canonical second = .error other ∧
        first.components = second.components) ∨
      (∃ place fault, tree.canonical first = .ok place ∧
        later.canonical second = .error fault ∧
        second.components = absolute place) ∨
      (∃ place fault, tree.canonical first = .error fault ∧
        later.canonical second = .ok place ∧
        first.components = absolute place) := by
  cases leads : tree.canonical first with
  | ok place =>
      rw [of_of_canonical leads, absolute_eq_of_iff]
      simp
  | error fault =>
      cases leadsLater : later.canonical second with
      | ok place =>
          rw [of_of_canonical leadsLater, eq_comm, absolute_eq_of_iff, leads]
          simp
      | error other =>
          rw [of_of_error leads, of_of_error leadsLater]
          refine ⟨fun same => .inr (.inl ⟨fault, other, rfl, rfl, same⟩), ?_⟩
          rintro (⟨_, impossible, -⟩ | ⟨_, _, -, -, same⟩ |
            ⟨_, _, impossible, -⟩ | ⟨_, _, -, impossible, -⟩)
          · cases impossible
          · exact same
          · cases impossible
          · cases impossible

end RootKey

/-- The claims on roots in any program of jobs.  In all the worlds that it
passes through the claims held are those of the running jobs, each held once,
and none is left at the end.  A job that finds its root claimed fails for that
and does nothing else.  Every job leaves the claims as it has found them, so that
no job after it finds the root claimed on its account. -/
theorem Script.registry (script : Script) (index : Nat) (tree : Tree) :
    (∀ passage ∈ script.passages index (.ofTree tree),
      passage.world.held = passage.keys ∧ passage.world.held.Nodup) ∧
    (∃ front, script.passages index (.ofTree tree) =
      front ++ [.idle (script.reply index (.ofTree tree)).world]) ∧
    (∀ (first second : Path) (tree later : Tree),
      RootKey.of first tree = RootKey.of second later ↔
        (∃ place, tree.canonical first = .ok place ∧
          later.canonical second = .ok place) ∨
        (∃ fault other, tree.canonical first = .error fault ∧
          later.canonical second = .error other ∧
          first.components = second.components) ∨
        (∃ place fault, tree.canonical first = .ok place ∧
          later.canonical second = .error fault ∧
          second.components = RootKey.absolute place) ∨
        (∃ place fault, tree.canonical first = .error fault ∧
          later.canonical second = .ok place ∧
          first.components = RootKey.absolute place)) ∧
    ∀ (job : Job) (inner : Script) (cancelled : Bool) (world : World),
      (job.run inner.observer cancelled world).2.held = world.held ∧
      ((∃ path, (job.run inner.observer cancelled world).1.result.failure =
          some (.busy path)) ↔
        job.IsProper ∧ RootKey.of job.root world.tree ∈ world.held) ∧
      (job.IsProper → RootKey.of job.root world.tree ∈ world.held →
        (job.run inner.observer cancelled world).1 =
            Job.bareReport (.failed (.busy job.root) [] .zero) ∧
          (job.run inner.observer cancelled world).2.tree = world.tree) ∧
      (RootKey.of job.root world.tree ∉ world.held →
        ∀ (next : Job) (observer : Observer) (asked : Bool) (path : Path),
          RootKey.of next.root (job.run inner.observer cancelled world).2.tree =
              RootKey.of job.root world.tree →
            (next.run observer asked
              (job.run inner.observer cancelled world).2).1.result.failure ≠
                some (.busy path)) := by
  refine ⟨fun passage member => ?_, script.exists_passages index _,
    RootKey.of_eq_iff, fun job inner cancelled world =>
      ⟨Job.run_held inner.keepsClaims, job.busy_iff _ _ _,
        fun proper held => ?_, fun free next observer asked path same busy => ?_⟩⟩
  · have fits := script.passages_fit index (.ofTree tree) List.nodup_nil passage
      member
    exact ⟨fits.held.trans (List.append_nil _), fits.single⟩
  · rw [Job.run_busy proper held]
    exact ⟨rfl, rfl⟩
  · obtain ⟨-, held⟩ := (next.busy_iff observer asked _).mp ⟨path, busy⟩
    rw [same, Job.run_held inner.keepsClaims] at held
    exact free held

/-- Two packages, and a link to one of them. -/
def neighboursTree : Tree :=
  (Tree.holding [("p/AndroidManifest.xml", "a"),
    ("q/AndroidManifest.xml", "a")]).edit
      ⟨[], [(Path.ofString "l", .link (Path.ofString "p"))]⟩

def neighbourJob (root : String) : Job :=
  .of (Path.ofString root) "a" "b" .standard

/-- While one package is renamed, the same is tried through the link, and the
other package is renamed. -/
def neighboursScript : Script :=
  .launch 0 (neighbourJob "p") false
    (.launch 0 (neighbourJob "l/.") false .done
      (.launch 0 (neighbourJob "q") false .done .done)) .done

/-- While a package is renamed, its directory is removed, and the same is tried
again on the root that now leads nowhere. -/
def vanishingScript : Script :=
  .launch 0 (neighbourJob "/p") false
    (.edit 0 ⟨[Path.ofString "p"], []⟩
      (.launch 0 (neighbourJob "/p") false .done .done)) .done

theorem Script.registry_neighbours :
    (∀ passage ∈ neighboursScript.passages 0 (.ofTree neighboursTree),
      passage.world.held = passage.keys ∧ passage.world.held.Nodup) ∧
    (∃ passage ∈ neighboursScript.passages 0 (.ofTree neighboursTree),
      passage.keys.length = 2) ∧
    (neighboursScript.reply 0 (.ofTree neighboursTree)).nested.map
        (fun report => (report.result.failure,
          report.nested.map fun inner => inner.result.failure)) =
      [(none, [some (.busy (Path.ofString "l/.")), none])] ∧
    (vanishingScript.reply 0 (.ofTree neighboursTree)).nested.map
        (fun report => report.nested.map fun inner => inner.result.failure) =
      [[some (.busy (Path.ofString "/p"))]] :=
  ⟨(registry neighboursScript 0 neighboursTree).1, by decide +kernel,
    by decide +kernel, by decide +kernel⟩

end PackageRename
