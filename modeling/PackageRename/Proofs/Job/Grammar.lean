import PackageRename.Proofs.Job.Cancelling
import PackageRename.Proofs.Job.Endings
import PackageRename.Proofs.Path.Relative

/-!
# The grammar of a job's events

A job reports its resources, its manifest, and then for each bytecode root the
files in it and its package directory.  However it ends, its events are the
front of a word of this form, and the way in which it ends tells where in the
word it has stopped.
-/

namespace PackageRename

/-! ### Words -/

/-- The event with which the move in a bytecode root is reported. -/
def moveOf (name : String) : ProgressEvent :=
  .of .directoryStructure (Path.ofString name)

/-- The events of bytecode roots, each done to its end. -/
inductive IsBytecodeWord : List String → List ProgressEvent → Prop where
  | nil : IsBytecodeWord [] []
  | root {name : String} {names : List String}
      {contents later : List ProgressEvent}
      (areContents : ∀ event ∈ contents, event.stage = .bytecode)
      (rest : IsBytecodeWord names later) :
      IsBytecodeWord (name :: names) (contents ++ moveOf name :: later)

/-- The events of a job that is done to its end. -/
def IsWord (roots : List String) (events : List ProgressEvent) : Prop :=
  ∃ resources manifest bytecode, events = resources ++ manifest :: bytecode ∧
    (∀ event ∈ resources, event.stage = .resources) ∧
    manifest.stage = .manifest ∧ IsBytecodeWord roots bytecode

theorem isWord_of_parts {roots : List String}
    {resources bytecode : List ProgressEvent} (manifest : Path)
    (areResources : ∀ event ∈ resources, event.stage = .resources)
    (word : IsBytecodeWord roots bytecode) :
    IsWord roots (resources ++ .of .manifest manifest :: bytecode) :=
  ⟨_, _, _, rfl, areResources, rfl, word⟩

namespace IsBytecodeWord

variable {names more : List String} {events later : List ProgressEvent}

theorem append (word : IsBytecodeWord names events)
    (next : IsBytecodeWord more later) :
    IsBytecodeWord (names ++ more) (events ++ later) := by
  induction word with
  | nil => exact next
  | root areContents _ induction =>
      rw [List.append_assoc, List.cons_append, List.cons_append]
      exact .root areContents induction

/-- Moves alone are a word of the roots that are moved. -/
theorem moves (names : List String) :
    IsBytecodeWord names (names.map moveOf) := by
  induction names with
  | nil => exact .nil
  | cons name rest induction =>
      have noContents : ∀ event ∈ ([] : List ProgressEvent),
          event.stage = .bytecode := List.forall_mem_nil _
      exact .root noContents induction

end IsBytecodeWord

/-- How many roots have come to their move. -/
def movesIn (events : List ProgressEvent) : Nat :=
  events.countP fun event => event.stage = .directoryStructure

theorem movesIn_append (front back : List ProgressEvent) :
    movesIn (front ++ back) = movesIn front + movesIn back :=
  List.countP_append

theorem movesIn_eq_zero {stage : Stage} {events : List ProgressEvent}
    (other : stage ≠ .directoryStructure)
    (all : ∀ event ∈ events, event.stage = stage) : movesIn events = 0 := by
  rw [movesIn, List.countP_eq_zero]
  intro event member
  simp [all event member, other]

theorem IsBytecodeWord.movesIn {names : List String}
    {events : List ProgressEvent} (word : IsBytecodeWord names events) :
    movesIn events = names.length := by
  induction word with
  | nil => rfl
  | root areContents _ induction =>
      rw [movesIn_append, movesIn_eq_zero (by decide) areContents,
        Nat.zero_add, PackageRename.movesIn, List.countP_cons_of_pos (by rfl)]
      exact congrArg Nat.succ induction

theorem movesIn_parts {resources bytecode : List ProgressEvent}
    {manifest : ProgressEvent}
    (areResources : ∀ event ∈ resources, event.stage = .resources)
    (isManifest : manifest.stage = .manifest) :
    movesIn (resources ++ manifest :: bytecode) = movesIn bytecode := by
  rw [movesIn_append, movesIn_eq_zero (by decide) areResources, Nat.zero_add,
    movesIn, List.countP_cons_of_neg (by simp [isManifest]), movesIn]

/-- A whole word has a move for each root. -/
theorem IsWord.movesIn {roots : List String} {events : List ProgressEvent}
    (word : IsWord roots events) : movesIn events = roots.length := by
  obtain ⟨resources, manifest, bytecode, rfl, areResources, isManifest,
    bytecodeWord⟩ := word
  rw [movesIn_parts areResources isManifest, bytecodeWord.movesIn]

/-! ### Where a job stops -/

namespace Plan

variable {context : JobContext} {names : Renaming} {stage : Stage}

/-- The roots after those that are done: there is none, or the first of them
stops. -/
inductive Remaining (names : Renaming) :
    List String → List ProgressEvent → Except FailureReason Unit → Prop
  | complete : Remaining names [] [] (.ok ())
  | inContents {name : String} {later : List String}
      {events : List ProgressEvent} {reason : FailureReason}
      (areContents : ∀ event ∈ events, event.stage = .bytecode)
      (isOwn : reason.IsOfContents) :
      Remaining names (name :: later) events (.error reason)
  | atMove {name : String} {later : List String}
      {contents : List ProgressEvent} {message : String}
      (areContents : ∀ event ∈ contents, event.stage = .bytecode) :
      Remaining names (name :: later) (contents ++ [moveOf name])
        (.error (.directoryMove
          (names.source.directoryIn (Path.ofString name))
          (names.target.directoryIn (Path.ofString name)) message))

/-- The event of a moment is of the stage of its task. -/
theorem stage_of_mem_map (root : Path) {moments : List Moment}
    (areStage : ∀ moment ∈ moments, moment.task.stage = stage) :
    ∀ event ∈ moments.map (·.event root), event.stage = stage := by
  intro event member
  obtain ⟨moment, isMoment, rfl⟩ := List.mem_map.mp member
  exact areStage moment isMoment

/-- A root is shown by its name. -/
def ShowsRoots (context : JobContext) (roots : List String) : Prop :=
  ∀ name ∈ roots, (context.root.join (Path.ofString name)).relativeTo
    context.root = Path.ofString name

theorem event_of_move (name : String) (state : JobState)
    (shown : (context.root.join (Path.ofString name)).relativeTo context.root =
      Path.ofString name) :
    Moment.event context.root ⟨state, ⟨.directoryStructure,
      context.root.join (Path.ofString name)⟩⟩ = moveOf name :=
  congrArg (ProgressEvent.of .directoryStructure) shown

theorem BytecodeEnds.split {roots : List String} {moments : List Moment}
    {ending : Except FailureReason Unit}
    (ends : BytecodeEnds context names roots moments ending)
    (shown : ShowsRoots context roots) :
    ∃ done later front back, roots = done ++ later ∧
      moments.map (·.event context.root) = front ++ back ∧
      IsBytecodeWord done front ∧ Remaining names later back ending := by
  induction ends with
  | done => exact ⟨[], [], [], [], rfl, rfl, .nil, .complete⟩
  | @stopped name later _ _ stops =>
      refine ⟨[], _, [], _, rfl, rfl, .nil, ?_⟩
      cases stops with
      | inContents areContents isOwn =>
          exact .inContents (stage_of_mem_map _ areContents) isOwn
      | atMove state areContents =>
          rw [List.map_append, List.map_singleton,
            event_of_move name state (shown name List.mem_cons_self)]
          exact .atMove (stage_of_mem_map _ areContents)
  | @goesOn name later _ _ _ isDone _ induction =>
      obtain ⟨done, rest, front, back, rfl, events, word, remaining⟩ :=
        induction fun other member => shown other (List.mem_cons_of_mem _ member)
      cases isDone with
      | done state areContents =>
          have areEvents := stage_of_mem_map context.root areContents
          refine ⟨name :: done, rest, _, back, rfl, ?_, .root areEvents word,
            remaining⟩
          rw [List.map_append, events, List.map_append, List.map_singleton,
            event_of_move name state (shown name List.mem_cons_self)]
          simp only [List.append_assoc, List.cons_append, List.nil_append]

/-- Where the events of a job stop. -/
inductive Stops (names : Renaming) (manifest : Path) (roots : List String) :
    List ProgressEvent → Except FailureReason Unit → Prop
  | early {resources : List ProgressEvent}
      (areResources : ∀ event ∈ resources, event.stage = .resources) :
      Stops names manifest roots resources (.error .cancelled)
  | atManifest {resources : List ProgressEvent} (message : String)
      (areResources : ∀ event ∈ resources, event.stage = .resources) :
      Stops names manifest roots (resources ++ [.of .manifest manifest])
        (.error (.manifest manifest message))
  | inBytecode {resources front back : List ProgressEvent}
      {done later : List String} {ending : Except FailureReason Unit}
      (areResources : ∀ event ∈ resources, event.stage = .resources)
      (isRoots : roots = done ++ later) (word : IsBytecodeWord done front)
      (remaining : Remaining names later back ending) :
      Stops names manifest roots
        (resources ++ .of .manifest manifest :: (front ++ back)) ending

theorem PackageEnds.stops {roots : List String} {moments : List Moment}
    {ending : Except FailureReason Unit}
    (ends : PackageEnds context names roots moments ending)
    (shown : ShowsRoots context roots) :
    Stops names ((JobM.manifestFile context).relativeTo context.root) roots
      (moments.map (·.event context.root)) ending := by
  cases ends with
  | early areResources => exact .early (stage_of_mem_map _ areResources)
  | atManifest state message areResources =>
      rw [List.map_append]
      exact .atManifest message (stage_of_mem_map _ areResources)
  | inBytecode areResources updated later =>
      obtain ⟨done, rest, front, back, isRoots, events, word, remaining⟩ :=
        later.split shown
      rw [List.map_append, List.map_cons, events]
      exact .inBytecode (stage_of_mem_map _ areResources) isRoots word remaining

namespace Stops

variable {manifest : Path} {roots : List String} {events : List ProgressEvent}
variable {ending : Except FailureReason Unit}

/-- What is left could be done by its moves alone. -/
theorem remaining_begins {later : List String} {back : List ProgressEvent}
    (remaining : Remaining names later back ending) :
    ∃ more, IsBytecodeWord later (back ++ more) := by
  cases remaining with
  | complete => exact ⟨[], .nil⟩
  | @inContents name rest _ _ areContents _ =>
      exact ⟨_, .root areContents (.moves rest)⟩
  | @atMove name rest contents _ areContents =>
      refine ⟨rest.map moveOf, ?_⟩
      rw [List.append_assoc, List.singleton_append]
      exact .root areContents (.moves rest)

/-- However a job stops, it could have gone on to a whole word. -/
theorem begins (stops : Stops names manifest roots events ending) :
    ∃ more, IsWord roots (events ++ more) := by
  cases stops with
  | early areResources =>
      exact ⟨_, isWord_of_parts manifest areResources (.moves roots)⟩
  | @atManifest resources _ areResources =>
      refine ⟨roots.map moveOf, ?_⟩
      rw [List.append_assoc, List.singleton_append]
      exact isWord_of_parts manifest areResources (.moves roots)
  | inBytecode areResources isRoots word remaining =>
      obtain ⟨more, rest⟩ := remaining_begins remaining
      refine ⟨more, ?_⟩
      rw [List.append_assoc, List.cons_append, List.append_assoc, isRoots]
      exact isWord_of_parts manifest areResources (word.append rest)

theorem word (stops : Stops names manifest roots events (.ok ())) :
    IsWord roots events := by
  cases stops with
  | inBytecode areResources isRoots word remaining =>
      cases remaining with
      | complete =>
          rw [List.append_nil] at isRoots ⊢
          exact isWord_of_parts manifest areResources (isRoots ▸ word)

theorem at_manifest {path : Path} {message : String}
    (stops : Stops names manifest roots events
      (.error (.manifest path message))) :
    ∃ resources, (∀ event ∈ resources, event.stage = .resources) ∧
      events = resources ++ [.of .manifest path] := by
  cases stops with
  | atManifest message areResources => exact ⟨_, areResources, rfl⟩
  | inBytecode _ _ _ remaining =>
      cases remaining with
      | inContents _ isOwn => cases isOwn

theorem in_contents {path : Path} {message : String}
    (stops : Stops names manifest roots events
      (.error (.bytecodeFile path message))) :
    ∃ done name later front contents, roots = done ++ name :: later ∧
      events = front ++ contents ∧ IsWord done front ∧
      ∀ event ∈ contents, event.stage = .bytecode := by
  cases stops with
  | @inBytecode resources front _ _ _ _ areResources isRoots word remaining =>
      cases remaining with
      | inContents areContents _ =>
          refine ⟨_, _, _, resources ++ .of .manifest manifest :: front, _,
            isRoots, ?_, isWord_of_parts manifest areResources word,
            areContents⟩
          rw [List.append_assoc, List.cons_append]

theorem at_move {source target : Path} {message : String}
    (stops : Stops names manifest roots events
      (.error (.directoryMove source target message))) :
    ∃ done name later, roots = done ++ name :: later ∧
      source = names.source.directoryIn (Path.ofString name) ∧
      events.getLast? = some (moveOf name) ∧
      IsWord (done ++ [name]) events := by
  cases stops with
  | inBytecode areResources isRoots word remaining =>
      cases remaining with
      | inContents _ isOwn => cases isOwn
      | atMove areContents =>
          refine ⟨_, _, _, isRoots, rfl, ?_, isWord_of_parts manifest
            areResources (word.append (.root areContents .nil))⟩
          rw [← List.cons_append, ← List.append_assoc, ← List.append_assoc,
            List.getLast?_concat]

/-- A job that is cancelled has not come to the move of each of its roots. -/
theorem not_word (stops : Stops names manifest roots events
    (.error .cancelled)) : ¬ IsWord roots events := by
  intro word
  have allMoves := word.movesIn
  cases stops with
  | early areResources =>
      obtain ⟨resources, manifest, bytecode, rfl, -, isManifest, -⟩ := word
      have isResource := areResources manifest
        (List.mem_append_right _ List.mem_cons_self)
      rw [isManifest] at isResource
      cases isResource
  | inBytecode areResources isRoots before remaining =>
      cases remaining with
      | inContents areContents _ =>
          rw [movesIn_parts areResources rfl, movesIn_append, before.movesIn,
            movesIn_eq_zero (by decide) areContents, isRoots,
            List.length_append, List.length_cons] at allMoves
          omega

/-- A job that has come to its stages does not fail for the claim on its root
or for a root that cannot be listed. -/
theorem not_refused (path : Path) (message : String) :
    ¬ Stops names manifest roots events (.error (.busy path)) ∧
      ¬ Stops names manifest roots events
        (.error (.packageRoot path message)) := by
  constructor <;>
  · intro stops
    cases stops with
    | inBytecode _ _ _ remaining =>
        cases remaining with
        | inContents _ isOwn => cases isOwn

end Stops

end Plan

/-! ### Jobs -/

namespace Job

variable {job : Job} {world : World} {roots : List String}

theorem Opens.showsRoots (opens : job.Opens world roots)
    (legal : world.tree.HasLegalNames) (observer : Observer) :
    Plan.ShowsRoots (job.context observer) roots :=
  fun _ member => Path.relativeTo_join_name (opens.isPlain_of_mem legal member)

/-! ### Endings -/

/-- What the events of a job are, and what each ending says about them. -/
structure Abides (job : Job) (observer : Observer) (cancelled : Bool)
    (world : World) (roots : List String) (report : Report) : Prop where
  begins : ∃ more, IsWord roots (report.events ++ more)
  succeeded : report.result.success = true →
    IsWord roots report.events ∧
      ∀ moment ∈ job.journal observer cancelled roots world,
        moment.task.stage = .manifest →
        (moment.effect (job.context observer) job.names).answer.isOk = true
  manifest : ∀ path message,
    report.result.failure = some (.manifest path message) →
    ∃ resources, (∀ event ∈ resources, event.stage = .resources) ∧
      report.events = resources ++ [.of .manifest path]
  bytecodeFile : ∀ path message,
    report.result.failure = some (.bytecodeFile path message) →
    ∃ done name later front contents, roots = done ++ name :: later ∧
      report.events = front ++ contents ∧ IsWord done front ∧
      ∀ event ∈ contents, event.stage = .bytecode
  directoryMove : ∀ source target message,
    report.result.failure = some (.directoryMove source target message) →
    (∃ done name later, roots = done ++ name :: later ∧
        source = job.names.source.directoryIn (Path.ofString name) ∧
        IsWord (done ++ [name]) report.events) ∧
      ∀ name ∈ roots, source.bytes = Utf8.encode name ++
          slash :: Utf8.encode job.names.source.path →
        report.events.getLast? = some (moveOf name)
  cancelled : report.result.failure = some .cancelled →
    ¬ IsWord roots report.events ∧
      (cancelled = true ∨
        ∃ moment ∈ job.journal observer cancelled roots world,
          (moment.reply (job.context observer)).cancels = true)
  opened : ∀ path message, report.result.failure ≠ some (.busy path) ∧
    report.result.failure ≠ some (.packageRoot path message)

/-- A directory of a package lies at its path in the root, unless the path is
absolute and stands for itself. -/
theorem eq_of_bytes_directoryIn {identifier : Identifier} {name other : String}
    (isPlain : Name.IsPlain (Utf8.encode name))
    (same : (identifier.directoryIn (Path.ofString name)).bytes =
      Utf8.encode other ++ slash :: Utf8.encode identifier.path) :
    other = name := by
  have closed : (Path.ofString name).IsClosed :=
    ⟨isPlain.nonempty, isPlain.getLast?_ne_slash⟩
  rw [Identifier.directoryIn] at same
  cases isAbsolute : (Path.ofString identifier.path).isAbsolute with
  | true =>
      rw [Path.join_of_absolute isAbsolute] at same
      have lengths := congrArg List.length same
      rw [List.length_append, List.length_cons] at lengths
      change (Utf8.encode identifier.path).length = _ at lengths
      omega
  | false =>
      rw [Path.bytes_join isAbsolute, if_pos closed] at same
      exact Utf8.encode_injective (List.append_cancel_right same).symm

theorem Opens.abides (opens : job.Opens world roots)
    (legal : world.tree.HasLegalNames) (observer : Observer)
    (cancelled : Bool) :
    job.Abides observer cancelled world roots
      (job.run observer cancelled world).1 := by
  have ends : Plan.PackageEnds (job.context observer) job.names roots
      (job.journal observer cancelled roots world)
      (job.stages observer cancelled roots world).1 :=
    Plan.comes_updatePackage roots _
  have stops : Plan.Stops job.names (job.manifestPath.relativeTo job.root) roots
      (job.run observer cancelled world).1.events
      (job.stages observer cancelled roots world).1 := by
    rw [opens.events_eq observer cancelled]
    exact ends.stops (opens.showsRoots legal observer)
  have failed : ∀ {reason : FailureReason},
      (job.run observer cancelled world).1.result.failure = some reason →
        (job.stages observer cancelled roots world).1 = .error reason := by
    intro reason failure
    rw [(opens.run_eq observer cancelled).1] at failure
    exact (JobState.result_failure_iff _ _).mp failure
  constructor
  case begins => exact stops.begins
  case succeeded =>
    intro success
    rw [(opens.run_eq observer cancelled).1] at success
    have ending := (JobState.result_success_iff _ _).mp success
    rw [ending] at stops ends
    exact ⟨stops.word, fun moment member => ends.manifest_updated member⟩
  case manifest =>
    intro path message failure
    rw [failed failure] at stops
    exact stops.at_manifest
  case bytecodeFile =>
    intro path message failure
    rw [failed failure] at stops
    exact stops.in_contents
  case directoryMove =>
    intro source target message failure
    rw [failed failure] at stops
    obtain ⟨done, name, later, isRoots, isSource, last, word⟩ := stops.at_move
    refine ⟨⟨done, name, later, isRoots, isSource, word⟩, ?_⟩
    intro other _ isOther
    have member : name ∈ roots := by
      rw [isRoots]
      exact List.mem_append_right _ List.mem_cons_self
    rw [isSource] at isOther
    rw [last, eq_of_bytes_directoryIn (opens.isPlain_of_mem legal member)
      isOther]
  case cancelled =>
    intro failure
    obtain ⟨others, otherOpens, asked⟩ := asked_of_cancelled failure
    have same : others = roots :=
      Except.ok.inj (otherOpens.found.symm.trans opens.found)
    rw [failed failure] at stops
    exact ⟨stops.not_word, same ▸ asked⟩
  case opened =>
    intro path message
    refine ⟨fun failure => ?_, fun failure => ?_⟩
    · rw [failed failure] at stops
      exact (Plan.Stops.not_refused _ message).1 stops
    · rw [failed failure] at stops
      exact (Plan.Stops.not_refused path _).2 stops

/-- The events of a job follow the grammar of its stages whatever its observer
does, and its ending tells where in a word they stop. -/
theorem run_grammar (job : Job) (observer : Observer) (cancelled : Bool)
    (world : World) (sourceNamed : job.names.source.isEmpty = false)
    (targetNamed : job.names.target.isEmpty = false)
    (different : job.names.source ≠ job.names.target)
    (legal : world.tree.HasLegalNames) :
    (∃ roots, job.Opens world roots ∧
        (roots.map Utf8.encode).Pairwise (· < ·) ∧
        job.Abides observer cancelled world roots
          (job.run observer cancelled world).1) ∨
      (job.run observer cancelled world).1.events = [] ∧
        ((job.run observer cancelled world).1.result.failure =
            some (.busy job.root) ∨
          ∃ message, (job.run observer cancelled world).1.result.failure =
            some (.packageRoot job.root message)) := by
  by_cases opened : ∃ roots, job.Opens world roots
  · obtain ⟨roots, opens⟩ := opened
    exact .inl ⟨roots, opens, opens.ascending_roots,
      opens.abides legal observer cancelled⟩
  · obtain ⟨result, refused, report, -⟩ :=
      run_refused (not_exists.mp opened) observer cancelled
    rw [report]
    refine .inr ⟨rfl, ?_⟩
    cases refused with
    | unnamed missing =>
        rw [sourceNamed, targetNamed] at missing
        cases missing
    | same isSame => exact absurd isSame different
    | busy => exact .inl rfl
    | packageRoot fault => exact .inr ⟨_, rfl⟩

/-- A job that is asked to stop at its second event. -/
def stoppedRun : Report × World :=
  threeTaskJob.run (Script.cancel 1 .done).observer false
    (.ofTree threeTaskTree)

/-- Asked to stop in the bytecode root, a job fails for that and leaves the root
unmoved: its events are the beginning of a word and no word. -/
theorem run_grammar_at_bytecode :
    threeTaskTree.HasLegalNames ∧
      stoppedRun.1.events =
        [.of .manifest (Path.ofString "AndroidManifest.xml"),
          .of .bytecode (Path.ofString "smali/a/Main.smali")] ∧
      stoppedRun.1.result.failure = some .cancelled ∧
      (∃ more, IsWord ["smali"] (stoppedRun.1.events ++ more)) ∧
      ¬ IsWord ["smali"] stoppedRun.1.events ∧
      stoppedRun.2.tree.hasDirectory (["p", "smali", "a"].map Utf8.encode) =
        true := by
  have legal : threeTaskTree.HasLegalNames :=
    Tree.hasLegalNames_of_nodes (by decide +kernel)
  have events : stoppedRun.1.events =
      [.of .manifest (Path.ofString "AndroidManifest.xml"),
        .of .bytecode (Path.ofString "smali/a/Main.smali")] := by
    decide +kernel
  have failure : stoppedRun.1.result.failure = some .cancelled := by
    decide +kernel
  have found : bytecodeRoots threeTaskJob.root threeTaskJob.options
      threeTaskTree = .ok ["smali"] := by
    decide +kernel
  rcases run_grammar threeTaskJob (Script.cancel 1 .done).observer false
    (.ofTree threeTaskTree) (by decide) (by decide) (by decide) legal with
    ⟨roots, opens, -, abides⟩ | ⟨noEvents, -⟩
  · obtain rfl := Except.ok.inj (opens.found.symm.trans found)
    exact ⟨legal, events, failure, abides.begins, (abides.cancelled failure).1,
      by decide +kernel⟩
  · have none : stoppedRun.1.events = [] := noEvents
    rw [events] at none
    cases none

end Job

end PackageRename
