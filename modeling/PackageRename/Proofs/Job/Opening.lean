import PackageRename.Proofs.Job.Journal

/-!
# How a job begins

A job without both names or with nothing to rename ends at once.  Any other
claims its root, unless that is claimed, and gives the claim back at its end,
whatever has come of it.
-/

namespace PackageRename

namespace Job

variable {job : Job} {observer : Observer} {cancelled : Bool} {world : World}

/-- The world in which a job has said what it is about to do. -/
def announced (job : Job) (world : World) : World :=
  world.note .info
    s!"Cloning {job.root.display} from {job.names.source.name} to {
      job.names.target.name}"

/-- A job has both names, and they differ. -/
structure IsProper (job : Job) : Prop where
  sourceNamed : job.names.source.isEmpty = false
  targetNamed : job.names.target.isEmpty = false
  different : job.names.source ≠ job.names.target

instance (job : Job) : Decidable job.IsProper :=
  decidable_of_iff (job.names.source.isEmpty = false ∧
      job.names.target.isEmpty = false ∧ job.names.source ≠ job.names.target)
    ⟨fun ⟨source, target, different⟩ => ⟨source, target, different⟩,
      fun proper => ⟨proper.sourceNamed, proper.targetNamed, proper.different⟩⟩

theorem proper_cases (job : Job) :
    (job.names.source.isEmpty || job.names.target.isEmpty) = true ∨
      (job.names.source.isEmpty || job.names.target.isEmpty) = false ∧
        job.names.source = job.names.target ∨
      job.IsProper := by
  cases missing : job.names.source.isEmpty || job.names.target.isEmpty with
  | true => exact .inl rfl
  | false =>
      obtain ⟨source, target⟩ := Bool.or_eq_false_iff.mp missing
      by_cases same : job.names.source = job.names.target
      · exact .inr (.inl ⟨rfl, same⟩)
      · exact .inr (.inr ⟨source, target, same⟩)

theorem run_unnamed (job : Job)
    (missing : (job.names.source.isEmpty || job.names.target.isEmpty) = true) :
    job.run observer cancelled world = refuse unnamed (job.announced world) :=
  if_pos missing

theorem run_same (job : Job)
    (named : (job.names.source.isEmpty || job.names.target.isEmpty) = false)
    (same : job.names.source = job.names.target) :
    job.run observer cancelled world =
      (bareReport (.succeeded [] .zero), (job.announced world).note .info
        "Source and target package are the same, nothing to do") := by
  rw [run, if_neg (by rw [named]; exact Bool.false_ne_true), if_pos same]
  rfl

theorem run_proper (proper : job.IsProper) :
    job.run observer cancelled world =
      match (job.announced world).acquire? (RootKey.of job.root world.tree) with
      | none => refuse (.busy job.root) (job.announced world)
      | some claimed =>
          ((job.runClaimed observer cancelled claimed).1,
            (job.runClaimed observer cancelled claimed).2.release
              (RootKey.of job.root world.tree)) := by
  rw [run]
  simp only [proper.sourceNamed, proper.targetNamed, Bool.or_false,
    Bool.false_eq_true, if_false, if_neg proper.different]
  rfl

theorem run_busy (proper : job.IsProper)
    (held : RootKey.of job.root world.tree ∈ world.held) :
    job.run observer cancelled world =
      refuse (.busy job.root) (job.announced world) := by
  have acquired : (job.announced world).acquire?
      (RootKey.of job.root world.tree) = none := if_pos held
  rw [run_proper proper, acquired]

theorem run_claiming (proper : job.IsProper)
    (free : RootKey.of job.root world.tree ∉ world.held) :
    job.run observer cancelled world =
      ((job.runClaimed observer cancelled (job.claimed world)).1,
        (job.runClaimed observer cancelled (job.claimed world)).2.release
          (RootKey.of job.root world.tree)) := by
  have acquired : (job.announced world).acquire?
      (RootKey.of job.root world.tree) = some (job.claimed world) := if_neg free
  rw [run_proper proper, acquired]

/-- What a job reports about its stages, and the world in which it has said
what they have come to. -/
def ended (job : Job) (outcome : Except FailureReason Unit × JobState) :
    Report × World :=
  let result := outcome.2.result outcome.1
  (⟨result, outcome.2.events, outcome.2.nested⟩,
    match outcome.1 with
    | .ok () => outcome.2.world.note .info result.display
    | .error reason => outcome.2.world.note .error
        s!"Clone of {job.root.display} failed: {reason.display}")

theorem runStages_eq (job : Job) (observer : Observer) (cancelled : Bool)
    (roots : List String) (world : World) :
    job.runStages observer cancelled roots world =
      job.ended ((job.plan observer roots).run (job.context observer) job.names
        (.initial world cancelled)) := by
  have isRun : (JobM.updatePackage (job.context observer) job.names roots).run
      (.initial world cancelled) = (job.plan observer roots).run
        (job.context observer) job.names (.initial world cancelled) :=
    Plan.describes_updatePackage roots _
  rw [runStages, isRun]
  rcases (job.plan observer roots).run _ _ _ with ⟨ending, state⟩
  cases ending <;> rfl

end Job

end PackageRename
