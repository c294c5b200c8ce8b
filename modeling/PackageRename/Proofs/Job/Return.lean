import PackageRename.Proofs.Job.Setting
import PackageRename.Proofs.Relocation.Return
import PackageRename.Proofs.Renaming
import PackageRename.Proofs.Tree.Deciding
import PackageRename.Proofs.Tree.Sought

/-!
# Renaming back

After a job without warnings, the job with the names exchanged leaves the package
as it was before the first: each stage undoes what the same stage has done.  Only
the directories that the first job has pruned are new ones.
-/

namespace PackageRename

namespace Job

variable {job : Job} {world later : World} {home : Place} {roots : List String}
variable {place : Place} {name : String} {path : Path}

open PackageRename.Tree

/-- The job that renames back. -/
def back (job : Job) : Job :=
  { job with names := job.names.swap }

/-- An arrangement in which the new name is not used: its words are in no file,
its directory is in no bytecode root, and there are no empty directories on the
way to it. -/
structure FreshArrangement (job : Job) (world : World) (home : Place)
    (roots : List String) : Prop
    extends Arrangement job world home roots where
  reversible : job.names.IsReversible
  absent : ∀ place file, world.tree.node? place = some (.file file) →
    job.names.IsAbsentFrom file
  vacant : ∀ name ∈ roots, world.tree.node?
    (rootPlace home name ++ job.names.target.segments) = none
  filled : ∀ name ∈ roots, ∀ front, front <+: job.names.target.segments →
    front ≠ [] → world.tree.hasDirectory (rootPlace home name ++ front) =
      true →
    ∃ child, (world.tree.node?
      (rootPlace home name ++ (front ++ [child]))).isSome

/-- A fresh arrangement in which no part is looked up through what lies inside a
bytecode root. -/
structure FreshSetting (job : Job) (world : World) (home : Place)
    (roots : List String) : Prop
    extends FreshArrangement job world home roots where
  aside : ∀ passed, world.tree.Passes job.root passed → ∀ name ∈ roots,
    ¬ Inside (rootPlace home name) passed
  steady : ∀ path ∈ [job.resourcePath, job.manifestPath],
    ∀ sought ∈ world.tree.sought path, ∀ name ∈ roots,
      ¬ Inside (rootPlace home name) sought

/-- The package directory of a bytecode root moves with all that stands below
it. -/
structure Moves (job : Job) (tree : Tree) (home : Place) (roots : List String)
    (name : String) (rest : List Name) (node : Node) : Prop where
  member : name ∈ roots
  directory : tree.hasDirectory
    (rootPlace home name ++ job.names.source.segments) = true
  isNode : tree.node? (rootPlace home name ++
    (job.names.source.segments ++ rest)) = some node

/-- What moves can be got at in its new place: it has a path that can be
followed, and each file that the job changes can be written. -/
structure StaysInReach (job : Job) (tree : Tree) (home : Place)
    (roots : List String) : Prop where
  short : ∀ name rest node, job.Moves tree home roots name rest node →
    ((job.bytecodePath name).below
      (job.names.target.segments ++ rest)).bytes.length ≤ pathLimit
  replaceable : job.options.writeStrategy = .atomic →
    ∀ name rest file, job.Moves tree home roots name rest (.file file) →
      file.HasToChange job.names.inBytecode →
      IsReplaceable (rootPlace home name ++ (job.names.target.segments ++ rest))

/-- The directories that are pruned when the package directories move. -/
def Prunes (job : Job) (tree : Tree) (home : Place) (roots : List String)
    (idle : Place) : Prop :=
  ∃ name ∈ roots, tree.hasDirectory
      (rootPlace home name ++ job.names.source.segments) = true ∧
    tree.IsPruned (rootPlace home name)
      (rootPlace home name ++ job.names.source.segments)
      (rootPlace home name ++ job.names.target.segments) idle

theorem FreshSetting.setting (fresh : job.FreshSetting world home roots) :
    job.Setting world home roots :=
  ⟨fresh.toArrangement, fresh.aside⟩

/-- A file that can be replaced before the move can be replaced after it. -/
theorem StaysInReach.isReplaceable_landing
    (reach : job.StaysInReach world.tree home roots)
    (isAtomic : job.options.writeStrategy = .atomic) (member : name ∈ roots)
    {old : List Name} {file : File}
    (wasFile : world.tree.node? (rootPlace home name ++ old) =
      some (.file file))
    (changes : file.HasToChange job.names.inBytecode)
    (replaceable : IsReplaceable (rootPlace home name ++ old)) :
    IsReplaceable (rootPlace home name ++
      landing job.names.source.segments job.names.target.segments old) := by
  by_cases inside : Inside job.names.source.segments old
  · obtain ⟨⟨rest, rfl⟩, different⟩ := inside
    have nonempty : rest ≠ [] := by
      rintro rfl
      exact different (List.append_nil _)
    rw [landing_append nonempty]
    have directory : world.tree.hasDirectory
        (rootPlace home name ++ job.names.source.segments) = true := by
      refine hasDirectory_of_append ?_ nonempty
      rw [List.append_assoc, wasFile]
      rfl
    exact reach.replaceable isAtomic name rest file
      ⟨member, directory, wasFile⟩ changes
  · rw [landing_of_not_inside inside]
    exact replaceable

/-! ### Deciding freshness -/

theorem Arrangement.fresh (arrangement : job.Arrangement world home roots)
    (reversible : job.names.IsReversible)
    (absent : ∀ entry ∈ world.tree.nodes, ∀ file ∈ entry.2.file?,
      Text.occursIn (Utf8.encode job.names.target.descriptor)
          file.contents = false ∧
        Text.occursIn (Utf8.encode job.names.target.name)
          file.contents = false)
    (vacant : ∀ name ∈ roots, world.tree.node?
      (rootPlace home name ++ job.names.target.segments) = none)
    (filled : ∀ name ∈ roots, ∀ front ∈ job.names.target.segments.inits,
      front ≠ [] → world.tree.hasDirectory (rootPlace home name ++ front) =
        true →
      world.tree.childrenOf (rootPlace home name ++ front) ≠ []) :
    job.FreshArrangement world home roots := by
  refine ⟨arrangement, reversible, fun place file isFile => ?_, vacant,
    fun name member front isFront nonempty isDirectory => ?_⟩
  · have nonempty : place ≠ [] := by
      intro empty
      rw [empty, node?_nil] at isFile
      cases isFile
    obtain ⟨noDescriptor, noName⟩ :=
      absent _ (mem_nodes isFile nonempty) file rfl
    exact ⟨noDescriptor, noName⟩
  · obtain ⟨child, others, areChildren⟩ := List.exists_cons_of_ne_nil
      (filled name member front ((List.mem_inits _ _).mpr isFront) nonempty
        isDirectory)
    have isChild : child ∈ world.tree.childrenOf
        (rootPlace home name ++ front) := areChildren ▸ List.mem_cons_self
    refine ⟨child.1, ?_⟩
    rw [← List.append_assoc, mem_childrenOf.mp isChild]
    rfl

theorem FreshArrangement.setting (fresh : job.FreshArrangement world home roots)
    (aside : ∀ passed ∈ world.tree.passed job.root, ∀ name ∈ roots,
      ¬ Inside (rootPlace home name) passed)
    (steady : ∀ path ∈ [job.resourcePath, job.manifestPath],
      ∀ sought ∈ world.tree.sought path, ∀ name ∈ roots,
        ¬ Inside (rootPlace home name) sought) :
    job.FreshSetting world home roots :=
  ⟨fresh, (fresh.toArrangement.setting aside).aside, steady⟩

theorem staysInReach_of_nodes {tree : Tree}
    (near : ∀ name ∈ roots, ∀ entry ∈ tree.nodes,
      rootPlace home name ++ job.names.source.segments <+: entry.1 →
      ((job.bytecodePath name).below (job.names.target.segments ++
        entry.1.drop (rootPlace home name ++
          job.names.source.segments).length)).bytes.length ≤ pathLimit ∧
      IsReplaceable (rootPlace home name ++ (job.names.target.segments ++
        entry.1.drop (rootPlace home name ++
          job.names.source.segments).length))) :
    job.StaysInReach tree home roots := by
  have eachNear : ∀ name rest node, job.Moves tree home roots name rest node →
      ((job.bytecodePath name).below
        (job.names.target.segments ++ rest)).bytes.length ≤ pathLimit ∧
      IsReplaceable (rootPlace home name ++
        (job.names.target.segments ++ rest)) := by
    intro name rest node moves
    have isNear := near name moves.member _
      (mem_nodes moves.isNode (by simp [rootPlace]))
      (by rw [← List.append_assoc]; exact List.prefix_append _ _)
    rwa [← List.append_assoc, List.drop_left] at isNear
  exact ⟨fun name rest node moves => (eachNear name rest node moves).1,
    fun _ name rest file moves _ => (eachNear name rest _ moves).2⟩

/-! ### The names -/

theorem sourceWritten (fresh : job.FreshSetting world home roots) :
    job.names.source.name ≠ "" := by
  have written := not_isEmpty_of_plain fresh.sourcePlain
  rwa [Identifier.isEmpty, decide_eq_false_iff_not] at written

theorem targetWritten (fresh : job.FreshSetting world home roots) :
    job.names.target.name ≠ "" := by
  have written := not_isEmpty_of_plain fresh.targetPlain
  rwa [Identifier.isEmpty, decide_eq_false_iff_not] at written

theorem map_plain_of_undone {change undo : File → File} {node : Option Node}
    (undone : ∀ file, node = some (.file file) →
      (undo (change file)).plain = file.plain) :
    ((node.map (Node.mapFile change)).map (Node.mapFile undo)).map
        (Node.mapFile File.plain) = node.map (Node.mapFile File.plain) := by
  cases node with
  | none => rfl
  | some node =>
      cases node with
      | directory => rfl
      | link target share => rfl
      | file file =>
          simp only [Option.map_some, Node.mapFile]
          rw [undone file rfl]

/-- The world after a job without warnings. -/
structure HasGone (job : Job) (world : World) (home : Place)
    (roots : List String) (later : World) : Prop where
  ready : job.IsReady world.tree home roots
  clean : job.CleanResources world.tree
  renamed : (job.afterManifest world.tree).HasRenamed job.names
    job.options.writeStrategy home roots later.tree
  package : later.tree.IsPackage job.root home roots
  unclaimed : RootKey.of job.root later.tree ∉ later.held

section Gone

variable (fresh : job.FreshSetting world home roots)
variable (gone : job.HasGone world home roots later)

include fresh gone

/-! ### The parts after the job -/

theorem origin_later : later.tree.origin = world.tree.origin :=
  gone.renamed.origin.trans fresh.setting.hasRevised_text.origin

/-- Outside the bytecode roots only files have changed. -/
theorem sameKinds_later :
    SameKinds (fun inner => ∃ name ∈ roots, Inside (rootPlace home name) inner)
      world.tree later.tree := by
  intro inner seen
  by_cases below : ∃ name ∈ roots, rootPlace home name <+: inner
  · obtain ⟨name, member, isBelow⟩ := below
    have atRoot : inner = rootPlace home name := by
      by_contra elsewhere
      exact seen ⟨name, member, isBelow, elsewhere⟩
    rw [atRoot, kind_of_hasDirectory (gone.package.present name member),
      kind_of_hasDirectory (fresh.setting.isPackage.present name member)]
  · have outside : ∀ name ∈ roots, ¬ rootPlace home name <+: inner :=
      fun name member isBelow => below ⟨name, member, isBelow⟩
    rw [gone.renamed.outside inner outside]
    exact fresh.setting.hasRevised_text.kind inner

/-- Every part is where it was. -/
theorem resolve_part_iff (isPart : path ∈ job.parts roots) :
    later.tree.resolve path = .ok place ↔
      world.tree.resolve path = .ok place := by
  have steady : ∀ path ∈ [job.resourcePath, job.manifestPath],
      (later.tree.resolve path = .ok place ↔
        world.tree.resolve path = .ok place) := fun path member =>
    (sameKinds_later fresh gone).resolve_iff fresh.free gone.package.free
      (origin_later fresh gone) fun inner isSought ⟨name, isRoot, inside⟩ =>
        fresh.steady path member inner isSought name isRoot inside
  rcases List.mem_cons.mp isPart with isResource | isOther
  · exact steady path (isResource ▸ List.mem_cons_self)
  · rcases List.mem_cons.mp isOther with isManifest | isBytecode
    · exact steady path (isManifest ▸ List.mem_cons_of_mem _
        List.mem_cons_self)
    · obtain ⟨name, member, isPath⟩ := List.mem_map.mp isBytecode
      have before := (fresh.setting.isBase member).resolved
      have after : later.tree.resolve (job.bytecodePath name) =
          .ok (rootPlace home name) := (gone.package.isBase member).resolved
      rw [← isPath, before, after]

/-- The package can be renamed back. -/
theorem back_setting : job.back.Setting later home roots := by
  have same := sameKinds_later fresh gone
  refine ⟨⟨gone.package.free, gone.package.legal, gone.package.resolved,
    gone.package.directory, ?_, fresh.targetPlain, fresh.sourcePlain,
    fresh.different.symm, gone.unclaimed, ?_⟩, gone.package.aside⟩
  · have sameRoots : bytecodeRoots job.root job.options later.tree =
        bytecodeRoots job.root job.options world.tree := by
      refine fresh.setting.leadsTo.bytecodeRoots_eq gone.package.toLeadsTo
        fun entry => same _ ?_
      rintro ⟨name, -, inside⟩
      exact inside.2 (inside.1.eq_of_length (by simp [rootPlace])).symm
    exact sameRoots.trans fresh.found
  · refine fresh.apart.imp_of_mem ?_
    intro first second isFirst isSecond leadApart
    refine leadApart_iff.mpr fun outer inner isOuter isInner => ?_
    exact leadApart.apart
      ((resolve_part_iff fresh gone isFirst).mp isOuter)
      ((resolve_part_iff fresh gone isSecond).mp isInner)

omit gone in
/-- The resources lie outside the bytecode roots. -/
theorem resources_aside {directory : Place}
    (resolved : world.tree.resolve job.resourcePath = .ok directory)
    (names : List Name) :
    ¬ ∃ name ∈ roots, Inside (rootPlace home name) (directory ++ names) := by
  rintro ⟨name, member, inside⟩
  exact (fresh.setting.resource_apart resolved member).symm.not_prefix_append
    inside.1

theorem hasDirectory_resources {directory : Place}
    (resolved : world.tree.resolve job.resourcePath = .ok directory) :
    later.tree.hasDirectory directory = world.tree.hasDirectory directory := by
  have aside := resources_aside fresh resolved []
  rw [List.append_nil] at aside
  exact (sameKinds_later fresh gone).hasDirectory aside

theorem resources_lead {directory : Place}
    (resolved : world.tree.resolve job.resourcePath = .ok directory)
    (wasDirectory : world.tree.hasDirectory directory = true) :
    world.tree.LeadsTo job.resourcePath directory ∧
      later.tree.LeadsTo job.resourcePath directory := by
  refine ⟨⟨fresh.free, fresh.legal, resolved, wasDirectory⟩,
    gone.package.free, gone.package.legal,
    (resolve_part_iff fresh gone List.mem_cons_self).mpr resolved, ?_⟩
  rw [hasDirectory_resources fresh gone resolved]
  exact wasDirectory

/-- What is below the resource directory can be written if it could be. -/
theorem canWrite_resource_iff {directory : Place} {names : List Name}
    (resolved : world.tree.resolve job.resourcePath = .ok directory)
    (wasDirectory : world.tree.hasDirectory directory = true)
    (fits : (job.resourcePath.below names).bytes.length ≤ pathLimit)
    (present : (world.tree.node? (directory ++ names)).isSome) :
    later.tree.CanWrite job.options.writeStrategy
        (job.resourcePath.below names) ↔
      world.tree.CanWrite job.options.writeStrategy
        (job.resourcePath.below names) := by
  obtain ⟨leads, laterLeads⟩ :=
    resources_lead fresh gone resolved wasDirectory
  have laterPresent : (later.tree.node? (directory ++ names)).isSome := by
    rw [(sameKinds_later fresh gone).isSome
      (resources_aside fresh resolved names)]
    exact present
  exact canWrite_congr fresh.free gone.package.free (origin_later fresh gone)
    (leads.resolve fits present) (laterLeads.resolve fits laterPresent)

/-- The same files are resources. -/
theorem isResource_back_iff (present : (world.tree.node? place).isSome) :
    job.back.IsResource later.tree place ↔ job.IsResource world.tree place := by
  have isPart : job.resourcePath ∈ job.parts roots := List.mem_cons_self
  constructor
  · rintro ⟨directory, resolved, isDirectory, names, rfl, fits, can⟩
    have before := (resolve_part_iff fresh gone isPart).mp resolved
    rw [hasDirectory_resources fresh gone before] at isDirectory
    exact ⟨directory, before, isDirectory, names, rfl, fits,
      (canWrite_resource_iff fresh gone before isDirectory fits present).mp can⟩
  · rintro ⟨directory, resolved, isDirectory, names, rfl, fits, can⟩
    have leads := (resources_lead fresh gone resolved isDirectory).2
    exact ⟨directory, leads.resolved, leads.directory, names, rfl, fits,
      (canWrite_resource_iff fresh gone resolved isDirectory fits
        present).mpr can⟩

/-- The manifest can be written if it could be. -/
theorem canWrite_manifest_iff
    (resolved : world.tree.resolve job.manifestPath = .ok place) :
    later.tree.CanWrite job.options.writeStrategy job.manifestPath ↔
      world.tree.CanWrite job.options.writeStrategy job.manifestPath :=
  canWrite_congr fresh.free gone.package.free (origin_later fresh gone) resolved
    ((resolve_part_iff fresh gone
      (List.mem_cons_of_mem _ List.mem_cons_self)).mpr resolved)

theorem isManifest_back_iff :
    job.back.IsManifest later.tree place ↔ job.IsManifest world.tree place := by
  have isPlace : later.tree.resolve job.manifestPath = .ok place ↔
      world.tree.resolve job.manifestPath = .ok place :=
    resolve_part_iff fresh gone (List.mem_cons_of_mem _ List.mem_cons_self)
  constructor
  · rintro ⟨resolved, can⟩
    have before := isPlace.mp resolved
    exact ⟨before, (canWrite_manifest_iff fresh gone before).mp can⟩
  · rintro ⟨resolved, can⟩
    exact ⟨isPlace.mpr resolved,
      (canWrite_manifest_iff fresh gone resolved).mpr can⟩

/-- The files of the text stages have been revised. -/
theorem node?_later_of_text
    (isText : job.IsResource world.tree place ∨
      job.IsManifest world.tree place) :
    later.tree.node? place = (world.tree.node? place).map (Node.mapFile
      (File.revised job.options.writeStrategy job.names.inText)) := by
  have outside : ∀ name ∈ roots, ¬ rootPlace home name <+: place :=
    fun name member => isText.elim
      (fun isResource => fresh.setting.resource_outside isResource member)
      fun isManifest => fresh.setting.manifest_outside isManifest.1 member
  rw [gone.renamed.outside place outside,
    fresh.setting.hasRevised_text.inside place isText]

/-- So has any other file outside the bytecode roots, if there was nothing to
change in it. -/
theorem node?_later_of_file {file : File}
    (isFile : world.tree.node? place = some (.file file))
    (outside : ∀ name ∈ roots, ¬ rootPlace home name <+: place)
    (covered : file.HasToChange job.names.inText →
      job.IsResource world.tree place ∨ job.IsManifest world.tree place) :
    later.tree.node? place =
      some (.file (file.revised job.options.writeStrategy job.names.inText)) := by
  by_cases isText : job.IsResource world.tree place ∨
      job.IsManifest world.tree place
  · rw [node?_later_of_text fresh gone isText, isFile]
    rfl
  · rw [File.revised_eq_self fun changes => isText (covered changes),
      gone.renamed.outside place outside,
      fresh.setting.hasRevised_text.outside place isText]
    exact isFile

/-! ### The stages back -/

/-- The manifest can be updated back. -/
theorem back_manifest :
    (updateFile job.back.manifestPath job.back.names.inText
      job.back.options.writeStrategy
      (job.back.afterResources later.tree)).answer.isOk = true := by
  have before := gone.ready.manifest
  have revised := hasRevised_afterResources job fresh.free fresh.legal
  rw [updateFile_isOk_congr revised.layout
    fresh.setting.fileAt_manifest] at before
  cases found : world.tree.fileAt job.manifestPath with
  | error fault =>
      rw [updateFile_of_missing found] at before
      cases before
  | ok at_ =>
      obtain ⟨manifest, file⟩ := at_
      obtain ⟨resolved, isFile⟩ := fileAt_eq_ok.mp found
      have can := ((updateFile_isOk_iff found).mp before).2
      have laterFile := node?_later_of_file fresh gone isFile
        (fun _ => fresh.setting.manifest_outside resolved)
        fun changes => .inr ⟨resolved, can changes⟩
      have laterFound : later.tree.fileAt job.manifestPath =
          .ok (manifest,
            file.revised job.options.writeStrategy job.names.inText) :=
        fileAt_eq_ok.mpr ⟨(resolve_part_iff fresh gone
          (List.mem_cons_of_mem _ List.mem_cons_self)).mpr resolved, laterFile⟩
      have undone := Renaming.swap_inText fresh.reversible (sourceWritten fresh)
        (targetWritten fresh) job.options.writeStrategy
        (fresh.absent manifest file isFile)
      have backRevised := hasRevised_afterResources job.back gone.package.free
        gone.package.legal
      rw [updateFile_isOk_congr backRevised.layout
        (back_setting fresh gone).fileAt_manifest]
      refine (updateFile_isOk_iff laterFound).mpr ⟨undone.revisable, ?_⟩
      exact fun changes => (canWrite_manifest_iff fresh gone resolved).mpr
        (can (undone.changes_iff.mp changes).1)

/-- The resources can be updated back. -/
theorem back_clean : job.back.CleanResources later.tree := by
  intro isDirectory
  obtain ⟨directory, leads⟩ := leadsTo_of_isDirectory gone.package.free
    gone.package.legal isDirectory
  have resolved : world.tree.resolve job.resourcePath = .ok directory :=
    (resolve_part_iff fresh gone List.mem_cons_self).mp leads.resolved
  have aside := resources_aside fresh resolved
  have same := sameKinds_later fresh gone
  have wasDirectory : world.tree.hasDirectory directory = true := by
    rw [← hasDirectory_resources fresh gone resolved]
    exact leads.directory
  have wasOk : world.tree.isDirectory job.resourcePath = true := by
    rw [Tree.isDirectory, resolved]
    exact wasDirectory
  have beforeLeads := (resources_lead fresh gone resolved wasDirectory).1
  have sound := beforeLeads.settlesAll_visits_iff.mp (gone.clean wasOk)
  refine leads.settlesAll_visits_iff.mpr ⟨fun names file isFile => ?_,
    fun names isThere => ?_⟩
  · have isKind := same _ (aside names)
    rw [isFile] at isKind
    obtain ⟨original, isNode⟩ := kind_eq_file.mp isKind.symm
    obtain ⟨fits, -, can⟩ := sound.files names original isNode
    have revised := node?_later_of_file fresh gone isNode
      (fun _ member =>
        (fresh.setting.resource_apart resolved member).symm.not_prefix_append)
      fun changes => .inl
        ⟨directory, resolved, wasDirectory, names, rfl, fits, can changes⟩
    rw [isFile, Option.some.injEq, Node.file.injEq] at revised
    have undone := Renaming.swap_inText fresh.reversible (sourceWritten fresh)
      (targetWritten fresh) job.options.writeStrategy
      (fresh.absent _ original isNode)
    rw [revised]
    refine ⟨fits, undone.revisable, fun changes => ?_⟩
    exact (canWrite_resource_iff fresh gone resolved wasDirectory fits
      (by rw [isNode]; rfl)).mpr (can (undone.changes_iff.mp changes).1)
  · rw [same.hasDirectory (aside names)] at isThere
    exact sound.directories names isThere

theorem root_ready (member : name ∈ roots) :
    world.tree.IsReady (job.bytecodePath name) (rootPlace home name)
      job.names job.options.writeStrategy :=
  (fresh.setting.isReady_root_iff member).mp (gone.ready.bytecode name member)

theorem root_renames (member : name ∈ roots) :
    View.Renames job.names.source.segments job.names.target.segments
      (File.revised job.options.writeStrategy job.names.inBytecode)
      (world.tree.view (rootPlace home name))
      (later.tree.view (rootPlace home name)) := by
  have renames := gone.renamed.inside name member
  rwa [fresh.setting.view_afterManifest member] at renames

/-- Everything in a bytecode root has a path that can be followed. -/
theorem fits_later (reach : job.StaysInReach world.tree home roots)
    (member : name ∈ roots) {new : List Name}
    (present : (later.tree.node? (rootPlace home name ++ new)).isSome) :
    ((job.bytecodePath name).below new).bytes.length ≤ pathLimit := by
  have ready := root_ready fresh gone member
  have renames := root_renames fresh gone member
  have fits : ∀ {names}, (world.tree.node?
      (rootPlace home name ++ names)).isSome →
      ((job.bytecodePath name).below names).bytes.length ≤ pathLimit :=
    fun wasPresent => ready.sound.fits fresh.free wasPresent
  by_cases directory : world.tree.hasDirectory
      (rootPlace home name ++ job.names.source.segments) = true
  · have relocates := renames.moved (hasDirectory_view.mpr directory)
    have can := ready.movable directory
    rcases relocates.cases_of_isSome present with
      ⟨rest, isNew, same⟩ | ⟨above, -⟩ | ⟨-, same⟩
    · subst isNew
      rw [view] at same
      rw [same, View.isSome_revise] at present
      obtain ⟨node, isNode⟩ := Option.isSome_iff_exists.mp present
      exact reach.short name rest node ⟨member, directory, isNode⟩
    · obtain ⟨rest, isTarget⟩ := above
      have targetFits := can.fits
      rw [← isTarget] at targetFits
      refine Nat.le_trans (Path.length_below_le_append ?_) targetFits
      rw [isTarget]
      exact fresh.targetPlain
    · rw [view] at same
      rw [same, View.isSome_revise] at present
      exact fits present
  · have unmoved := congrFun
      (renames.unmoved (hasDirectory_view.not.mpr directory)) new
    rw [view] at unmoved
    rw [unmoved, View.isSome_revise] at present
    exact fits present

/-- A file of a bytecode root that has been changed can be written again, as it
could be before, if its new place is near enough. -/
theorem canWrite_later (reach : job.StaysInReach world.tree home roots)
    (member : name ∈ roots) {old : List Name} {before after : File}
    (wasFile : world.tree.node? (rootPlace home name ++ old) =
      some (.file before))
    (isFile : later.tree.node? (rootPlace home name ++
      landing job.names.source.segments job.names.target.segments old) =
      some (.file after))
    (changes : before.HasToChange job.names.inBytecode) :
    later.tree.CanWrite job.options.writeStrategy
      ((job.bytecodePath name).below
        (landing job.names.source.segments job.names.target.segments old)) := by
  obtain ⟨wasFit, -, can⟩ :=
    (root_ready fresh gone member).sound.files old before wasFile
  have leads := (fresh.setting.isBase member).toLeadsTo
  have laterLeads := (gone.package.isBase member).toLeadsTo
  have fits := fits_later fresh gone reach member (by rw [isFile]; rfl)
  refine (laterLeads.canWrite_iff isFile fits).mpr fun isAtomic => ?_
  obtain ⟨near, replaceable⟩ :=
    (leads.canWrite_iff wasFile wasFit).mp (can changes) isAtomic
  rw [startOf_eq (origin_later fresh gone)]
  exact ⟨near,
    reach.isReplaceable_landing isAtomic member wasFile changes replaceable⟩

/-- Every bytecode root can be renamed back. -/
theorem back_root_ready (reach : job.StaysInReach world.tree home roots)
    (member : name ∈ roots) :
    later.tree.IsReady (job.bytecodePath name) (rootPlace home name)
      job.back.names job.back.options.writeStrategy := by
  have ready := root_ready fresh gone member
  have renames := root_renames fresh gone member
  refine ⟨⟨fun new file isFile => ?_, fun new directory => ?_⟩,
    fun directory => ?_⟩
  · obtain ⟨old, before, isNew, wasFile, isChanged⟩ :=
      (fresh.setting.bytecode_file_iff gone.ready gone.renamed member).mp isFile
    have undone := Renaming.swap_inBytecode fresh.reversible
      (sourceWritten fresh) (targetWritten fresh) job.options.writeStrategy
      (fresh.absent _ before wasFile)
    subst isNew
    refine ⟨fits_later fresh gone reach member (by rw [isFile]; rfl), ?_⟩
    rw [isChanged]
    exact ⟨undone.revisable, fun changes => canWrite_later fresh gone reach
      member wasFile isFile (undone.changes_iff.mp changes).1⟩
  · exact fits_later fresh gone reach member (hasDirectory_isSome directory)
  · have wasDirectory : world.tree.hasDirectory
        (rootPlace home name ++ job.names.source.segments) = true := by
      by_contra noDirectory
      have unmoved :=
        renames.unmoved (hasDirectory_view.not.mpr noDirectory)
      have vacant : later.tree.node? (rootPlace home name ++
          job.names.target.segments) = none := by
        refine (congrFun unmoved _).trans ?_
        exact View.revise_eq_none.mpr (fresh.vacant name member)
      have present := hasDirectory_isSome directory
      change (later.tree.node? (rootPlace home name ++
        job.names.target.segments)).isSome = true at present
      rw [vacant] at present
      cases present
    have can := ready.movable wasDirectory
    have present := hasDirectory_isSome wasDirectory
    refine can.back wasDirectory
      (renames.moved (hasDirectory_view.mpr wasDirectory)) ?_ ?_
      (apart_park job.names.source) (apart_park job.names.target)
    · exact fun segment isSegment => (fresh.legal _ present segment
        (List.mem_append_right _ isSegment)).fits
    · exact ready.sound.directories _ wasDirectory

theorem back_ready_iff : job.back.IsReady later.tree home roots ↔
    job.StaysInReach world.tree home roots := by
  have setting := back_setting fresh gone
  constructor
  · intro ready
    have arrived : ∀ {name rest node},
        job.Moves world.tree home roots name rest node →
        later.tree.node? (rootPlace home name ++
          (job.names.target.segments ++ rest)) =
          some (node.mapFile
            (File.revised job.options.writeStrategy job.names.inBytecode)) := by
      intro name rest node moves
      have relocates := (root_renames fresh gone moves.member).moved
        (hasDirectory_view.mpr moves.directory)
      refine (relocates.arrived rest).trans ?_
      rw [View.revise, view, moves.isNode]
      rfl
    have sound := fun {name} (member : name ∈ roots) =>
      ((setting.isReady_root_iff member).mp (ready.bytecode name member)).sound
    refine ⟨fun name rest node moves => ?_,
      fun isAtomic name rest file moves changes => ?_⟩
    · exact (sound moves.member).fits gone.package.free
        (by rw [arrived moves]; rfl)
    · have isFile := arrived moves
      obtain ⟨-, revisable, -⟩ := (root_ready fresh gone
        moves.member).sound.files _ file moves.isNode
      have undone := Renaming.swap_inBytecode fresh.reversible
        (sourceWritten fresh) (targetWritten fresh) job.options.writeStrategy
        (fresh.absent _ file moves.isNode)
      obtain ⟨fits, -, can⟩ := (sound moves.member).files _ _ isFile
      have leads := (gone.package.isBase moves.member).toLeadsTo
      exact ((leads.canWrite_iff isFile fits).mp
        (can (undone.changes_iff.mpr ⟨changes, revisable.writable changes⟩))
        isAtomic).2
  · intro reach
    refine ⟨back_manifest fresh gone, fun name member => ?_⟩
    exact (setting.isReady_root_iff member).mpr
      (back_root_ready fresh gone reach member)

/-! ### What there is in the end -/

variable {final : Tree}
variable (goneBack : (job.back.afterManifest later.tree).HasRenamed
  job.back.names job.back.options.writeStrategy home roots final)

include goneBack

theorem view_final (member : name ∈ roots) :
    View.Remakes
      (fun names => job.Prunes world.tree home roots
        (rootPlace home name ++ names))
      (((world.tree.view (rootPlace home name)).revise
        (File.revised job.options.writeStrategy job.names.inBytecode)).revise
        (File.revised job.options.writeStrategy job.names.swap.inBytecode))
      (final.view (rootPlace home name)) := by
  have ready := root_ready fresh gone member
  have there := root_renames fresh gone member
  have comesBack := goneBack.inside name member
  rw [(back_setting fresh gone).view_afterManifest member] at comesBack
  have isReturn : (world.tree.view (rootPlace home name)).HasDirectory
      job.names.source.segments →
      (world.tree.view (rootPlace home name)).IsReturn job.names.source.segments
        job.names.target.segments := by
    intro directory
    have can := ready.movable (hasDirectory_view.mp directory)
    exact ⟨fun front above outside =>
        (can.opened front above outside).imp_right hasDirectory_view.mpr,
      can.vacant, fun front above nonempty isDirectory =>
        fresh.filled name member front above nonempty
          (hasDirectory_view.mp isDirectory)⟩
  have remakes := View.Renames.trans_back isStanding_view
    job.names.target.segments_ne_nil isReturn (fresh.vacant name member) there
    comesBack
  refine ⟨fun names isPruned => ?_, fun names spared => ?_⟩
  · obtain ⟨other, -, directory, isPruned⟩ := isPruned
    -- What lies below one root lies below no other.
    obtain rfl : other = name := by
      by_contra different
      exact (apart_rootPlace different).not_prefix_append
        isPruned.deserted.inside.1
    exact remakes.remade names
      ⟨hasDirectory_view.mpr directory, isPruned_view.mpr isPruned⟩
  · exact remakes.kept names fun ⟨directory, isPruned⟩ => spared
      ⟨name, member, hasDirectory_view.mp directory, isPruned_view.mp isPruned⟩

/-- All files say what they said, and stand where they stood, and so do all
directories but those that have been pruned. -/
theorem plain_final :
    (world.tree.mapFiles File.plain).HasRemade
      (job.Prunes world.tree home roots) (final.mapFiles File.plain) := by
  have text := (back_setting fresh gone).hasRevised_text
  refine ⟨(goneBack.origin.trans text.origin).trans (origin_later fresh gone),
    fun place isPruned => ?_, fun place spared => ?_⟩
  · obtain ⟨name, member, directory, isPruned⟩ := isPruned
    obtain ⟨inner, rfl⟩ := isPruned.deserted.inside.1
    have remade := (view_final fresh gone goneBack member).remade inner
      ⟨name, member, directory, isPruned⟩
    rw [view] at remade
    rw [node?_mapFiles, remade]
    rfl
  rw [node?_mapFiles, node?_mapFiles]
  by_cases inBytecode : ∃ name ∈ roots, rootPlace home name <+: place
  · obtain ⟨name, member, inner, isPlace⟩ := inBytecode
    subst isPlace
    have isFinal := (view_final fresh gone goneBack member).kept inner spared
    rw [view] at isFinal
    rw [isFinal]
    exact map_plain_of_undone fun file isFile =>
      (Renaming.swap_inBytecode fresh.reversible (sourceWritten fresh)
        (targetWritten fresh) job.options.writeStrategy
        (fresh.absent _ file isFile)).plain
  · have outside : ∀ name ∈ roots, ¬ rootPlace home name <+: place :=
      fun name member below => inBytecode ⟨name, member, below⟩
    rw [goneBack.outside place outside]
    by_cases missing : world.tree.node? place = none
    · have laterMissing := gone.renamed.outside place outside
      rw [fresh.setting.hasRevised_text.node?_eq_none.mpr missing] at laterMissing
      rw [text.node?_eq_none.mpr laterMissing, missing]
    have isBack := isResource_back_iff fresh gone
      (Option.isSome_iff_ne_none.mpr missing)
    by_cases isText : job.IsResource world.tree place ∨
        job.IsManifest world.tree place
    · have stillText : job.back.IsResource later.tree place ∨
          job.back.IsManifest later.tree place :=
        isText.imp isBack.mpr (isManifest_back_iff fresh gone).mpr
      rw [text.inside place stillText, node?_later_of_text fresh gone isText]
      exact map_plain_of_undone fun file isFile =>
        (Renaming.swap_inText fresh.reversible (sourceWritten fresh)
          (targetWritten fresh) job.options.writeStrategy
          (fresh.absent _ file isFile)).plain
    · have notText : ¬ (job.back.IsResource later.tree place ∨
          job.back.IsManifest later.tree place) := fun stillText =>
        isText (stillText.imp isBack.mp (isManifest_back_iff fresh gone).mp)
      rw [text.outside place notText, gone.renamed.outside place outside,
        fresh.setting.hasRevised_text.outside place isText]

end Gone

/-- A job without warnings can be undone as long as what it has moved can be got
at in its new place.  The job that renames back then succeeds without warnings,
and leaves every file with the contents and the mode that it had, and every
directory where it was, with its mode unless the first job has pruned it. -/
theorem run_back_restores (fresh : job.FreshSetting world home roots)
    (success : (job.run .passive false world).1.result.success = true)
    (noWarnings : (job.run .passive false world).1.result.warnings = [])
    (sameTree : later.tree = (job.run .passive false world).2.tree)
    (unclaimed : RootKey.of job.root later.tree ∉ later.held) :
    ((job.back.run .passive false later).1.result.success = true ↔
        job.StaysInReach world.tree home roots) ∧
      (job.StaysInReach world.tree home roots →
        (job.back.run .passive false later).1.result.warnings = [] ∧
        (world.tree.mapFiles File.plain).HasRemade
          (job.Prunes world.tree home roots)
          ((job.back.run .passive false later).2.tree.mapFiles
            File.plain)) := by
  have can := fresh.setting.canStart
  have ready : job.IsReady world.tree home roots := by
    by_contra notReady
    have failed := can.not_success_of_not_ready notReady
    rw [success] at failed
    cases failed
  obtain ⟨between, succeeds, renamed, package⟩ := can.succeeds_of_ready ready
  rw [succeeds.tree] at sameTree
  subst sameTree
  have gone : job.HasGone world home roots later :=
    ⟨ready, succeeds.warnings.mp noWarnings, renamed, package, unclaimed⟩
  have canBack := (back_setting fresh gone).canStart
  have backReady_iff := back_ready_iff fresh gone
  refine ⟨⟨fun successBack => ?_, fun reach => ?_⟩, fun reach => ?_⟩
  · by_contra beyond
    have failed := canBack.not_success_of_not_ready
      (mt backReady_iff.mp beyond)
    rw [successBack] at failed
    cases failed
  · obtain ⟨final, succeedsBack, -, -⟩ :=
      canBack.succeeds_of_ready (backReady_iff.mpr reach)
    exact succeedsBack.success
  · obtain ⟨final, succeedsBack, goneBack, -⟩ :=
      canBack.succeeds_of_ready (backReady_iff.mpr reach)
    refine ⟨succeedsBack.warnings.mpr (back_clean fresh gone), ?_⟩
    rw [succeedsBack.tree]
    exact plain_final fresh gone goneBack

/-- A package that moves into a subpackage of its own, with an empty directory
beside it. -/
def returnTree : Tree :=
  .edit (.holding [("p/AndroidManifest.xml", "<manifest package=\"com.app\"/>"),
    ("p/res/values.xml", "com.app"),
    ("p/smali/com/app/Main.smali", ".class public Lcom/app/Main;\n")])
    ⟨[], [(Path.ofString "p/smali/empty", .directory)]⟩

def returnJob : Job :=
  .of (Path.ofString "p") "com.app" "com.app.clone" .standard

theorem returnJob_fresh :
    returnJob.FreshSetting (World.ofTree returnTree) [Utf8.encode "p"]
      ["smali"] := by
  refine (Arrangement.fresh ⟨isLinkFree_of_nodes ?_, hasLegalNames_of_nodes ?_,
    ?_, ?_, ?_, ?_, ?_, ?_, List.not_mem_nil, ?_⟩ ⟨?_, ?_, ?_, ?_, ?_⟩ ?_ ?_
    ?_).setting ?_ ?_ <;>
    decide +kernel

theorem returnJob_staysInReach :
    returnJob.StaysInReach returnTree [Utf8.encode "p"] ["smali"] :=
  staysInReach_of_nodes (by decide +kernel)

theorem run_back_restores_subpackage :
    (returnJob.back.run .passive false
        (returnJob.run .passive false
          (World.ofTree returnTree)).2).1.result.success = true ∧
      (returnJob.back.run .passive false
        (returnJob.run .passive false
          (World.ofTree returnTree)).2).1.result.warnings = [] ∧
      (returnJob.back.run .passive false
        (returnJob.run .passive false
          (World.ofTree returnTree)).2).2.tree.mapFiles File.plain =
        returnTree.mapFiles File.plain := by
  have restores := run_back_restores returnJob_fresh (by decide +kernel)
    (by decide +kernel) rfl (by decide +kernel)
  obtain ⟨warnings, isRemade⟩ := restores.2 returnJob_staysInReach
  refine ⟨restores.1.mpr returnJob_staysInReach, warnings, isRemade.eq_of_made ?_⟩
  -- The directory above the package has the mode of new ones.
  have wereMade : ∀ other ∈ ([Utf8.encode "p", Utf8.encode "smali",
      Utf8.encode "com", Utf8.encode "app"] : Place).inits,
      (returnTree.mapFiles File.plain).node? other = some .made := by
    decide +kernel
  rintro other ⟨name, member, -, isPruned⟩
  obtain rfl := List.mem_singleton.mp member
  exact wereMade other ((List.mem_inits _ _).mpr isPruned.deserted.above)

/-- A package directory that paths may lead through. -/
def detouredTree : Tree :=
  .holding [("p/m", ""), ("p/res/v", "a"), ("p/smali/a/X", "")]

def detouredJob (root resources manifest : String) : Job :=
  .of (Path.ofString root) "a" "b.c" ⟨resources, manifest, "smali", .atomic⟩

/-- What a detoured job does, and what the job that renames back does after it. -/
def detouredRun (root resources manifest : String) : Report × World :=
  (detouredJob root resources manifest).run .passive false
    (World.ofTree detouredTree)

def detouredRunBack (root resources manifest : String) : Report × World :=
  (detouredJob root resources manifest).back.run .passive false
    (detouredRun root resources manifest).2

theorem detouredJob_fresh {root resources manifest : String}
    (chosen : (root, resources, manifest) ∈
      [("p/smali/a/../..", "res", "m"), ("p", "res", "smali/a/../../m"),
        ("p", "smali/a/../../res", "m")]) :
    (detouredJob root resources manifest).FreshArrangement
      (World.ofTree detouredTree) [Utf8.encode "p"] ["smali"] := by
  simp only [List.mem_cons, Prod.mk.injEq, List.not_mem_nil, or_false] at chosen
  rcases chosen with ⟨rfl, rfl, rfl⟩ | ⟨rfl, rfl, rfl⟩ | ⟨rfl, rfl, rfl⟩ <;>
    refine Arrangement.fresh ⟨isLinkFree_of_nodes ?_, hasLegalNames_of_nodes ?_,
      ?_, ?_, ?_, ?_, ?_, ?_, List.not_mem_nil, ?_⟩ ⟨?_, ?_, ?_, ?_, ?_⟩ ?_ ?_
      ?_ <;>
    decide +kernel

/-- A package in a directory that only its owner may enter. -/
def privateTree : Tree :=
  ((Tree.holding [("p/m", ""), ("p/res/v", "")]).edit
    ⟨[], [(Path.ofString "p/smali/a", .directory)]⟩ |>.replace
      (["p", "smali", "a"].map Utf8.encode) (.directory 0o700)).withFiles
    [("p/smali/a/x/X", "")]

def privateJob : Job :=
  .of (Path.ofString "p") "a.x" "b.c" ⟨"res", "m", "smali", .atomic⟩

theorem privateJob_fresh :
    privateJob.FreshSetting (World.ofTree privateTree) [Utf8.encode "p"]
      ["smali"] := by
  refine (Arrangement.fresh ⟨isLinkFree_of_nodes ?_, hasLegalNames_of_nodes ?_,
    ?_, ?_, ?_, ?_, ?_, ?_, List.not_mem_nil, ?_⟩ ⟨?_, ?_, ?_, ?_, ?_⟩ ?_ ?_
    ?_).setting ?_ ?_ <;>
    decide +kernel

/-- A package far away from the top, whose class can be replaced only before its
directory moves. -/
def remoteClassTree : Tree :=
  Tree.farTree.withFiles [("p/m", ""), ("p/s/a/x", "a")]

def remoteClassJob : Job :=
  .of (Path.ofString "p") "a" "bcdefghijklmn.op" ⟨"q", "m", "s", .atomic⟩

theorem remoteClassJob_fresh :
    remoteClassJob.FreshSetting (World.ofTree remoteClassTree)
      (Tree.farPlace ++ [Utf8.encode "p"]) ["s"] := by
  refine (Arrangement.fresh ⟨isLinkFree_of_nodes ?_, hasLegalNames_of_nodes ?_,
    ?_, ?_, ?_, ?_, ?_, ?_, List.not_mem_nil, ?_⟩ ⟨?_, ?_, ?_, ?_, ?_⟩ ?_ ?_
    ?_).setting ?_ ?_ <;>
    decide +kernel

/-- Without the condition on the places that are looked at a job without warnings
cannot always be undone: the root, the manifest and the resources are lost when
the way to them leads through the package directory.  With it, a class may have
come too far to be replaced, and a directory that has been pruned comes back open
to all. -/
theorem run_back_loses_detours :
    (∀ detour ∈ [("p/smali/a/../..", "res", "m"),
        ("p", "res", "smali/a/../../m"), ("p", "smali/a/../../res", "m")],
      (detouredJob detour.1 detour.2.1 detour.2.2).FreshArrangement
          (World.ofTree detouredTree) [Utf8.encode "p"] ["smali"] ∧
        (detouredRun detour.1 detour.2.1 detour.2.2).1.result.success = true ∧
        (detouredRun detour.1 detour.2.1 detour.2.2).1.result.warnings = []) ∧
      (detouredRunBack "p/smali/a/../.." "res" "m").1.result.success = false ∧
      (detouredRunBack "p" "res" "smali/a/../../m").1.result.success = false ∧
      (detouredRunBack "p" "smali/a/../../res" "m").2.tree.mapFiles
          File.plain ≠ detouredTree.mapFiles File.plain ∧
      (remoteClassJob.FreshSetting (World.ofTree remoteClassTree)
          (Tree.farPlace ++ [Utf8.encode "p"]) ["s"] ∧
        (remoteClassJob.run .passive false
          (World.ofTree remoteClassTree)).1.result = .succeeded [] ⟨2, 1, 1, 1⟩ ∧
        (remoteClassJob.back.run .passive false (remoteClassJob.run .passive
          false (World.ofTree remoteClassTree)).2).1.result.success = false) ∧
      (privateJob.FreshSetting (World.ofTree privateTree) [Utf8.encode "p"]
          ["smali"] ∧
        (privateJob.run .passive false
          (World.ofTree privateTree)).1.result = .succeeded [] ⟨3, 0, 0, 1⟩ ∧
        (privateJob.back.run .passive false (privateJob.run .passive false
            (World.ofTree privateTree)).2).2.tree.mapFiles File.plain ≠
          privateTree.mapFiles File.plain) := by
  refine ⟨?_, by decide +kernel, by decide +kernel, fun same => ?_,
    ⟨remoteClassJob_fresh, by decide +kernel, by decide +kernel⟩,
    privateJob_fresh, by decide +kernel, fun same => ?_⟩
  · intro detour chosen
    refine ⟨detouredJob_fresh chosen, ?_⟩
    revert detour
    decide +kernel
  · have values := congrArg
      (fun tree : Tree => tree.node? (["p", "res", "v"].map Utf8.encode)) same
    revert values
    decide +kernel
  · have remade := congrArg
      (fun tree : Tree => tree.node? (["p", "smali", "a"].map Utf8.encode)) same
    revert remade
    decide +kernel

end Job

end PackageRename
