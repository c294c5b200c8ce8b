import PackageRename.Proofs.Declaration
import PackageRename.Proofs.Job.Setting
import PackageRename.Proofs.Tree.Deciding

/-!
# Declarations and directories

In a bytecode root that is well laid out every class file declares the class
that its path names.  A job keeps a package well laid out exactly when the old
name shows in the class paths only as the package that moves.
-/

namespace PackageRename

open Text

namespace File

variable {names : Renaming} {strategy : WriteStrategy}

theorem areAscii_inBytecode (sourceName : names.source.IsPackageName) :
    ∀ substitution ∈ names.inBytecode, substitution.IsAscii := by
  have nameAscii := sourceName.isAscii
  intro substitution member
  rcases Renaming.mem_inBytecode.mp member with isDescriptor | isName
  · rw [isDescriptor]
    refine ⟨?_, Renaming.descriptor_ne_empty names.source⟩
    intro character inDescriptor
    simp only [Identifier.descriptor, String.toList_ofList, List.mem_cons,
      Identifier.path, String.toList_map, List.mem_map] at inDescriptor
    rcases inDescriptor with isSigil | ⟨original, inName, isCharacter⟩
    · rw [isSigil]
      decide
    · rw [← isCharacter]
      split
      · decide
      · exact nameAscii original inName
  · rw [isName]
    exact ⟨nameAscii, sourceName.written⟩

/-- The file has gone through the exchange of the dotted names, any number of
times. -/
def IsExchanged (names : Renaming) (before after : File) : Prop :=
  ∃ earlier : List Substitution,
    (∀ substitution ∈ earlier, substitution ∈ names.inText) ∧
    after.contents =
      replaceAll (earlier.map Substitution.inBytes) before.contents

theorem IsExchanged.refl (names : Renaming) (file : File) :
    IsExchanged names file file :=
  ⟨[], nofun, rfl⟩

theorem IsExchanged.trans {first second third : File}
    (once : IsExchanged names first second)
    (again : IsExchanged names second third) :
    IsExchanged names first third := by
  obtain ⟨earlier, onlyNames, isSecond⟩ := once
  obtain ⟨later, alsoNames, isThird⟩ := again
  refine ⟨earlier ++ later, fun substitution member => ?_, ?_⟩
  · exact (List.mem_append.mp member).elim (onlyNames substitution)
      (alsoNames substitution)
  · rw [isThird, isSecond, List.map_append, replaceAll_append]

/-- A text stage exchanges the names or leaves the file as it is. -/
theorem isExchanged_revised (sourceName : names.source.IsPackageName)
    (strategy : WriteStrategy) (file : File) :
    IsExchanged names file (file.revised strategy names.inText) := by
  have areAscii : ∀ substitution ∈ names.inText, substitution.IsAscii := by
    intro substitution member
    rw [Renaming.mem_inText.mp member]
    exact ⟨sourceName.isAscii, sourceName.written⟩
  by_cases revisable : file.IsRevisable names.inText
  · exact ⟨names.inText, fun _ member => member,
      contents_revised_of_revisable areAscii revisable⟩
  · rw [revised_of_not_revisable revisable]
    exact .refl names file

/-- The bytecode stage comes on top. -/
theorem IsExchanged.contents_revised {before between : File}
    (isExchanged : IsExchanged names before between)
    (sourceName : names.source.IsPackageName)
    (revisable : between.IsRevisable names.inBytecode) :
    ∃ earlier : List Substitution,
      (∀ substitution ∈ earlier, substitution ∈ names.inText) ∧
      (between.revised strategy names.inBytecode).contents =
        replaceAll (names.exchanges earlier) before.contents := by
  obtain ⟨earlier, onlyNames, isBetween⟩ := isExchanged
  refine ⟨earlier, onlyNames, ?_⟩
  rw [contents_revised_of_revisable (areAscii_inBytecode sourceName) revisable,
    isBetween, Renaming.exchanges, List.map_append, replaceAll_append]

end File

namespace Tree

variable {tree revised : Tree} {place : Place} {change : File → File}
variable {part : Place → Prop} {before after : File}

/-- Every file in the bytecode root declares the class that its path names. -/
def IsWellLaidOut (tree : Tree) (place : Place) : Prop :=
  ∀ names file, tree.node? (place ++ names) = some (.file file) →
    Declares names file.contents

theorem HasRevised.exists_after (isRevised : tree.HasRevised change part revised)
    (isFile : tree.node? place = some (.file before)) :
    ∃ after, revised.node? place = some (.file after) ∧
      (after = before ∨ after = change before) := by
  by_cases isPart : part place
  · refine ⟨change before, ?_, .inr rfl⟩
    rw [isRevised.inside place isPart, isFile]
    rfl
  · refine ⟨before, ?_, .inl rfl⟩
    rw [isRevised.outside place isPart, isFile]

theorem HasRevised.exists_before
    (isRevised : tree.HasRevised change part revised)
    (isFile : revised.node? place = some (.file after)) :
    ∃ before, tree.node? place = some (.file before) ∧
      (after = before ∨ after = change before) := by
  by_cases isPart : part place
  · rw [isRevised.inside place isPart] at isFile
    obtain ⟨before, wasFile, isChanged⟩ := mapFile_eq_file.mp isFile
    exact ⟨before, wasFile, .inr isChanged⟩
  · rw [isRevised.outside place isPart] at isFile
    exact ⟨after, isFile, .inl rfl⟩

end Tree

namespace Job

variable {job : Job} {world : World} {home : Place} {roots : List String}

open PackageRename.Tree

/-- Every bytecode root of the package is well laid out. -/
def IsWellLaidOut (job : Job) (tree : Tree) : Prop :=
  ∀ home roots, tree.resolve job.root = .ok home →
    bytecodeRoots job.root job.options tree = .ok roots →
    ∀ name ∈ roots, tree.IsWellLaidOut (rootPlace home name)

/-- The old name shows in the class paths only as the package that moves. -/
def Spares (job : Job) (tree : Tree) (home : Place) (roots : List String) :
    Prop :=
  ∀ name ∈ roots, ∀ names file,
    tree.node? (rootPlace home name ++ names) = some (.file file) →
    ∀ stem, (Path.ofPieces names).bytes = stem ++ Utf8.encode ".smali" →
      job.names.Spares stem

/-- A package without links whose root is not looked up through its bytecode
roots, and a job between package names of words that can start on it. -/
structure WordSetting (job : Job) (world : World) (home : Place)
    (roots : List String) : Prop where
  free : world.tree.IsLinkFree
  legal : world.tree.HasLegalNames
  resolved : world.tree.resolve job.root = .ok home
  directory : world.tree.hasDirectory home = true
  found : bytecodeRoots job.root job.options world.tree = .ok roots
  sourceName : job.names.source.IsPackageName
  targetName : job.names.target.IsPackageName
  different : job.names.source ≠ job.names.target
  unclaimed : RootKey.of job.root world.tree ∉ world.held
  aside : ∀ passed, world.tree.Passes job.root passed → ∀ name ∈ roots,
    ¬ Inside (rootPlace home name) passed

namespace WordSetting

theorem leadsTo (setting : job.WordSetting world home roots) :
    world.tree.LeadsTo job.root home :=
  ⟨setting.free, setting.legal, setting.resolved, setting.directory⟩

theorem canStart (setting : job.WordSetting world home roots) :
    job.CanStart world home roots :=
  ⟨⟨setting.leadsTo,
      fun _ member =>
        (setting.leadsTo.of_mem_bytecodeRoots setting.found member).1,
      fun _ member =>
        (setting.leadsTo.of_mem_bytecodeRoots setting.found member).2,
      setting.aside⟩,
    setting.found, setting.sourceName.plain, setting.targetName.plain,
    setting.different, setting.unclaimed⟩

theorem isExchanged_of_or (setting : job.WordSetting world home roots)
    {before after : File} (revised : after = before ∨
      after = before.revised job.options.writeStrategy job.names.inText) :
    File.IsExchanged job.names before after := by
  rcases revised with same | isRevised
  · rw [same]
    exact .refl job.names before
  · rw [isRevised]
    exact File.isExchanged_revised setting.sourceName _ before

/-- The text stages leave a file where there was one. -/
theorem exists_between (setting : job.WordSetting world home roots)
    {place : Place} {before : File}
    (isFile : world.tree.node? place = some (.file before)) :
    ∃ between,
      (job.afterManifest world.tree).node? place = some (.file between) ∧
      File.IsExchanged job.names before between := by
  obtain ⟨resource, isResource, first⟩ :=
    (hasRevised_afterResources job setting.free setting.legal).exists_after
      isFile
  obtain ⟨manifest, isManifest, second⟩ :=
    (hasRevised_afterManifest job setting.free setting.legal).exists_after
      isResource
  exact ⟨manifest, isManifest,
    (setting.isExchanged_of_or first).trans (setting.isExchanged_of_or second)⟩

theorem exists_before (setting : job.WordSetting world home roots)
    {place : Place} {between : File}
    (isFile : (job.afterManifest world.tree).node? place =
      some (.file between)) :
    ∃ before, world.tree.node? place = some (.file before) ∧
      File.IsExchanged job.names before between := by
  obtain ⟨resource, isResource, second⟩ :=
    (hasRevised_afterManifest job setting.free setting.legal).exists_before
      isFile
  obtain ⟨before, wasFile, first⟩ :=
    (hasRevised_afterResources job setting.free setting.legal).exists_before
      isResource
  exact ⟨before, wasFile,
    (setting.isExchanged_of_or first).trans (setting.isExchanged_of_or second)⟩

end WordSetting

section Renamed

variable {after : Tree}
variable (setting : job.WordSetting world home roots)
variable (ready : job.IsReady world.tree home roots)
variable (isRenamed : (job.afterManifest world.tree).HasRenamed job.names
  job.options.writeStrategy home roots after)
variable (package : after.IsPackage job.root home roots)

include setting isRenamed package in
/-- The bytecode roots are the same afterwards. -/
theorem bytecodeRoots_renamed :
    bytecodeRoots job.root job.options after = .ok roots := by
  have first := hasRevised_afterResources job setting.free setting.legal
  have second := hasRevised_afterManifest job setting.free setting.legal
  have same : bytecodeRoots job.root job.options after =
      bytecodeRoots job.root job.options world.tree := by
    refine setting.leadsTo.bytecodeRoots_eq package.toLeadsTo fun entry => ?_
    by_cases isRoot : ∃ name ∈ roots, rootPlace home name <+: home ++ [entry]
    · obtain ⟨name, member, below⟩ := isRoot
      have isEntry : rootPlace home name = home ++ [entry] :=
        below.eq_of_length (by simp [rootPlace])
      rw [← isEntry, kind_of_hasDirectory (package.present name member),
        kind_of_hasDirectory
          (setting.canStart.isPackage.present name member)]
    · have outside : ∀ name ∈ roots, ¬ rootPlace home name <+:
          home ++ [entry] := fun name member below =>
        isRoot ⟨name, member, below⟩
      rw [isRenamed.outside _ outside, second.kind, first.kind]
  exact same.trans setting.found

include setting ready isRenamed in
/-- Each file afterwards comes from one before, and its contents from the
exchanges that this one has gone through. -/
theorem exists_declared {name : String} (member : name ∈ roots)
    {new : List Name} {file : File}
    (isFile : after.node? (rootPlace home name ++ new) = some (.file file)) :
    ∃ old before earlier,
      world.tree.node? (rootPlace home name ++ old) = some (.file before) ∧
      new = landing job.names.source.segments job.names.target.segments old ∧
      (∀ substitution ∈ earlier, substitution ∈ job.names.inText) ∧
      file.contents =
        replaceAll (job.names.exchanges earlier) before.contents := by
  have rootReady := ready.bytecode name member
  obtain ⟨old, between, isNew, wasFile, isRevised⟩ :=
    (renames_file_iff (isRenamed.inside name member) rootReady.movable).mp
      isFile
  obtain ⟨before, isBefore, isExchanged⟩ := setting.exists_before wasFile
  obtain ⟨earlier, onlyNames, isContents⟩ := isExchanged.contents_revised
    setting.sourceName (rootReady.sound.files old between wasFile).2.1
  refine ⟨old, before, earlier, isBefore, isNew, onlyNames, ?_⟩
  rw [isRevised, isContents]

include setting ready isRenamed in
theorem exists_landed {name : String} (member : name ∈ roots)
    {old : List Name} {before : File} (isFile : world.tree.node?
      (rootPlace home name ++ old) = some (.file before)) :
    ∃ file earlier,
      after.node? (rootPlace home name ++
        landing job.names.source.segments job.names.target.segments old) =
          some (.file file) ∧
      (∀ substitution ∈ earlier, substitution ∈ job.names.inText) ∧
      file.contents =
        replaceAll (job.names.exchanges earlier) before.contents := by
  have rootReady := ready.bytecode name member
  obtain ⟨between, isBetween, isExchanged⟩ := setting.exists_between isFile
  obtain ⟨earlier, onlyNames, isContents⟩ := isExchanged.contents_revised
    setting.sourceName (rootReady.sound.files old between isBetween).2.1
  refine ⟨between.revised job.options.writeStrategy job.names.inBytecode,
    earlier, ?_, onlyNames, isContents⟩
  exact (renames_file_iff (isRenamed.inside name member)
    rootReady.movable).mpr ⟨old, between, rfl, isBetween, rfl⟩

end Renamed

/-- A job that succeeds in a well laid out package leaves it well laid out
exactly when the old name shows in its class paths only as the package that
moves. -/
theorem isWellLaidOut_run_iff (setting : job.WordSetting world home roots)
    (laidOut : job.IsWellLaidOut world.tree)
    (success : (job.run .passive false world).1.result.success = true) :
    job.IsWellLaidOut (job.run .passive false world).2.tree ↔
      job.Spares world.tree home roots := by
  have can := setting.canStart
  have ready : job.IsReady world.tree home roots := by
    by_contra notReady
    have failed := can.not_success_of_not_ready notReady
    rw [success] at failed
    cases failed
  obtain ⟨after, succeeds, isRenamed, package⟩ := can.succeeds_of_ready ready
  rw [succeeds.tree]
  have declared := laidOut home roots setting.resolved setting.found
  have slashless : ∀ {name old file}, world.tree.node?
      (rootPlace home name ++ old) = some (.file file) →
      ∀ segment ∈ old, slash ∉ segment := fun isFile segment member =>
    (setting.legal _ (by rw [isFile]; rfl) segment
      (List.mem_append_right _ member)).plain.slashless
  constructor
  · intro stillLaidOut name member old before isFile stem isPath
    obtain ⟨otherStem, isOther, isDeclared⟩ :=
      declared name member old before isFile
    rw [isPath, List.append_cancel_right_eq] at isOther
    subst isOther
    obtain ⟨file, earlier, isLanded, onlyNames, isContents⟩ :=
      exists_landed setting ready isRenamed member isFile
    have declares := stillLaidOut home roots package.resolved
      (bytecodeRoots_renamed setting isRenamed package) name member _ file
      isLanded
    rw [isContents] at declares
    exact (Renaming.declares_landing_iff setting.sourceName setting.targetName
      onlyNames setting.different (slashless isFile) isPath isDeclared).mp
      declares
  · intro spares otherHome otherRoots resolved found name member new file isFile
    rw [package.resolved, Except.ok.injEq] at resolved
    rw [bytecodeRoots_renamed setting isRenamed package,
      Except.ok.injEq] at found
    subst resolved
    subst found
    obtain ⟨old, before, earlier, wasFile, isNew, onlyNames, isContents⟩ :=
      exists_declared setting ready isRenamed member isFile
    obtain ⟨stem, isPath, isDeclared⟩ :=
      declared name member old before wasFile
    rw [isContents, isNew]
    exact (Renaming.declares_landing_iff setting.sourceName setting.targetName
      onlyNames setting.different (slashless wasFile) isPath isDeclared).mpr
      (spares name member old before wasFile stem isPath)

/-! ### Deciding layouts -/

theorem isWellLaidOut_of_nodes {tree : Tree}
    (resolved : tree.resolve job.root = .ok home)
    (found : bytecodeRoots job.root job.options tree = .ok roots)
    (declared : ∀ name ∈ roots, ∀ entry ∈ tree.nodes,
      ∀ file ∈ entry.2.file?, rootPlace home name <+: entry.1 →
      Declares (entry.1.drop (rootPlace home name).length) file.contents) :
    job.IsWellLaidOut tree := by
  intro otherHome otherRoots otherResolved otherFound name member names file
    isFile
  rw [resolved, Except.ok.injEq] at otherResolved
  rw [found, Except.ok.injEq] at otherFound
  subst otherResolved
  subst otherFound
  have isDeclared := declared name member _
    (mem_nodes isFile (by simp [rootPlace])) file rfl (List.prefix_append _ _)
  rwa [List.drop_left] at isDeclared

theorem spares_of_nodes {tree : Tree}
    (spared : ∀ name ∈ roots, ∀ entry ∈ tree.nodes,
      entry.2.file?.isSome → rootPlace home name <+: entry.1 →
      job.names.Spares (classPath
        (entry.1.drop (rootPlace home name).length))) :
    job.Spares tree home roots := by
  intro name member names file isFile stem isPath
  have isSpared := spared name member _
    (mem_nodes isFile (by simp [rootPlace])) rfl (List.prefix_append _ _)
  rwa [List.drop_left, classPath_of_bytes isPath] at isSpared

/-- A package beside which nothing bears its name, in a job that moves it. -/
def agreeingTree : Tree :=
  .holding [("p/AndroidManifest.xml", "<manifest package=\"com.app\"/>"),
    ("p/smali/com/app/Main.smali", ".class public Lcom/app/Main;\n"),
    ("p/smali/org/Lib.smali", ".class public Lorg/Lib;\nLcom/app/Main;")]

/-- The same with a package beside it whose name goes on where its own ends. -/
def siblingTree : Tree :=
  .holding [("p/AndroidManifest.xml", "<manifest package=\"com.app\"/>"),
    ("p/smali/com/app/Main.smali", ".class public Lcom/app/Main;\n"),
    ("p/smali/com/appx/Other.smali", ".class public Lcom/appx/Other;\n")]

def cloningJob : Job :=
  .of (Path.ofString "p") "com.app" "org.clone" .standard

/-- The places that the lookup of the root comes through can be tried one by
one. -/
theorem aside_of_passed {tree : Tree}
    (aside : ∀ passed ∈ tree.passed job.root, ∀ name ∈ roots,
      ¬ Inside (rootPlace home name) passed) :
    ∀ passed, tree.Passes job.root passed → ∀ name ∈ roots,
      ¬ Inside (rootPlace home name) passed :=
  fun passed passes => aside passed (mem_passed passes)

theorem cloningJob_setting {tree : Tree}
    (chosen : tree ∈ [agreeingTree, siblingTree]) :
    cloningJob.WordSetting (World.ofTree tree) [Utf8.encode "p"]
      ["smali"] := by
  simp only [List.mem_cons, List.not_mem_nil, or_false] at chosen
  rcases chosen with rfl | rfl <;>
    refine ⟨isLinkFree_of_nodes ?_, hasLegalNames_of_nodes ?_, ?_, ?_, ?_, ?_,
      ?_, ?_, List.not_mem_nil, aside_of_passed ?_⟩ <;>
    decide +kernel

theorem cloningJob_isWellLaidOut {tree : Tree}
    (chosen : tree ∈ [agreeingTree, siblingTree]) :
    cloningJob.IsWellLaidOut tree := by
  have setting := cloningJob_setting chosen
  refine isWellLaidOut_of_nodes setting.resolved setting.found ?_
  clear setting
  revert tree
  decide +kernel

theorem isWellLaidOut_run_agreeing :
    cloningJob.IsWellLaidOut
      (cloningJob.run .passive false (World.ofTree agreeingTree)).2.tree := by
  refine (isWellLaidOut_run_iff (cloningJob_setting List.mem_cons_self)
    (cloningJob_isWellLaidOut List.mem_cons_self) ?_).mpr (spares_of_nodes ?_)
  · decide +kernel
  · decide +kernel

/-- A package whose name goes on where the old name ends is declared anew, but
its directory stays where it is. -/
theorem not_isWellLaidOut_run_sibling :
    cloningJob.WordSetting (World.ofTree siblingTree) [Utf8.encode "p"]
        ["smali"] ∧
      cloningJob.IsWellLaidOut siblingTree ∧
      (cloningJob.run .passive false
        (World.ofTree siblingTree)).1.result.success = true ∧
      ¬ cloningJob.IsWellLaidOut (cloningJob.run .passive false
        (World.ofTree siblingTree)).2.tree := by
  have chosen : siblingTree ∈ [agreeingTree, siblingTree] :=
    List.mem_cons_of_mem _ List.mem_cons_self
  refine ⟨cloningJob_setting chosen, cloningJob_isWellLaidOut chosen,
    by decide +kernel, fun laidOut => ?_⟩
  have declares := laidOut [Utf8.encode "p"] ["smali"] (by decide +kernel)
    (by decide +kernel) "smali" List.mem_cons_self
    (["com", "appx", "Other.smali"].map Utf8.encode)
    ⟨Utf8.encode ".class public Lorg/clonex/Other;\n", 0o644, none, true⟩
    (by decide +kernel)
  revert declares
  decide +kernel

end Job

end PackageRename
