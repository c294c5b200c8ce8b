import Mathlib.Data.Option.Basic
import PackageRename.Job.Run
import PackageRename.Proofs.Job.Bytecode

/-!
# Renaming a whole package

The resource and manifest stages revise files, and the bytecode roots are
renamed one after the other.  What the job makes of the tree is put together
from what each stage makes of it.
-/

namespace PackageRename

namespace Tree

variable {tree other : Tree} {root : Path} {home : Place}
variable {options : Options} {roots : List String} {name : String}

/-! ### The bytecode roots of a package -/

/-- The place of a bytecode root. -/
def rootPlace (home : Place) (name : String) : Place :=
  home ++ [Utf8.encode name]

/-- Which roots there are does not depend on files. -/
theorem bytecodeRoots_of_layout (same : tree.layout = other.layout)
    (root : Path) (options : Options) :
    bytecodeRoots root options tree = bytecodeRoots root options other := by
  refine eq_of_layout (bytecodeRoots root options) ?_ same
  intro tree change
  simp only [bytecodeRoots, list_mapFiles, isDirectory_mapFiles]

theorem join_ofString (root : Path) (name : String) :
    root.join (Path.ofString name) = root.below [Utf8.encode name] := rfl

/-- The name of a bytecode root, if an entry of the package root is one. -/
def rootName? (tree : Tree) (root : Path) (options : Options) (entry : Name) :
    Option String := do
  guard (tree.isDirectory (root.join ⟨entry⟩))
  let text ← Path.text? ⟨entry⟩
  guard (options.isBytecodeRoot text)
  return text

theorem rootName?_eq_some {entry : Name} :
    tree.rootName? root options entry = some name ↔
      tree.isDirectory (root.join ⟨entry⟩) = true ∧
        Utf8.encode name = entry ∧ options.isBytecodeRoot name = true := by
  rw [rootName?]
  cases tree.isDirectory (root.join ⟨entry⟩) with
  | false => simp [failure]
  | true =>
      cases isText : Path.text? ⟨entry⟩ with
      | none =>
          simp only [guard_true, Option.pure_def, Option.bind_eq_bind,
            Option.bind_some, Option.bind_none, reduceCtorEq, true_and,
            false_iff, not_and]
          intro same
          have decoded := Path.text?_ofString name
          rw [Path.ofString, same, isText] at decoded
          cases decoded
      | some text =>
          have isBytes : Utf8.encode text = entry :=
            congrArg Path.bytes (Path.ofString_of_text? isText)
          constructor
          · intro found
            cases isRoot : options.isBytecodeRoot text with
            | false => simp [isRoot, failure] at found
            | true =>
                simp only [isRoot, guard_true, Option.pure_def,
                  Option.bind_eq_bind, Option.bind_some,
                  Option.some.injEq] at found
                subst found
                exact ⟨rfl, isBytes, isRoot⟩
          · rintro ⟨-, same, isRoot⟩
            have isName : text = name :=
              Utf8.encode_injective (isBytes.trans same.symm)
            simp [isName, isRoot]

theorem LeadsTo.bytecodeRoots (leads : tree.LeadsTo root home) :
    bytecodeRoots root options tree = .ok ((tree.childrenOf home).filterMap
      fun child => tree.rootName? root options child.1) := by
  have fits : (root.below []).bytes.length ≤ pathLimit := leads.fits
  have directory : tree.hasDirectory (home ++ []) = true := by
    rw [List.append_nil]
    exact leads.directory
  have listed := leads.list fits directory
  rw [Path.below_nil, List.append_nil] at listed
  rw [PackageRename.bytecodeRoots, listed]
  simp only [bind, Except.bind, pure, Except.pure, List.filterMap_map]
  rfl

/-- What is known of each bytecode root. -/
theorem LeadsTo.of_mem_bytecodeRoots (leads : tree.LeadsTo root home)
    (found : PackageRename.bytecodeRoots root options tree = .ok roots)
    (member : name ∈ roots) :
    tree.hasDirectory (rootPlace home name) = true ∧
      (root.join (Path.ofString name)).bytes.length ≤ pathLimit := by
  rw [leads.bytecodeRoots, Except.ok.injEq] at found
  rw [← found] at member
  obtain ⟨⟨entry, node⟩, isChild, isName⟩ := List.mem_filterMap.mp member
  obtain ⟨isDirectory, isBytes, -⟩ := rootName?_eq_some.mp isName
  have isNode := mem_childrenOf.mp isChild
  have plain : Path.ArePlain [entry] :=
    leads.plain_names (by rw [isNode]; rfl)
  obtain ⟨fits, directory⟩ := (leads.isDirectory plain).mp isDirectory
  rw [rootPlace, join_ofString, isBytes]
  exact ⟨directory, fits⟩

theorem LeadsTo.nodup_bytecodeRoots (leads : tree.LeadsTo root home)
    (found : PackageRename.bytecodeRoots root options tree = .ok roots) :
    roots.Nodup := by
  rw [leads.bytecodeRoots, Except.ok.injEq] at found
  rw [← found]
  have distinct := List.pairwise_map.mp
    (nodup_childrenOf tree home)
  refine List.Pairwise.filterMap _ ?_ distinct
  intro first second different name isFirst other isSecond same
  apply different
  rw [← (rootName?_eq_some.mp isFirst).2.1,
    ← (rootName?_eq_some.mp isSecond).2.1, same]

/-- Trees with the same entries in the package root have the same bytecode
roots. -/
theorem LeadsTo.bytecodeRoots_eq (leads : tree.LeadsTo root home)
    (otherLeads : other.LeadsTo root home)
    (same : ∀ entry, (other.node? (home ++ [entry])).map Node.kind =
      (tree.node? (home ++ [entry])).map Node.kind) :
    PackageRename.bytecodeRoots root options other =
      PackageRename.bytecodeRoots root options tree := by
  have sameNames : (other.childrenOf home).map Prod.fst =
      (tree.childrenOf home).map Prod.fst := by
    refine names_childrenOf_eq fun entry => ?_
    rw [isSome_eq_kind, isSome_eq_kind, same]
  have overNames : ∀ searched : Tree, ((searched.childrenOf home).filterMap
      fun child => searched.rootName? root options child.1) =
      ((searched.childrenOf home).map Prod.fst).filterMap
        (searched.rootName? root options) := fun searched => by
    rw [List.filterMap_map]
    rfl
  rw [leads.bytecodeRoots, otherLeads.bytecodeRoots, overNames, overNames,
    sameNames]
  congr 1
  refine List.filterMap_congr fun entry member => ?_
  have plain : Path.ArePlain [entry] :=
    leads.plain_names (mem_names_childrenOf.mp member)
  have isDirectory : other.isDirectory (root.below [entry]) =
      tree.isDirectory (root.below [entry]) := by
    rw [Bool.eq_iff_iff, leads.isDirectory plain, otherLeads.isDirectory plain,
      hasDirectory_eq_kind, hasDirectory_eq_kind, same]
  change other.isDirectory (root.join ⟨entry⟩) =
    tree.isDirectory (root.join ⟨entry⟩) at isDirectory
  rw [rootName?, rootName?, isDirectory]

/-! ### Packages that stay in place -/

/-- The path leads to the package, the bytecode roots are directories in it, and
the lookup does not come through what lies inside them. -/
structure IsPackage (tree : Tree) (root : Path) (home : Place)
    (roots : List String) : Prop extends LeadsTo tree root home where
  present : ∀ name ∈ roots, tree.hasDirectory (rootPlace home name) = true
  rootFits : ∀ name ∈ roots,
    (root.join (Path.ofString name)).bytes.length ≤ pathLimit
  aside : ∀ passed, tree.Passes root passed → ∀ name ∈ roots,
    ¬ Inside (rootPlace home name) passed

namespace IsPackage

theorem isBase (isPackage : tree.IsPackage root home roots)
    (member : name ∈ roots) :
    tree.IsBase (root.join (Path.ofString name)) (rootPlace home name) :=
  @LeadsTo.below tree home root isPackage.toLeadsTo [Utf8.encode name]
    (isPackage.rootFits name member) (isPackage.present name member)
    fun passed passes => isPackage.aside passed passes name member

/-- A package stays in place while only the insides of bytecode roots
change. -/
theorem transfer (isPackage : tree.IsPackage root home roots)
    (free : other.IsLinkFree) (legal : other.HasLegalNames)
    (origin : other.origin = tree.origin)
    (same : SameKinds
      (fun inner => ∃ name ∈ roots, Inside (rootPlace home name) inner) tree
      other) : other.IsPackage root home roots := by
  have avoids : ∀ passed, tree.Passes root passed →
      ¬ ∃ name ∈ roots, Inside (rootPlace home name) passed := by
    rintro passed passes ⟨name, member, inside⟩
    exact isPackage.aside passed passes name member inside
  obtain ⟨resolved, passes⟩ := same.resolve isPackage.free free origin avoids
    isPackage.resolved
  obtain ⟨checked, present, entered⟩ :=
    (resolve_eq_ok isPackage.free).mp isPackage.resolved
  have arrives : tree.Passes root home :=
    (passes_iff isPackage.free present).mpr
      ⟨root.pieces, List.prefix_refl _, entered⟩
  refine ⟨⟨free, legal, resolved, ?_⟩, ?_, isPackage.rootFits, ?_⟩
  · rw [same.hasDirectory (avoids home arrives)]
    exact isPackage.directory
  · intro name member
    rw [same.hasDirectory]
    · exact isPackage.present name member
    · -- A root does not lie inside another, which is its sibling.
      rintro ⟨sibling, -, inside⟩
      have equal := inside.1.eq_of_length (by simp [rootPlace])
      exact inside.2 equal.symm
  · exact fun passed isPassed => isPackage.aside passed (passes passed isPassed)

end IsPackage

/-- The tree with the package renamed in some bytecode roots and all else as it
was. -/
structure HasRenamed (names : Renaming) (strategy : WriteStrategy)
    (home : Place) (roots : List String) (tree renamed : Tree) : Prop where
  origin : renamed.origin = tree.origin
  inside : ∀ name ∈ roots,
    View.Renames names.source.segments names.target.segments
      (File.revised strategy names.inBytecode)
      (tree.view (rootPlace home name)) (renamed.view (rootPlace home name))
  outside : ∀ other, (∀ name ∈ roots, ¬ rootPlace home name <+: other) →
    renamed.node? other = tree.node? other

theorem apart_rootPlace {first second : String} (different : first ≠ second) :
    Apart (rootPlace home first) (rootPlace home second) := by
  rw [rootPlace, rootPlace, Apart.append_left]
  have unequal : Utf8.encode first ≠ Utf8.encode second :=
    fun same => different (Utf8.encode_injective same)
  constructor
  · rintro ⟨rest, same⟩
    rw [List.singleton_append, List.cons.injEq] at same
    exact unequal same.1
  · rintro ⟨rest, same⟩
    rw [List.singleton_append, List.cons.injEq] at same
    exact unequal same.1.symm

end Tree

namespace JobM

variable {context : JobContext} {names : Renaming} {before : Tree}
variable {home : Place} {roots : List String}

section Stage

variable (quiet : context.observer = .passive)
variable (sourcePlain : names.source.HasPlainSegments)
variable (targetPlain : names.target.HasPlainSegments)
variable (different : names.source ≠ names.target)

open PackageRename.Tree

include quiet sourcePlain targetPlain different

/-- Renaming one root leaves the package in its place. -/
theorem completes_updateRootOf
    (isPackage : before.IsPackage context.root home roots) {name : String}
    (isRoot : name ∈ roots)
    (ready : before.IsReady (context.root.join (Path.ofString name))
      (rootPlace home name) names context.options.writeStrategy) :
    ∃ after, Completes (updateBytecodeRoot context names name) before after
        True ∧
      before.HasRenamed names context.options.writeStrategy home [name] after ∧
      after.IsPackage context.root home roots := by
  have isBase := isPackage.isBase isRoot
  obtain ⟨after, completes, origin, isRenamed, outside, afterBase⟩ :=
    completes_updateBytecodeRoot quiet isBase sourcePlain targetPlain different
      ready
  refine ⟨after, completes, ⟨origin, by simpa using isRenamed, by simpa using
    outside⟩, isPackage.transfer afterBase.free afterBase.legal origin ?_⟩
  intro inner seen
  by_cases below : rootPlace home name <+: inner
  · have atRoot : inner = rootPlace home name := by
      apply Classical.byContradiction
      exact fun elsewhere => seen ⟨name, isRoot, below, elsewhere⟩
    rw [atRoot, kind_of_hasDirectory afterBase.directory,
      kind_of_hasDirectory isBase.directory]
  · rw [outside inner below]

/-- The bytecode stage renames every root if all are ready, and changes nothing
else. -/
theorem completes_updateBytecode
    (isPackage : before.IsPackage context.root home roots)
    {rest : List String} (chosen : ∀ name ∈ rest, name ∈ roots)
    (nodup : rest.Nodup)
    (ready : ∀ name ∈ rest, before.IsReady
      (context.root.join (Path.ofString name)) (rootPlace home name) names
      context.options.writeStrategy) :
    ∃ after, Completes (updateBytecode context names rest) before after True ∧
      before.HasRenamed names context.options.writeStrategy home rest after ∧
      after.IsPackage context.root home roots := by
  induction rest generalizing before with
  | nil =>
      exact ⟨before, completes_pure (), ⟨rfl, by simp, fun _ _ => rfl⟩,
        isPackage⟩
  | cons name others induction =>
      obtain ⟨notAgain, othersNodup⟩ := List.nodup_cons.mp nodup
      obtain ⟨between, completes, first, betweenPackage⟩ :=
        completes_updateRootOf quiet sourcePlain targetPlain different isPackage
          (chosen name List.mem_cons_self) (ready name List.mem_cons_self)
      have unequal : ∀ other ∈ others, other ≠ name :=
        fun other member same => notAgain (same ▸ member)
      have isBase_of : ∀ {tree : Tree}, tree.IsPackage context.root home roots →
          ∀ other ∈ others, tree.IsBase
            (context.root.join (Path.ofString other)) (rootPlace home other) :=
        fun isPackage other member =>
          isPackage.isBase (chosen other (List.mem_cons_of_mem _ member))
      have sameView : ∀ other ∈ others,
          between.view (rootPlace home other) =
            before.view (rootPlace home other) := by
        intro other member
        funext inner
        refine first.outside _ fun sibling isSibling => ?_
        rw [List.mem_singleton.mp isSibling]
        exact (apart_rootPlace (unequal other member)).symm.not_prefix_append
      obtain ⟨after, goesOn, later, afterPackage⟩ :=
        induction betweenPackage
          (fun other member => chosen other (List.mem_cons_of_mem _ member))
          othersNodup fun other member =>
            (ready other (List.mem_cons_of_mem _ member)).of_view
              (isBase_of isPackage other member).toLeadsTo
              (isBase_of betweenPackage other member).toLeadsTo first.origin
              (sameView other member)
      refine ⟨after, completes.clean_bind fun _ => goesOn,
        ⟨later.origin.trans first.origin, ?_, ?_⟩, afterPackage⟩
      · intro other member
        rcases List.mem_cons.mp member with isFirst | isLater
        · subst isFirst
          have afterView : after.view (rootPlace home other) =
              between.view (rootPlace home other) := by
            funext inner
            apply later.outside
            intro sibling isSibling
            exact (apart_rootPlace
              (unequal sibling isSibling)).not_prefix_append
          rw [afterView]
          exact first.inside other (List.mem_singleton_self other)
        · rw [← sameView other isLater]
          exact later.inside other isLater
      · intro other elsewhere
        rw [later.outside other fun sibling isSibling =>
          elsewhere sibling (List.mem_cons_of_mem _ isSibling)]
        exact first.outside other fun sibling isSibling =>
          elsewhere sibling (List.mem_cons.mpr
            (.inl (List.mem_singleton.mp isSibling)))

/-- The bytecode stage fails if a root is not ready. -/
theorem fails_updateBytecode
    (isPackage : before.IsPackage context.root home roots)
    {rest : List String} (chosen : ∀ name ∈ rest, name ∈ roots)
    (nodup : rest.Nodup)
    (notReady : ¬ ∀ name ∈ rest, before.IsReady
      (context.root.join (Path.ofString name)) (rootPlace home name) names
      context.options.writeStrategy) :
    Fails (updateBytecode context names rest) before := by
  induction rest generalizing before with
  | nil => exact absurd (by simp) notReady
  | cons name others induction =>
      obtain ⟨notAgain, othersNodup⟩ := List.nodup_cons.mp nodup
      have isRoot := chosen name List.mem_cons_self
      by_cases ready : before.IsReady
          (context.root.join (Path.ofString name)) (rootPlace home name) names
          context.options.writeStrategy
      · obtain ⟨between, completes, first, betweenPackage⟩ :=
          completes_updateRootOf quiet sourcePlain targetPlain different
            isPackage isRoot ready
        refine completes.bind_fails fun _ => induction betweenPackage
          (fun other member => chosen other (List.mem_cons_of_mem _ member))
          othersNodup fun allReady => notReady ?_
        rw [List.forall_mem_cons]
        refine ⟨ready, fun other member => ?_⟩
        have isOther := chosen other (List.mem_cons_of_mem _ member)
        refine (allReady other member).of_view
          (betweenPackage.isBase isOther).toLeadsTo
          (isPackage.isBase isOther).toLeadsTo first.origin.symm ?_
        have unequal : other ≠ name := fun same => notAgain (same ▸ member)
        funext inner
        refine (first.outside _ fun sibling isSibling => ?_).symm
        rw [List.mem_singleton.mp isSibling]
        exact (apart_rootPlace unequal).symm.not_prefix_append
      · exact (fails_updateBytecodeRoot quiet (isPackage.isBase isRoot)
          sourcePlain targetPlain different ready).bind _

end Stage

end JobM

namespace Job

variable {job : Job} {tree : Tree} {home : Place} {roots : List String}

open PackageRename.Tree

/-! ### The stages of a job as changes of a tree -/

def resourcePath (job : Job) : Path :=
  job.root.join (Path.ofString job.options.resourceDirectory)

def manifestPath (job : Job) : Path :=
  job.root.join (Path.ofString job.options.manifestFile)

def bytecodePath (job : Job) (name : String) : Path :=
  job.root.join (Path.ofString name)

/-- The tree after the resource stage. -/
def afterResources (job : Job) (tree : Tree) : Tree :=
  if tree.isDirectory job.resourcePath then
    (tree.visits job.resourcePath).foldl
      (settle job.names.inText job.options.writeStrategy) tree
  else tree

/-- The tree after the manifest stage. -/
def afterManifest (job : Job) (tree : Tree) : Tree :=
  (updateFile job.manifestPath job.names.inText job.options.writeStrategy
    (job.afterResources tree)).tree

/-- The place is one of the resources that a path can be followed to, and can
be written. -/
def IsResource (job : Job) (tree : Tree) (place : Place) : Prop :=
  ∃ directory, tree.resolve job.resourcePath = .ok directory ∧
    tree.hasDirectory directory = true ∧
    tree.Reachable job.options.writeStrategy job.resourcePath directory place

/-- The place is the one of the manifest, which can be written. -/
def IsManifest (job : Job) (tree : Tree) (place : Place) : Prop :=
  tree.resolve job.manifestPath = .ok place ∧
    tree.CanWrite job.options.writeStrategy job.manifestPath

theorem leadsTo_of_isDirectory {path : Path} (free : tree.IsLinkFree)
    (legal : tree.HasLegalNames) (isDirectory : tree.isDirectory path = true) :
    ∃ place, tree.LeadsTo path place := by
  rw [Tree.isDirectory] at isDirectory
  split at isDirectory
  · rename_i place resolved
    exact ⟨place, free, legal, resolved, isDirectory⟩
  · cases isDirectory

/-- The resource stage revises the resources. -/
theorem hasRevised_afterResources (job : Job) (free : tree.IsLinkFree)
    (legal : tree.HasLegalNames) :
    tree.HasRevised
      (File.revised job.options.writeStrategy job.names.inText)
      (job.IsResource tree) (job.afterResources tree) := by
  rw [afterResources]
  split
  · rename_i isDirectory
    obtain ⟨directory, leads⟩ := leadsTo_of_isDirectory free legal isDirectory
    refine leads.hasRevised_visits.congr fun place file _ => ?_
    constructor
    · exact fun reachable =>
        ⟨directory, leads.resolved, leads.directory, reachable⟩
    · rintro ⟨other, resolved, -, reachable⟩
      rw [leads.resolved] at resolved
      cases resolved
      exact reachable
  · rename_i noDirectory
    refine (HasRevised.refl _ tree).congr fun place file _ => ?_
    constructor
    · exact False.elim
    · rintro ⟨directory, resolved, present, -⟩
      apply noDirectory
      rw [Tree.isDirectory, resolved]
      exact present

/-- The manifest stage revises the manifest. -/
theorem hasRevised_afterManifest (job : Job) (free : tree.IsLinkFree)
    (legal : tree.HasLegalNames) :
    (job.afterResources tree).HasRevised
      (File.revised job.options.writeStrategy job.names.inText)
      (job.IsManifest tree) (job.afterManifest tree) := by
  have first := hasRevised_afterResources job free legal
  have isPlace := resolve_of_layout first.layout job.manifestPath
  have firstFree := first.isLinkFree (fun _ => File.share_revised) free
  rw [afterManifest]
  cases found : (job.afterResources tree).fileAt job.manifestPath with
  | error fault =>
      rw [updateFile_of_missing found]
      refine (HasRevised.refl _ _).congr fun place file isFile => ?_
      constructor
      · exact False.elim
      · intro isManifest
        rw [fileAt_eq_ok.mpr ⟨isPlace.trans isManifest.1, isFile⟩] at found
        cases found
  | ok at_ =>
      obtain ⟨manifest, file⟩ := at_
      have resolved := (fileAt_eq_ok.mp found).1
      refine (hasRevised_updateFile firstFree found).congr fun place _ _ => ?_
      rw [IsManifest, ← isPlace, resolved, Except.ok.injEq, eq_comm,
        canWrite_of_layout first.layout]

theorem isPackage_of_hasRevised {change : File → File} {part : Place → Prop}
    {revised : Tree} {root : Path}
    (isRevised : tree.HasRevised change part revised)
    (keepsShare : ∀ file, (change file).share = file.share ∨
      (change file).share = none)
    (isPackage : tree.IsPackage root home roots) :
    revised.IsPackage root home roots :=
  isPackage.transfer (isRevised.isLinkFree keepsShare isPackage.free)
    (isRevised.hasLegalNames isPackage.legal) isRevised.origin
    (isRevised.sameKinds _)

theorem isPackage_afterManifest
    (isPackage : tree.IsPackage job.root home roots) :
    (job.afterManifest tree).IsPackage job.root home roots := by
  have first := hasRevised_afterResources job isPackage.free isPackage.legal
  have second := hasRevised_afterManifest job isPackage.free isPackage.legal
  exact isPackage_of_hasRevised second (fun _ => File.share_revised)
    (isPackage_of_hasRevised first (fun _ => File.share_revised) isPackage)

/-! ### The whole job -/

/-- Everything that has to be in order before the first stage. -/
structure CanStart (job : Job) (world : World) (home : Place)
    (roots : List String) : Prop where
  isPackage : world.tree.IsPackage job.root home roots
  found : bytecodeRoots job.root job.options world.tree = .ok roots
  sourcePlain : job.names.source.HasPlainSegments
  targetPlain : job.names.target.HasPlainSegments
  different : job.names.source ≠ job.names.target
  unclaimed : RootKey.of job.root world.tree ∉ world.held

theorem not_isEmpty_of_plain {identifier : Identifier}
    (plain : identifier.HasPlainSegments) : identifier.isEmpty = false := by
  rw [Identifier.isEmpty, decide_eq_false_iff_not]
  intro unnamed
  have isSegment : ([] : Name) ∈ identifier.segments := by
    rw [Identifier.segments, unnamed]
    decide
  exact (plain [] isSegment).nonempty rfl

variable {world : World}

theorem CanStart.run_eq (can : job.CanStart world home roots)
    (observer : Observer) (cancelled : Bool) :
    ∃ claimed : World, claimed.tree = world.tree ∧
      (job.run observer cancelled world).1 =
        (job.runStages observer cancelled roots claimed).1 ∧
      (job.run observer cancelled world).2.tree =
        (job.runStages observer cancelled roots claimed).2.tree := by
  have unnamed : (job.names.source.isEmpty || job.names.target.isEmpty) =
      false := by
    rw [not_isEmpty_of_plain can.sourcePlain,
      not_isEmpty_of_plain can.targetPlain]
    rfl
  rw [run]
  generalize isNoted : world.note .info _ = noted
  have sameTree : noted.tree = world.tree := by
    rw [← isNoted]
    rfl
  have sameHeld : noted.held = world.held := by
    rw [← isNoted]
    rfl
  have acquired : noted.acquire? (RootKey.of job.root noted.tree) =
      some { noted with
        held := RootKey.of job.root world.tree :: world.held } := by
    rw [World.acquire?, sameTree, sameHeld, if_neg can.unclaimed]
  have found : bytecodeRoots job.root job.options noted.tree = .ok roots := by
    rw [sameTree]
    exact can.found
  refine ⟨{ noted with held := RootKey.of job.root world.tree :: world.held },
    sameTree, ?_⟩
  simp only [unnamed, Bool.false_eq_true, ↓reduceIte, if_neg can.different,
    acquired, runClaimed, found]
  exact ⟨trivial, rfl⟩

/-- What a job that nobody disturbs comes to. -/
structure Succeeds (job : Job) (world : World) (after : Tree)
    (clean : Prop) : Prop where
  success : (job.run .passive false world).1.result.success = true
  tree : (job.run .passive false world).2.tree = after
  warnings : (job.run .passive false world).1.result.warnings = [] ↔ clean

theorem CanStart.succeeds (can : job.CanStart world home roots) {after : Tree}
    {clean : Prop}
    (completes : JobM.Completes
      (JobM.updatePackage (job.context .passive) job.names roots) world.tree
      after clean) : job.Succeeds world after clean := by
  obtain ⟨claimed, sameTree, isReport, isTree⟩ := can.run_eq .passive false
  obtain ⟨value, reached, isRun, -, isAfter, warned⟩ :=
    completes (.initial claimed false) rfl sameTree
  have isStages : job.runStages .passive false roots claimed =
      (⟨.succeeded reached.warnings reached.stats, reached.events,
          reached.nested⟩,
        reached.world.note .info
          (JobResult.succeeded reached.warnings reached.stats).display) := by
    rw [runStages, isRun]
  rw [isStages] at isReport isTree
  refine ⟨?_, ?_, ?_⟩
  · rw [isReport]
    rfl
  · rw [isTree]
    exact isAfter
  · rw [isReport]
    simpa [JobState.initial, JobResult.succeeded] using warned

theorem CanStart.not_success (can : job.CanStart world home roots)
    (fails : JobM.Fails
      (JobM.updatePackage (job.context .passive) job.names roots)
      world.tree) :
    (job.run .passive false world).1.result.success = false := by
  obtain ⟨claimed, sameTree, isReport, -⟩ := can.run_eq .passive false
  obtain ⟨reason, reached, isRun⟩ :=
    fails (.initial claimed false) rfl sameTree
  have isStages : (job.runStages .passive false roots claimed).1 =
      ⟨.failed reason reached.warnings reached.stats, reached.events,
        reached.nested⟩ := by
    rw [runStages, isRun]
  rw [isReport, isStages]
  rfl

/-- Whether the resource stage has nothing to complain about. -/
def CleanResources (job : Job) (tree : Tree) : Prop :=
  tree.isDirectory job.resourcePath = true →
    SettlesAll job.names.inText job.options.writeStrategy tree
      (tree.visits job.resourcePath)

/-- Whether the manifest and all bytecode roots can be updated when their time
has come. -/
structure IsReady (job : Job) (tree : Tree) (home : Place)
    (roots : List String) : Prop where
  manifest : (updateFile job.manifestPath job.names.inText
    job.options.writeStrategy (job.afterResources tree)).answer.isOk = true
  bytecode : ∀ name ∈ roots, (job.afterManifest tree).IsReady
    (job.bytecodePath name) (rootPlace home name) job.names
    job.options.writeStrategy

/-- A job that is ready succeeds: it renames every bytecode root as the text
stages leave it, and changes nothing else. -/
theorem CanStart.succeeds_of_ready (can : job.CanStart world home roots)
    (ready : job.IsReady world.tree home roots) :
    ∃ after, job.Succeeds world after (job.CleanResources world.tree) ∧
      (job.afterManifest world.tree).HasRenamed job.names
        job.options.writeStrategy home roots after ∧
      after.IsPackage job.root home roots := by
  have quiet : (job.context .passive).observer = .passive := rfl
  obtain ⟨after, completes, isRenamed, afterPackage⟩ :=
    JobM.completes_updateBytecode quiet
      can.sourcePlain can.targetPlain can.different
      (isPackage_afterManifest can.isPackage) (fun _ member => member)
      (can.isPackage.toLeadsTo.nodup_bytecodeRoots can.found)
      ready.bytecode
  refine ⟨after, can.succeeds ?_, isRenamed, afterPackage⟩
  unfold JobM.updatePackage
  have resources := JobM.completes_updateResources quiet job.names
    job.resourcePath world.tree
  have manifest := JobM.completes_updateManifest quiet ready.manifest
  refine (resources.bind fun _ => manifest.clean_bind fun _ => completes).congr ?_
  rw [and_true]
  exact Iff.rfl

/-- A job that is not ready fails. -/
theorem CanStart.not_success_of_not_ready
    (can : job.CanStart world home roots)
    (notReady : ¬ job.IsReady world.tree home roots) :
    (job.run .passive false world).1.result.success = false := by
  have quiet : (job.context .passive).observer = .passive := rfl
  apply can.not_success
  unfold JobM.updatePackage
  have resources := JobM.completes_updateResources quiet job.names
    job.resourcePath world.tree
  refine resources.bind_fails fun _ => ?_
  cases manifest : (updateFile job.manifestPath job.names.inText
      job.options.writeStrategy
      (job.afterResources world.tree)).answer.isOk with
  | false => exact (JobM.fails_updateManifest quiet manifest).bind _
  | true =>
      refine (JobM.completes_updateManifest quiet manifest).bind_fails
        fun _ => ?_
      exact JobM.fails_updateBytecode quiet can.sourcePlain can.targetPlain
        can.different (isPackage_afterManifest can.isPackage)
        (fun _ member => member)
        (can.isPackage.toLeadsTo.nodup_bytecodeRoots can.found)
        fun bytecode => notReady ⟨manifest, bytecode⟩

end Job

end PackageRename
