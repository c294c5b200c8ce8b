import PackageRename.Proofs.FileUpdate
import PackageRename.Proofs.Tree.Visits

/-!
# Updating what a walk visits

Updating one file after the other, as a walk visits them, revises each file that
has a path that can be followed exactly once, if it can be written.  Whether an
update fails does not depend on the updates before it.
-/

namespace PackageRename

namespace Tree

variable {tree : Tree} {base : Path} {place : Place}
variable {strategy : WriteStrategy} {substitutions : List Substitution}

/-- The tree after something visited has been updated, if it is a file. -/
def settle (substitutions : List Substitution) (strategy : WriteStrategy)
    (tree : Tree) : Visited → Tree
  | .directory _ => tree
  | .file path => (updateFile path substitutions strategy tree).tree
  | .failure _ _ => tree

/-- Whether something visited gives no reason to complain. -/
def Settles (substitutions : List Substitution) (strategy : WriteStrategy)
    (tree : Tree) : Visited → Prop
  | .directory _ => True
  | .file path =>
      (updateFile path substitutions strategy tree).answer.isOk = true
  | .failure _ _ => False

/-- Whether nothing in a list gives reason to complain when its time has
come. -/
def SettlesAll (substitutions : List Substitution) (strategy : WriteStrategy) :
    Tree → List Visited → Prop
  | _, [] => True
  | tree, visited :: rest =>
      Settles substitutions strategy tree visited ∧
        SettlesAll substitutions strategy
          (tree.settle substitutions strategy visited) rest

/-! ### One update -/

theorem layout_updateFile (path : Path) :
    (updateFile path substitutions strategy tree).tree.layout = tree.layout := by
  have exit := updateFile_exits path substitutions strategy tree
  generalize isFound : tree.fileAt path = found at exit
  generalize updateFile path substitutions strategy tree = effect at exit ⊢
  cases exit with
  | written decoded changes writable can =>
      exact layout_writeAt (fileAt_eq_ok.mp isFound).2 _ strategy
  | _ => rfl

theorem layout_settle (visited : Visited) :
    (tree.settle substitutions strategy visited).layout = tree.layout := by
  cases visited with
  | directory path => rfl
  | file path => exact layout_updateFile path
  | failure path fault => rfl

theorem layout_foldl_settle (items : List Visited) :
    (items.foldl (settle substitutions strategy) tree).layout =
      tree.layout := by
  induction items generalizing tree with
  | nil => rfl
  | cons visited rest induction =>
      exact induction.trans (layout_settle visited)

namespace LeadsTo

variable {names : List Name} {file : File}

theorem fileAt (leads : tree.LeadsTo base place)
    (isFile : tree.node? (place ++ names) = some (.file file))
    (fits : (base.below names).bytes.length ≤ pathLimit) :
    tree.fileAt (base.below names) = .ok (place ++ names, file) :=
  fileAt_eq_ok.mpr ⟨leads.resolve fits (by rw [isFile]; rfl), isFile⟩

theorem fileAt_of_long (leads : tree.LeadsTo base place)
    (plain : Path.ArePlain names)
    (long : pathLimit < (base.below names).bytes.length) :
    tree.fileAt (base.below names) = .error .nameTooLong := by
  rw [Tree.fileAt, leads.resolve_of_long plain long]
  rfl

theorem hasRevised_settle (leads : tree.LeadsTo base place)
    (strategy : WriteStrategy) (substitutions : List Substitution)
    {visited : Visited} (encounter : tree.Encounter base place names visited) :
    tree.HasRevised (File.revised strategy substitutions)
      (fun inner => inner = place ++ names ∧
        visited = .file (base.below names) ∧
        (base.below names).bytes.length ≤ pathLimit ∧
        tree.CanWrite strategy (base.below names))
      (tree.settle substitutions strategy visited) := by
  cases encounter with
  | directory present =>
      refine (HasRevised.refl _ tree).congr fun inner file isFile => ?_
      simp
  | failure present long =>
      refine (HasRevised.refl _ tree).congr fun inner file isFile => ?_
      simp
  | @file file isFile =>
      by_cases fits : (base.below names).bytes.length ≤ pathLimit
      · refine (hasRevised_updateFile leads.free (leads.fileAt isFile fits)).congr
          fun inner _ _ => ?_
        simp [fits]
      · have plain := leads.plain_names (by rw [isFile]; rfl)
        have missing := leads.fileAt_of_long plain (Nat.lt_of_not_le fits)
        rw [settle, updateFile_of_missing missing]
        refine (HasRevised.refl _ tree).congr fun inner file isFile => ?_
        simp [fits]

/-- Whether an update succeeds can be read off the file and its path. -/
theorem settles_file_iff (leads : tree.LeadsTo base place)
    (isFile : tree.node? (place ++ names) = some (.file file)) :
    Settles substitutions strategy tree (.file (base.below names)) ↔
      (base.below names).bytes.length ≤ pathLimit ∧
        file.IsRevisable substitutions ∧
        (file.HasToChange substitutions →
          tree.CanWrite strategy (base.below names)) := by
  rw [Settles]
  by_cases fits : (base.below names).bytes.length ≤ pathLimit
  · rw [updateFile_isOk_iff (leads.fileAt isFile fits)]
    simp [fits]
  · have plain := leads.plain_names (by rw [isFile]; rfl)
    rw [updateFile_of_missing
      (leads.fileAt_of_long plain (Nat.lt_of_not_le fits))]
    simp [fits, Effect.fail, Except.isOk, Except.toBool]

end LeadsTo

/-! ### All updates of a walk -/

variable {change : File → File} {part : Place → Prop} {revised : Tree}

theorem HasRevised.leadsTo (isRevised : tree.HasRevised change part revised)
    (keepsShare : ∀ file, (change file).share = file.share ∨
      (change file).share = none)
    (leads : tree.LeadsTo base place) : revised.LeadsTo base place where
  free := isRevised.isLinkFree keepsShare leads.free
  legal := isRevised.hasLegalNames leads.legal
  resolved := by
    rw [resolve_of_layout isRevised.layout]
    exact leads.resolved
  directory := by
    rw [isRevised.hasDirectory]
    exact leads.directory

theorem HasRevised.encounter (isRevised : tree.HasRevised change part revised)
    {names : List Name} {visited : Visited}
    (encounter : tree.Encounter base place names visited) :
    revised.Encounter base place names visited := by
  cases encounter with
  | directory present =>
      exact .directory (by rw [isRevised.hasDirectory]; exact present)
  | @file file present =>
      have isKind := isRevised.kind (place ++ names)
      rw [present] at isKind
      obtain ⟨other, isNode⟩ := kind_eq_file.mp isKind
      exact .file isNode
  | failure present long =>
      exact .failure (by rw [isRevised.hasDirectory]; exact present) long

/-- Updating things that are each visited once revises the files among them. -/
theorem LeadsTo.hasRevised_foldl (leads : tree.LeadsTo base place)
    {items : List Visited} (nodup : items.Nodup)
    (encounters : ∀ visited ∈ items,
      ∃ names, tree.Encounter base place names visited) :
    tree.HasRevised (File.revised strategy substitutions)
      (fun inner => ∃ names, inner = place ++ names ∧
        .file (base.below names) ∈ items ∧
        (base.below names).bytes.length ≤ pathLimit ∧
        tree.CanWrite strategy (base.below names))
      (items.foldl (settle substitutions strategy) tree) := by
  induction items generalizing tree with
  | nil =>
      refine (HasRevised.refl _ tree).congr fun inner file isFile => ?_
      simp
  | cons visited rest induction =>
      obtain ⟨names, encounter⟩ := encounters visited List.mem_cons_self
      obtain ⟨notLater, restNodup⟩ := List.nodup_cons.mp nodup
      have first := leads.hasRevised_settle strategy substitutions
        encounter
      have later := induction
        (first.leadsTo (fun _ => File.share_revised) leads) restNodup
        (fun other member => by
          obtain ⟨others, again⟩ :=
            encounters other (List.mem_cons_of_mem _ member)
          exact ⟨others, first.encounter again⟩)
      simp only [canWrite_of_layout first.layout] at later
      rw [List.foldl_cons]
      refine (first.union later ?_).congr ?_
      · rintro inner ⟨isInner, isVisited, -⟩ ⟨others, isOther, member, -⟩
        have same : names = others :=
          List.append_cancel_left (isInner.symm.trans isOther)
        rw [← same, ← isVisited] at member
        exact notLater member
      · intro inner file isFile
        constructor
        · rintro (⟨isInner, isVisited, can⟩ | ⟨others, isInner, member, can⟩)
          · exact ⟨names, isInner, isVisited ▸ List.mem_cons_self, can⟩
          · exact ⟨others, isInner, List.mem_cons_of_mem _ member, can⟩
        · rintro ⟨others, isInner, member, can⟩
          rcases List.mem_cons.mp member with isVisited | inRest
          · left
            have again : tree.Encounter base place others visited := by
              rw [← isVisited]
              exact .file (isInner ▸ isFile)
            have same := leads.names_unique encounter again
            rw [same]
            exact ⟨isInner, isVisited.symm, can⟩
          · exact .inr ⟨others, isInner, inRest, can⟩

theorem LeadsTo.settles_iff_of_ne (leads : tree.LeadsTo base place)
    {names others : List Name} {visited other : Visited}
    (encounter : tree.Encounter base place names visited)
    (again : tree.Encounter base place others other)
    (different : visited ≠ other) :
    Settles substitutions strategy
        (tree.settle substitutions strategy visited) other ↔
      Settles substitutions strategy tree other := by
  have first := leads.hasRevised_settle strategy substitutions encounter
  cases again with
  | directory present => exact Iff.rfl
  | failure present long => exact Iff.rfl
  | @file file isFile =>
      have same : (tree.settle substitutions strategy visited).node?
          (place ++ others) = some (.file file) := by
        rw [first.outside, isFile]
        rintro ⟨isPlace, isVisited, -⟩
        rw [← List.append_cancel_left isPlace] at isVisited
        exact different isVisited
      rw [(first.leadsTo (fun _ => File.share_revised) leads).settles_file_iff
        same, leads.settles_file_iff isFile, canWrite_of_layout first.layout]

/-- None of the updates fails if none would fail as the first. -/
theorem LeadsTo.settlesAll_iff (leads : tree.LeadsTo base place)
    {items : List Visited} (nodup : items.Nodup)
    (encounters : ∀ visited ∈ items,
      ∃ names, tree.Encounter base place names visited) :
    SettlesAll substitutions strategy tree items ↔
      ∀ visited ∈ items, Settles substitutions strategy tree visited := by
  induction items generalizing tree with
  | nil => simp [SettlesAll]
  | cons visited rest induction =>
      obtain ⟨names, encounter⟩ := encounters visited List.mem_cons_self
      obtain ⟨notLater, restNodup⟩ := List.nodup_cons.mp nodup
      have first := leads.hasRevised_settle strategy substitutions
        encounter
      rw [SettlesAll, List.forall_mem_cons, induction
        (first.leadsTo (fun _ => File.share_revised) leads) restNodup
        (fun other member => by
          obtain ⟨others, again⟩ :=
            encounters other (List.mem_cons_of_mem _ member)
          exact ⟨others, first.encounter again⟩)]
      apply and_congr_right
      intro _
      apply forall₂_congr
      intro other member
      obtain ⟨others, again⟩ := encounters other (List.mem_cons_of_mem _ member)
      exact leads.settles_iff_of_ne encounter again
        fun same => notLater (same ▸ member)

/-- The part of a tree below a base where paths can be followed to files and
these can be written. -/
def Reachable (tree : Tree) (strategy : WriteStrategy) (base : Path)
    (place inner : Place) : Prop :=
  ∃ names, inner = place ++ names ∧
    (base.below names).bytes.length ≤ pathLimit ∧
    tree.CanWrite strategy (base.below names)

/-- A walk that updates what it visits revises all files that can be reached. -/
theorem LeadsTo.hasRevised_visits (leads : tree.LeadsTo base place) :
    tree.HasRevised (File.revised strategy substitutions)
      (tree.Reachable strategy base place)
      ((tree.visits base).foldl (settle substitutions strategy) tree) := by
  refine (leads.hasRevised_foldl leads.nodup_visits fun visited =>
    leads.encounter_of_mem_visits).congr fun inner file isFile => ?_
  constructor
  · rintro ⟨names, isInner, -, can⟩
    exact ⟨names, isInner, can⟩
  · rintro ⟨names, isInner, can⟩
    exact ⟨names, isInner, leads.file_mem_visits (isInner ▸ isFile) can.1, can⟩

/-- What has to hold of a tree so that a walk that updates what it visits has
nothing to complain about. -/
structure IsSound (tree : Tree) (base : Path) (place : Place)
    (substitutions : List Substitution) (strategy : WriteStrategy) : Prop where
  files : ∀ names file, tree.node? (place ++ names) = some (.file file) →
    (base.below names).bytes.length ≤ pathLimit ∧
      file.IsRevisable substitutions ∧
      (file.HasToChange substitutions →
        tree.CanWrite strategy (base.below names))
  directories : ∀ names, tree.hasDirectory (place ++ names) = true →
    (base.below names).bytes.length ≤ pathLimit

theorem IsSound.fits (sound : tree.IsSound base place substitutions strategy)
    (free : tree.IsLinkFree) (present : (tree.node? (place ++ names)).isSome) :
    (base.below names).bytes.length ≤ pathLimit := by
  obtain ⟨node, isNode⟩ := Option.isSome_iff_exists.mp present
  cases node with
  | directory =>
      refine sound.directories names ?_
      rw [hasDirectory, isNode]
      rfl
  | file file => exact (sound.files names file isNode).1
  | link target share => exact absurd isNode (free.linkless _ _ _)

theorem LeadsTo.settlesAll_visits_iff (leads : tree.LeadsTo base place) :
    SettlesAll substitutions strategy tree (tree.visits base) ↔
      tree.IsSound base place substitutions strategy := by
  rw [leads.settlesAll_iff leads.nodup_visits fun visited =>
    leads.encounter_of_mem_visits]
  constructor
  · intro settles
    have directories : ∀ names, tree.hasDirectory (place ++ names) = true →
        (base.below names).bytes.length ≤ pathLimit := by
      intro names directory
      apply Nat.le_of_not_lt
      intro long
      obtain ⟨path, fault, member⟩ := leads.failure_mem_visits directory long
      exact settles _ member
    refine ⟨fun names file isFile => ?_, directories⟩
    have parent : tree.hasDirectory (place ++ names.dropLast) = true := by
      by_cases empty : names = []
      · rw [empty, List.dropLast_nil, List.append_nil]
        exact leads.directory
      · rw [← List.dropLast_append_getLast empty, ← List.append_assoc] at isFile
        exact hasDirectory_of_node?_concat isFile
    exact (leads.settles_file_iff isFile).mp (settles _
      (leads.file_mem_visits_of_parent isFile (directories _ parent)))
  · intro sound visited member
    obtain ⟨names, encounter⟩ := leads.encounter_of_mem_visits member
    cases encounter with
    | directory present => trivial
    | file present =>
        exact (leads.settles_file_iff present).mpr (sound.files _ _ present)
    | failure present long =>
        exact absurd (sound.directories names present) (Nat.not_le.mpr long)

end Tree

end PackageRename
