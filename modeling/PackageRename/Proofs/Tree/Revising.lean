import PackageRename.Proofs.Tree.Based

/-!
# Trees with revised files

A part of a tree is revised when its files are changed by one function and
everything else is as it was.  Revising keeps the layout, and revising two parts
that have nothing in common is revising both.
-/

namespace PackageRename

namespace Tree

variable {tree revised final : Tree} {base : Path} {place : Place}
variable {change : File → File} {part other : Place → Prop}

/-- The tree with the files of a part changed and all else as it was. -/
structure HasRevised (change : File → File) (part : Place → Prop)
    (tree revised : Tree) : Prop where
  origin : revised.origin = tree.origin
  inside : ∀ place, part place →
    revised.node? place = (tree.node? place).map (Node.mapFile change)
  outside : ∀ place, ¬ part place → revised.node? place = tree.node? place

namespace HasRevised

theorem refl (change : File → File) (tree : Tree) :
    tree.HasRevised change (fun _ => False) tree :=
  ⟨rfl, fun _ isPart => isPart.elim, fun _ _ => rfl⟩

/-- Only what the part says about files that the change does not leave alone
matters. -/
theorem congr_of_changed (isRevised : tree.HasRevised change part revised)
    (same : ∀ place file, tree.node? place = some (.file file) →
      change file ≠ file → (part place ↔ other place)) :
    tree.HasRevised change other revised := by
  have unchanged : ∀ place, (∀ file, tree.node? place = some (.file file) →
        change file = file) →
      (tree.node? place).map (Node.mapFile change) = tree.node? place := by
    intro place keeps
    cases isNode : tree.node? place with
    | none => rfl
    | some node =>
        cases node with
        | directory => rfl
        | link target share => rfl
        | file present => rw [Option.map_some, Node.mapFile, keeps present isNode]
  refine ⟨isRevised.origin, fun place isOther => ?_, fun place notOther => ?_⟩
  · by_cases isPart : part place
    · exact isRevised.inside place isPart
    · rw [isRevised.outside place isPart, unchanged]
      exact fun file isFile => Classical.byContradiction fun changed =>
        isPart ((same place file isFile changed).mpr isOther)
  · by_cases isPart : part place
    · rw [isRevised.inside place isPart, unchanged]
      exact fun file isFile => Classical.byContradiction fun changed =>
        notOther ((same place file isFile changed).mp isPart)
    · exact isRevised.outside place isPart

/-- Only what the part says about files matters. -/
theorem congr (isRevised : tree.HasRevised change part revised)
    (same : ∀ place file, tree.node? place = some (.file file) →
      (part place ↔ other place)) :
    tree.HasRevised change other revised :=
  isRevised.congr_of_changed fun place file isFile _ => same place file isFile

theorem union (first : tree.HasRevised change part revised)
    (second : revised.HasRevised change other final)
    (disjoint : ∀ place, part place → ¬ other place) :
    tree.HasRevised change (fun place => part place ∨ other place) final := by
  refine ⟨second.origin.trans first.origin, ?_, ?_⟩
  · rintro place (isPart | isOther)
    · rw [second.outside place (disjoint place isPart),
        first.inside place isPart]
    · rw [second.inside place isOther,
        first.outside place fun isPart => disjoint place isPart isOther]
  · intro place neither
    rw [second.outside place fun isOther => neither (.inr isOther),
      first.outside place fun isPart => neither (.inl isPart)]

theorem kind (isRevised : tree.HasRevised change part revised)
    (place : Place) :
    (revised.node? place).map Node.kind = (tree.node? place).map Node.kind := by
  by_cases isPart : part place
  · rw [isRevised.inside place isPart, Option.map_map]
    congr 1
    funext node
    exact kind_mapFile node
  · rw [isRevised.outside place isPart]

theorem node?_eq_none (isRevised : tree.HasRevised change part revised) :
    revised.node? place = none ↔ tree.node? place = none := by
  rw [← Option.map_eq_none_iff (f := Node.kind), isRevised.kind,
    Option.map_eq_none_iff]

theorem sameKinds (isRevised : tree.HasRevised change part revised)
    (hidden : Place → Prop) : SameKinds hidden tree revised :=
  fun place _ => isRevised.kind place

theorem hasDirectory (isRevised : tree.HasRevised change part revised)
    (place : Place) : revised.hasDirectory place = tree.hasDirectory place :=
  (isRevised.sameKinds fun _ => False).hasDirectory id

theorem isSome (isRevised : tree.HasRevised change part revised)
    (place : Place) :
    (revised.node? place).isSome = (tree.node? place).isSome :=
  (isRevised.sameKinds fun _ => False).isSome id

theorem layout (isRevised : tree.HasRevised change part revised) :
    revised.layout = tree.layout := by
  refine layout_eq_of_node? isRevised.origin fun place => ?_
  by_cases isPart : part place
  · rw [isRevised.inside place isPart, Option.map_map]
    congr 1
    funext node
    cases node <;> rfl
  · rw [isRevised.outside place isPart]

/-- Every file has come from the file that was in its place. -/
theorem file_cases (isRevised : tree.HasRevised change part revised)
    {file : File} (isFile : revised.node? place = some (.file file)) :
    ∃ before, tree.node? place = some (.file before) ∧
      (file = before ∨ file = change before) := by
  by_cases isPart : part place
  · rw [isRevised.inside place isPart] at isFile
    obtain ⟨before, isNode, isChanged⟩ := mapFile_eq_file.mp isFile
    exact ⟨before, isNode, .inr isChanged⟩
  · rw [isRevised.outside place isPart] at isFile
    exact ⟨file, isFile, .inl rfl⟩

theorem isLinkFree (isRevised : tree.HasRevised change part revised)
    (keepsShare : ∀ file, (change file).share = file.share ∨
      (change file).share = none)
    (free : tree.IsLinkFree) : revised.IsLinkFree := by
  constructor
  · intro place target share isLink
    have isKind := isRevised.kind place
    rw [isLink] at isKind
    obtain ⟨node, isNode, kinds⟩ := Option.map_eq_some_iff.mp isKind.symm
    cases node with
    | directory => cases kinds
    | file present => cases kinds
    | link target share => exact free.linkless _ _ _ isNode
  · intro first second file another isFirst isSecond shared same
    obtain ⟨before, wasFirst, comes⟩ := isRevised.file_cases isFirst
    obtain ⟨other, wasSecond, otherComes⟩ := isRevised.file_cases isSecond
    have isShare : file.share = before.share := by
      rcases comes with unchanged | changed
      · rw [unchanged]
      · rcases keepsShare before with kept | cleared
        · rw [changed, kept]
        · rw [changed, cleared] at shared
          cases shared
    have otherShared : another.share.isSome := same ▸ shared
    have isOtherShare : another.share = other.share := by
      rcases otherComes with unchanged | changed
      · rw [unchanged]
      · rcases keepsShare other with kept | cleared
        · rw [changed, kept]
        · rw [changed, cleared] at otherShared
          cases otherShared
    exact free.unshared wasFirst wasSecond (isShare ▸ shared)
      (isShare.symm.trans (same.trans isOtherShare))

theorem hasLegalNames (isRevised : tree.HasRevised change part revised)
    (legal : tree.HasLegalNames) : revised.HasLegalNames := by
  intro place present
  rw [isRevised.isSome] at present
  exact legal place present

theorem isBase (isRevised : tree.HasRevised change part revised)
    (keepsShare : ∀ file, (change file).share = file.share ∨
      (change file).share = none)
    (isBase : tree.IsBase base place) : revised.IsBase base place :=
  isBase.transfer (isRevised.isLinkFree keepsShare isBase.free)
    (isRevised.hasLegalNames isBase.legal) isRevised.origin
    (isRevised.sameKinds fun _ => False) fun _ _ => id

end HasRevised

end Tree

end PackageRename
