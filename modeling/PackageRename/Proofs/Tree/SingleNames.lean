import PackageRename.Proofs.Relocation.Outline
import PackageRename.Proofs.Tree.Sharing

/-!
# Trees whose files have one name each

A file with one name reads and is written alike whether or not it carries a
share.  Two trees with such files are alike if nothing else tells them apart:
every operation of a job answers the same in both and leaves trees that are
alike again, in whichever way it writes.
-/

namespace PackageRename

@[simp]
theorem File.unshared_rewritten (strategy : WriteStrategy)
    (contents : List UInt8) (file : File) :
    (file.rewritten strategy contents).unshared =
      { file with contents, share := none, written := true } := by
  cases strategy <;> rfl

namespace Tree

variable {tree reached first second : Tree} {place other : Place}
variable {file : File} {node : Node}

/-- No file has a second name. -/
def IsSinglyNamed (tree : Tree) : Prop :=
  ∀ ⦃place other file node⦄, tree.node? place = some (.file file) →
    tree.node? other = some node → file.share.isSome = true →
    node.share? = file.share → place = other

theorem isSinglyNamed_of_nodes (single : ∀ first ∈ tree.nodes,
    ∀ second ∈ tree.nodes, ∀ file ∈ first.2.file?, file.share.isSome = true →
      second.2.share? = file.share → first.1 = second.1) :
    tree.IsSinglyNamed := by
  intro place other file node isFile isNode isSome same
  refine single _ (mem_nodes isFile fun empty => ?_) _
    (mem_nodes isNode fun empty => ?_) file rfl isSome same
  · rw [empty, node?_nil] at isFile
    cases isFile
  · rw [empty, node?_nil] at isNode
    cases isNode
    rw [← same] at isSome
    cases isSome

theorem IsSinglyNamed.not_sharesNode (single : tree.IsSinglyNamed)
    (isFile : tree.node? place = some (.file file)) (apart : place ≠ other) :
    tree.sharesNode (.file file) other = false := by
  rw [Bool.eq_false_iff]
  intro shares
  rw [sharesNode, Bool.and_eq_true, decide_eq_true_eq] at shares
  obtain ⟨isSome, same⟩ := shares
  cases isNode : tree.node? other with
  | none =>
      rw [isNode] at same
      rw [← same] at isSome
      cases isSome
  | some node =>
      rw [isNode] at same
      exact apart (single isFile isNode isSome same)

/-! ### Directory operations -/

/-- A step takes each node from one place, and no two from one. -/
theorem Step.exists_origins (step : tree.Step reached) :
    ∃ origin : Place → Place,
      (∀ place node, reached.node? place = some node → node ≠ .made →
        tree.node? (origin place) = some node) ∧
      ∀ place other, (reached.node? place).isSome = true →
        (reached.node? other).isSome = true → origin place = origin other →
        place = other := by
  cases step with
  | directory step =>
      refine ⟨id, fun place node isNode proper => ?_, fun _ _ _ _ same => same⟩
      cases step with
      | make directory legal free =>
          rw [node?_insert directory free] at isNode
          split at isNode
          · exact absurd (Option.some.inj isNode).symm proper
          · exact isNode
      | remove empty =>
          rw [node?_remove (by simp [Slot.place])] at isNode
          split at isNode
          · cases isNode
          · exact isNode
  | @rename old new moved _ renames =>
      have hasMoved := renames.hasMoved
      refine ⟨fun place => if new.place <+: place then
        old.place ++ place.drop new.place.length else place,
        fun place node isNode _ => ?_, fun place other isPlace isOther same => ?_⟩
      · rw [hasMoved.node?] at isNode
        dsimp only
        split at isNode
        · rename_i inside
          rwa [if_pos inside]
        · rename_i outside
          split at isNode
          · cases isNode
          · rwa [if_neg outside]
      · have outsideOld : ∀ {place}, (reached.node? place).isSome = true →
            ¬ new.place <+: place → ¬ old.place <+: place := by
          intro place isSome outside below
          rw [hasMoved.node?, if_neg outside, if_pos below] at isSome
          cases isSome
        dsimp only at same
        split at same <;> split at same
        · rename_i inside insideOther
          obtain ⟨rest, rfl⟩ := inside
          obtain ⟨otherRest, rfl⟩ := insideOther
          rw [List.drop_left, List.drop_left] at same
          rw [List.append_cancel_left same]
        · rename_i outside
          exact absurd ⟨_, same⟩ (outsideOld isOther outside)
        · rename_i outside _
          exact absurd ⟨_, same.symm⟩ (outsideOld isPlace outside)
        · exact same

theorem IsSinglyNamed.step (single : tree.IsSinglyNamed)
    (step : tree.Step reached) : reached.IsSinglyNamed := by
  obtain ⟨origin, comes, injective⟩ := step.exists_origins
  intro place other file node isFile isNode isSome same
  have proper : node ≠ .made := by
    rintro rfl
    rw [← same] at isSome
    cases isSome
  refine injective place other (by rw [isFile]; rfl) (by rw [isNode]; rfl) ?_
  exact single (comes place _ isFile nofun) (comes other _ isNode proper)
    isSome same

theorem IsSinglyNamed.steps (single : tree.IsSinglyNamed)
    (steps : tree.Steps reached) : reached.IsSinglyNamed := by
  induction steps with
  | refl => exact single
  | tail _ step induction => exact induction.step step

/-- A rename meets two names of one file neither with nor without the
shares. -/
theorem IsSinglyNamed.sharesAlike (single : tree.IsSinglyNamed)
    (source target : Path) :
    tree.SharesAlike File.unshared source target := by
  intro old new moved _ _ isMoved apart
  cases moved with
  | directory => rfl
  | file file =>
      rw [single.not_sharesNode isMoved apart]
      rfl
  | link target share =>
      simp only [Node.mapFile, sharesNode, Node.share?, node?_mapFiles]
      cases isNode : tree.node? new.place with
      | none => rfl
      | some node =>
          cases node with
          | directory => rfl
          | link target share => rfl
          | file present =>
              -- A file cannot have a name in common with a link either.
              have differs : share.isSome = true → present.share ≠ share := by
                rintro isSome rfl
                exact apart (single isNode isMoved isSome rfl).symm
              cases share with
              | none => rfl
              | some share =>
                  simp [Node.mapFile, File.unshared, Node.share?,
                    differs rfl]

/-! ### Trees that are alike -/

/-- Nothing but the shares of files with one name tells the trees apart. -/
structure Alike (first second : Tree) : Prop where
  unshared : first.unshared = second.unshared
  single : first.IsSinglyNamed
  singleToo : second.IsSinglyNamed

theorem Alike.layout (alike : first.Alike second) :
    first.layout = second.layout := by
  calc
    first.layout = first.unshared.layout := layout_mapFiles.symm
    _ = second.unshared.layout := by rw [alike.unshared]
    _ = second.layout := layout_mapFiles

/-- Where one tree has a file the other has one that differs in its share. -/
theorem Alike.exists_file (alike : first.Alike second)
    (isFile : first.node? place = some (.file file)) :
    ∃ shown, second.node? place = some (.file shown) ∧
      shown.unshared = file.unshared := by
  have same := congrArg (fun tree => tree.node? place) alike.unshared
  simp only [Tree.unshared, node?_mapFiles, isFile, Option.map_some] at same
  obtain ⟨shown, isShown, isFile⟩ := mapFile_eq_file.mp same.symm
  exact ⟨shown, isShown, isFile.symm⟩

/-- A path leads to a file in both trees or misses one for the same reason. -/
theorem Alike.fileAt (alike : first.Alike second) (path : Path) :
    (∃ fault, first.fileAt path = .error fault ∧
        second.fileAt path = .error fault) ∨
      ∃ place file shown, first.fileAt path = .ok (place, file) ∧
        second.fileAt path = .ok (place, shown) ∧
        shown.unshared = file.unshared := by
  rw [Tree.fileAt, Tree.fileAt, ← resolve_of_layout alike.layout path]
  cases first.resolve path with
  | error fault => exact .inl ⟨fault, rfl, rfl⟩
  | ok place =>
      simp only [bind, Except.bind]
      have kinds := node?_of_layout alike.layout place
      cases isNode : first.node? place with
      | none =>
          rw [isNode, Option.map_none, eq_comm, Option.map_eq_none_iff] at kinds
          rw [kinds]
          exact .inl ⟨_, rfl, rfl⟩
      | some node =>
          rw [isNode, Option.map_some, eq_comm, Option.map_eq_some_iff] at kinds
          obtain ⟨shown, isShown, kind⟩ := kinds
          rw [isShown]
          cases node with
          | file file =>
              obtain ⟨shown, isFile, same⟩ := alike.exists_file isNode
              rw [isShown] at isFile
              cases isFile
              exact .inr ⟨place, file, shown, rfl, rfl, same⟩
          | directory =>
              cases shown <;> cases kind
              exact .inl ⟨_, rfl, rfl⟩
          | link target share =>
              cases shown <;> cases kind
              exact .inl ⟨_, rfl, rfl⟩

/-! ### Updates -/

theorem IsSinglyNamed.showsAt_iff {strategy : WriteStrategy}
    (single : tree.IsSinglyNamed)
    (isFile : tree.node? place = some (.file file)) :
    tree.ShowsAt strategy (place, file) other ↔ place = other := by
  refine or_iff_left_of_imp fun shown => ?_
  by_contra apart
  rw [single.not_sharesNode isFile apart] at shown
  cases shown.2

theorem IsSinglyNamed.writeAt (single : tree.IsSinglyNamed)
    (isFile : tree.node? place = some (.file file)) (contents : List UInt8)
    (strategy : WriteStrategy) :
    (tree.writeAt place file contents strategy).IsSinglyNamed := by
  -- A write gives no node a share that it has not had.
  have keeps : ∀ {inner node}, (tree.writeAt place file contents strategy).node?
        inner = some node → node.share?.isSome = true →
      ∃ before, tree.node? inner = some before ∧
        before.share? = node.share? ∧ (∀ file, node = .file file →
          ∃ old, before = .file old) := by
    intro inner node isNode isSome
    rw [node?_writeAt_shown isFile] at isNode
    split at isNode
    · obtain ⟨before, wasNode, rfl⟩ := Option.map_eq_some_iff.mp isNode
      cases before with
      | directory => exact ⟨_, wasNode, rfl, nofun⟩
      | link target share => exact ⟨_, wasNode, rfl, nofun⟩
      | file old =>
          cases strategy with
          | inPlace => exact ⟨_, wasNode, rfl, fun _ _ => ⟨old, rfl⟩⟩
          | atomic => cases isSome
    · exact ⟨node, isNode, rfl, fun file same => ⟨file, same⟩⟩
  intro inner other shown node isShown isNode isSome same
  obtain ⟨before, wasShown, sameShare, isOld⟩ := keeps isShown isSome
  obtain ⟨old, rfl⟩ := isOld shown rfl
  obtain ⟨beforeNode, wasNode, sameNode, -⟩ :=
    keeps isNode (by rw [same]; exact isSome)
  refine single wasShown wasNode ?_ ?_
  · rw [Node.share?, Node.share?] at sameShare
    rw [sameShare]
    exact isSome
  · rw [sameNode, same]
    exact sameShare.symm

/-- Trees in which alike files are written are alike, whichever way each is
written. -/
theorem Alike.writeAt {shown : File} (alike : first.Alike second)
    (isFile : first.node? place = some (.file file))
    (isShown : second.node? place = some (.file shown))
    (contents : List UInt8) (strategy other : WriteStrategy) :
    (first.writeAt place file contents strategy).Alike
      (second.writeAt place shown contents other) := by
  refine ⟨eq_of_node? ?_ fun inner => ?_, alike.single.writeAt isFile _ _,
    alike.singleToo.writeAt isShown _ _⟩
  · have origins : first.origin = second.origin := by
      change first.unshared.origin = second.unshared.origin
      rw [alike.unshared]
    exact (origin_writeAt _ _ _ _).trans (origins.trans
      (origin_writeAt _ _ _ _).symm)
  · have same := congrArg (fun tree => tree.node? inner) alike.unshared
    simp only [Tree.unshared, node?_mapFiles] at same ⊢
    rw [node?_writeAt_shown isFile, node?_writeAt_shown isShown]
    simp only [alike.single.showsAt_iff isFile,
      alike.singleToo.showsAt_iff isShown]
    split
    · rename_i isPlace
      subst isPlace
      rw [isFile, isShown] at same ⊢
      obtain ⟨-, sameMode, -⟩ :=
        File.mk.inj (Node.file.inj (Option.some.inj same))
      simp only [Option.map_some, Node.mapFile, File.unshared_rewritten,
        sameMode]
    · exact same

/-- If the file that a path leads to has to be written, it can be. -/
def CanUpdate (tree : Tree) (substitutions : List Substitution)
    (strategy : WriteStrategy) (path : Path) : Prop :=
  ∀ place file, tree.fileAt path = .ok (place, file) →
    file.HasToChange substitutions → file.isReadOnly = false →
    tree.CanWrite strategy path

theorem canUpdate_inPlace (tree : Tree) (substitutions : List Substitution)
    (path : Path) : tree.CanUpdate substitutions .inPlace path := by
  intro place file found changes writable isAtomic
  cases isAtomic

theorem Alike.updateFile (alike : first.Alike second) {path : Path}
    {substitutions : List Substitution} {strategy other : WriteStrategy}
    (can : first.CanUpdate substitutions strategy path)
    (canToo : second.CanUpdate substitutions other path) :
    (updateFile path substitutions strategy first).answer =
        (updateFile path substitutions other second).answer ∧
      (updateFile path substitutions strategy first).log =
        (updateFile path substitutions other second).log ∧
      (updateFile path substitutions strategy first).tree.Alike
        (updateFile path substitutions other second).tree := by
  rw [PackageRename.updateFile, PackageRename.updateFile]
  rcases alike.fileAt path with
    ⟨fault, missed, missedToo⟩ | ⟨place, file, shown, found, foundToo, same⟩
  · rw [missed, missedToo]
    exact ⟨rfl, rfl, alike⟩
  · obtain ⟨sameContents, sameMode, -⟩ := File.mk.inj same
    have sameReadOnly : shown.isReadOnly = file.isReadOnly := by
      rw [File.isReadOnly, File.isReadOnly, sameMode]
    rw [found, foundToo]
    simp only [sameContents, sameReadOnly]
    cases decoded : Utf8.decode? file.contents with
    | none =>
        dsimp only
        split <;> exact ⟨rfl, rfl, alike⟩
    | some text =>
        dsimp only
        split
        · exact ⟨rfl, rfl, alike⟩
        rename_i changed
        split
        · exact ⟨rfl, rfl, alike⟩
        rename_i writable
        have notReadOnly := Bool.eq_false_iff.mpr writable
        have decodedToo := sameContents ▸ decoded
        have changes := fun same => changed (.inr same)
        rw [write_of_canWrite (fileAt_eq_ok.mp found).1 (can place file found
            ((File.hasToChange_iff decoded).mpr changes) notReadOnly),
          write_of_canWrite (fileAt_eq_ok.mp foundToo).1 (canToo place shown
            foundToo ((File.hasToChange_iff decodedToo).mpr changes)
            (sameReadOnly.trans notReadOnly))]
        exact ⟨rfl, rfl, alike.writeAt (fileAt_eq_ok.mp found).2
            (fileAt_eq_ok.mp foundToo).2 _ _ _⟩

theorem Alike.movePackage (alike : first.Alike second) (base : Path)
    (source target : Identifier) :
    (movePackage base source target first).answer =
        (movePackage base source target second).answer ∧
      (movePackage base source target first).log =
        (movePackage base source target second).log ∧
      (movePackage base source target first).tree.Alike
        (movePackage base source target second).tree := by
  have unshares : ∀ {tree : Tree}, tree.IsSinglyNamed →
      PackageRename.movePackage base source target tree.unshared =
        (PackageRename.movePackage base source target tree).mapFiles File.unshared :=
    fun single => movePackage_mapFiles base source target
      fun _ steps old new => (single.steps steps).sharesAlike old new
  have same := (unshares alike.single).symm.trans
    ((congrArg _ alike.unshared).trans (unshares alike.singleToo))
  have answer := congrArg Effect.answer same
  have log := congrArg Effect.log same
  have tree := congrArg Effect.tree same
  exact ⟨answer, log, tree,
    alike.single.steps (steps_movePackage base source target first),
    alike.singleToo.steps (steps_movePackage base source target second)⟩

end Tree

end PackageRename
