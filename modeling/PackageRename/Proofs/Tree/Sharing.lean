import PackageRename.Proofs.FileUpdate
import PackageRename.Proofs.Tree.Deciding
import PackageRename.Proofs.Tree.Following

/-!
# Files with several names

All names of one file show the same contents.  What is written in place shows
under all of them; what is written as a new file shows under one name only, which
then is no name of the old file any more.
-/

namespace PackageRename

/-- What substitutions make of contents.  What is no text stays as it is. -/
def Substitution.inContents (substitutions : List Substitution)
    (contents : List UInt8) : List UInt8 :=
  match Utf8.decode? contents with
  | none => contents
  | some text => Utf8.encode (applyAll substitutions text).1

namespace Tree

variable {tree after : Tree} {path : Path} {place other inner : Place}
variable {file before shared : File} {strategy : WriteStrategy}
variable {substitutions : List Substitution} {contents : List UInt8}

/-- All names of one file show the same contents. -/
def SharesContents (tree : Tree) : Prop :=
  ∀ ⦃place other file shared⦄, tree.node? place = some (.file file) →
    tree.node? other = some (.file shared) → file.share.isSome = true →
    file.share = shared.share → file.contents = shared.contents

theorem sharesContents_of_nodes (same : ∀ first ∈ tree.nodes,
    ∀ second ∈ tree.nodes, ∀ file ∈ first.2.file?, ∀ shared ∈ second.2.file?,
      file.share.isSome = true → file.share = shared.share →
      file.contents = shared.contents) : tree.SharesContents := by
  have isEntry : ∀ {place file}, tree.node? place = some (.file file) →
      (place, Node.file file) ∈ tree.nodes := fun isFile =>
    mem_nodes isFile fun empty => by
      rw [empty, node?_nil] at isFile
      cases isFile
  intro place other file shared isFile isShared
  exact same _ (isEntry isFile) _ (isEntry isShared) file rfl shared rfl

theorem CarriesFiles.sharesContents {carry : Place → Option Place}
    (carries : tree.CarriesFiles carry after) (shares : tree.SharesContents) :
    after.SharesContents := by
  intro place other file shared isFile isShared isSome same
  obtain ⟨_, -, wasFile⟩ := carries.comes isFile
  obtain ⟨_, -, wasShared⟩ := carries.comes isShared
  exact shares wasFile wasShared isSome same

/-- Whether what is written to a file found at one place shows at another. -/
def ShowsAt (tree : Tree) (strategy : WriteStrategy) (found : Place × File)
    (place : Place) : Prop :=
  found.1 = place ∨
    strategy = .inPlace ∧ tree.sharesNode (.file found.2) place = true

instance (tree : Tree) (strategy : WriteStrategy) (found : Place × File)
    (place : Place) : Decidable (tree.ShowsAt strategy found place) :=
  inferInstanceAs (Decidable (_ ∨ _))

theorem sharesNode_iff (isShared : tree.node? other = some (.file shared)) :
    tree.sharesNode (.file file) other = true ↔
      file.share.isSome = true ∧ shared.share = file.share := by
  simp [sharesNode, isShared, Node.share?]

/-- A file that shows what is written has the contents of the written one. -/
theorem SharesContents.contents_eq (shares : tree.SharesContents)
    (isFile : tree.node? place = some (.file file))
    (isShared : tree.node? other = some (.file shared))
    (shows : tree.ShowsAt strategy (place, file) other) :
    shared.contents = file.contents := by
  rcases shows with rfl | ⟨-, sharesNode⟩
  · rw [isShared] at isFile
    cases isFile
    rfl
  · obtain ⟨isSome, same⟩ := (sharesNode_iff isShared).mp sharesNode
    exact (shares isFile isShared isSome same.symm).symm

/-- What takes the place of a file shows there alone. -/
theorem node?_replace_changed (isFile : tree.node? place = some (.file file))
    (change : File → File) (inner : Place) :
    (tree.replace place (.file (change file))).node? inner =
      if place = inner then (tree.node? inner).map (Node.mapFile change)
      else tree.node? inner := by
  rw [node?_replace_file isFile]
  by_cases same : place = inner
  · rw [if_pos same.symm, if_pos same, ← same, isFile]
    rfl
  · rw [if_neg (Ne.symm same), if_neg same]

/-- A write changes the file where it shows and nothing else. -/
theorem node?_writeAt_shown (isFile : tree.node? place = some (.file file))
    (contents : List UInt8) (strategy : WriteStrategy) (inner : Place) :
    (tree.writeAt place file contents strategy).node? inner =
      if tree.ShowsAt strategy (place, file) inner then
        (tree.node? inner).map (Node.mapFile (File.rewritten strategy contents))
      else tree.node? inner := by
  cases strategy with
  | atomic =>
      have shows : tree.ShowsAt .atomic (place, file) inner ↔ place = inner :=
        by simp [ShowsAt]
      simp only [shows]
      exact node?_replace_changed isFile (File.rewritten .atomic contents) inner
  | inPlace =>
      rw [writeAt, changeFile]
      split
      · rename_i isShare
        have shows : tree.ShowsAt .inPlace (place, file) inner ↔
            place = inner := by
          refine or_iff_left fun sharing => ?_
          have noShare := sharing.2
          simp [sharesNode, Node.share?, isShare] at noShare
        simp only [shows]
        exact node?_replace_changed isFile (File.rewritten .inPlace contents)
          inner
      · rename_i share isShare
        rw [node?_mapFiles]
        cases isNode : tree.node? inner with
        | none => split <;> rfl
        | some node =>
            cases node with
            | directory => split <;> rfl
            | link target linkShare => split <;> rfl
            | file present =>
                have shows : tree.ShowsAt .inPlace (place, file) inner ↔
                    present.share = some share := by
                  rw [ShowsAt, sharesNode_iff isNode, isShare]
                  constructor
                  · rintro (rfl | ⟨-, -, same⟩)
                    · rw [isFile] at isNode
                      cases isNode
                      exact isShare
                    · exact same
                  · exact fun same => .inr ⟨rfl, rfl, same⟩
                simp only [shows, Option.map_some, Node.mapFile]
                split <;> rfl

/-- A file that has been written, or left alone, was a file before. -/
theorem exists_before_writeAt (isFile : tree.node? place = some (.file file))
    (isShared : (tree.writeAt place file contents strategy).node? other =
      some (.file shared)) :
    ∃ before, tree.node? other = some (.file before) ∧
      shared = if tree.ShowsAt strategy (place, file) other then
        before.rewritten strategy contents else before := by
  rw [node?_writeAt_shown isFile] at isShared
  split at isShared
  · rename_i shows
    obtain ⟨before, wasFile, isChanged⟩ := mapFile_eq_file.mp isShared
    exact ⟨before, wasFile, by rw [if_pos shows, isChanged]⟩
  · rename_i hidden
    exact ⟨shared, isShared, by rw [if_neg hidden]⟩

/-- Names of one file show the same writes in place. -/
theorem showsAt_of_same_share (isFile : tree.node? place = some (.file file))
    (isBefore : tree.node? inner = some (.file before))
    (isShared : tree.node? other = some (.file shared))
    (isSome : before.share.isSome = true) (same : before.share = shared.share)
    (shows : tree.ShowsAt .inPlace (place, file) inner) :
    tree.ShowsAt .inPlace (place, file) other := by
  refine .inr ⟨rfl, (sharesNode_iff isShared).mpr ?_⟩
  rcases shows with rfl | ⟨-, sharesNode⟩
  · rw [isBefore] at isFile
    cases isFile
    exact ⟨isSome, same.symm⟩
  · obtain ⟨fileShares, sameShare⟩ := (sharesNode_iff isBefore).mp sharesNode
    exact ⟨fileShares, same.symm.trans sameShare⟩

theorem SharesContents.writeAt (shares : tree.SharesContents)
    (isFile : tree.node? place = some (.file file)) (contents : List UInt8)
    (strategy : WriteStrategy) :
    (tree.writeAt place file contents strategy).SharesContents := by
  intro first second firstFile secondFile isFirst isSecond isSome same
  obtain ⟨before, wasFirst, isBefore⟩ := exists_before_writeAt isFile isFirst
  obtain ⟨shared, wasSecond, isShared⟩ := exists_before_writeAt isFile isSecond
  cases strategy with
  | atomic =>
      -- What has just been written is the only name of its file.
      have isOld : ∀ {old new : File} {shows : Prop} [Decidable shows],
          new = (if shows then old.rewritten .atomic contents else old) →
          new.share.isSome = true → new = old := by
        intro old new shows _ isNew isSome
        split at isNew
        · rw [isNew] at isSome
          cases isSome
        · exact isNew
      have firstOld := isOld isBefore isSome
      have secondOld := isOld isShared (same ▸ isSome)
      subst firstOld secondOld
      exact shares wasFirst wasSecond isSome same
  | inPlace =>
      have keepsShare : ∀ {old new : File} {shows : Prop} [Decidable shows],
          new = (if shows then old.rewritten .inPlace contents else old) →
          new.share = old.share := by
        intro old new shows _ isNew
        split at isNew <;> rw [isNew]
        rfl
      have isSomeBefore := keepsShare isBefore ▸ isSome
      have sameBefore : before.share = shared.share := by
        rw [← keepsShare isBefore, same, keepsShare isShared]
      by_cases shows : tree.ShowsAt .inPlace (place, file) first
      · rw [isBefore, isShared, if_pos shows, if_pos (showsAt_of_same_share
          isFile wasFirst wasSecond isSomeBefore sameBefore shows)]
        rfl
      · rw [isBefore, isShared, if_neg shows, if_neg fun showsSecond => shows
          (showsAt_of_same_share isFile wasSecond wasFirst
            (sameBefore ▸ isSomeBefore) sameBefore.symm showsSecond)]
        exact shares wasFirst wasSecond isSomeBefore sameBefore

/-! ### Updates -/

theorem exists_file_of_layout (same : after.layout = tree.layout)
    (isFile : after.node? place = some (.file file)) :
    ∃ before, tree.node? place = some (.file before) := by
  have kinds := node?_of_layout same place
  rw [isFile] at kinds
  obtain ⟨before, wasFile, -⟩ := mapFile_eq_file.mp kinds.symm
  exact ⟨before, wasFile⟩

/-- What an update leaves: the tree as it was, or with the file written that the
path leads to. -/
theorem updateFile_cases (tree : Tree) (path : Path)
    (substitutions : List Substitution) (strategy : WriteStrategy) :
    ((updateFile path substitutions strategy tree).tree = tree ∧
        ∀ place file,
          (updateFile path substitutions strategy tree).answer.isOk = true →
          tree.fileAt path = .ok (place, file) →
          Substitution.inContents substitutions file.contents =
            file.contents) ∨
      ∃ place file replacements,
        tree.fileAt path = .ok (place, file) ∧
        (updateFile path substitutions strategy tree).answer =
          .ok (.changed replacements) ∧
        (updateFile path substitutions strategy tree).tree =
          tree.writeAt place file
            (Substitution.inContents substitutions file.contents)
            strategy := by
  have exit := updateFile_exits path substitutions strategy tree
  generalize tree.fileAt path = found at exit ⊢
  generalize updateFile path substitutions strategy tree = effect at exit ⊢
  cases exit with
  | unreadable => exact .inl ⟨rfl, fun _ _ isOk => by cases isOk⟩
  | undecodable noText sought => exact .inl ⟨rfl, fun _ _ isOk => by cases isOk⟩
  | foreign noText unsought =>
      refine .inl ⟨rfl, ?_⟩
      rintro _ _ - ⟨⟩
      rw [Substitution.inContents, noText]
  | settled decoded same =>
      refine .inl ⟨rfl, ?_⟩
      rintro _ _ - ⟨⟩
      rw [Substitution.inContents, decoded]
      dsimp only
      rw [same, Utf8.encode_of_decode? decoded]
  | guarded decoded changes readOnly =>
      exact .inl ⟨rfl, fun _ _ isOk => by cases isOk⟩
  | refused decoded changes writable isAtomic refusal =>
      exact .inl ⟨rfl, fun _ _ isOk => by cases isOk⟩
  | @written place file text _ decoded changes writable can =>
      refine .inr ⟨place, file, _, rfl, rfl, ?_⟩
      rw [Substitution.inContents, decoded]

theorem SharesContents.updateFile (shares : tree.SharesContents) (path : Path)
    (substitutions : List Substitution) (strategy : WriteStrategy) :
    (updateFile path substitutions strategy tree).tree.SharesContents := by
  rcases updateFile_cases tree path substitutions strategy with
    ⟨same, -⟩ | ⟨place, file, replacements, found, -, written⟩
  · rwa [same]
  · rw [written]
    exact shares.writeAt (fileAt_eq_ok.mp found).2 _ strategy

/-- A path leads to a file, and what is written there shows at a place. -/
def reaches (tree : Tree) (strategy : WriteStrategy) (path : Path)
    (place : Place) : Bool :=
  match tree.fileAt path with
  | .ok found => decide (tree.ShowsAt strategy found place)
  | .error _ => false

/-- An update that does not fail applies the substitutions to the files that it
reaches and leaves all others alone. -/
theorem exists_updated (shares : tree.SharesContents)
    (isFile : tree.node? place = some (.file file)) (path : Path)
    (substitutions : List Substitution) (strategy : WriteStrategy) :
    ∃ next, (updateFile path substitutions strategy tree).tree.node? place =
        some (.file next) ∧
      next.contents =
        if (updateFile path substitutions strategy tree).answer.isOk &&
            tree.reaches strategy path place then
          Substitution.inContents substitutions file.contents
        else file.contents := by
  rcases updateFile_cases tree path substitutions strategy with
    ⟨same, settled⟩ | ⟨written, found, replacements, isFound, answer, wrote⟩
  · refine ⟨file, by rw [same, isFile], ?_⟩
    split
    · rename_i visited
      obtain ⟨isOk, reached⟩ := Bool.and_eq_true_iff.mp visited
      rw [reaches] at reached
      split at reached
      · rename_i found isFound
        rw [decide_eq_true_eq] at reached
        rw [shares.contents_eq (fileAt_eq_ok.mp isFound).2 isFile reached]
        exact (settled _ _ isOk isFound).symm
      · cases reached
    · rfl
  · have shown := node?_writeAt_shown (fileAt_eq_ok.mp isFound).2
      (Substitution.inContents substitutions found.contents) strategy place
    rw [wrote, shown, isFile, answer, reaches, isFound]
    by_cases shows : tree.ShowsAt strategy (written, found) place
    · refine ⟨_, by rw [if_pos shows]; rfl, ?_⟩
      have same := shares.contents_eq (fileAt_eq_ok.mp isFound).2 isFile shows
      rw [if_pos (by simp [shows, Except.isOk, Except.toBool]), same]
      cases strategy <;> rfl
    · refine ⟨file, by rw [if_neg shows], ?_⟩
      rw [if_neg (by simp [shows])]

end Tree

end PackageRename
