import PackageRename.FileUpdate
import PackageRename.Proofs.Text.Replacing
import PackageRename.Proofs.Tree.Canonical
import PackageRename.Proofs.Tree.Revising

/-!
# Updating one file

An update takes one of seven exits, and which one it takes is read off the file
that the path leads to.  What it makes of the file follows, and that it changes
nothing else where files have one name each.
-/

namespace PackageRename

namespace Substitution

theorem applyAll_eq_self_of_count {substitutions : List Substitution}
    {text : String} (absent : (applyAll substitutions text).2 = 0) :
    (applyAll substitutions text).1 = text := by
  induction substitutions generalizing text with
  | nil => rfl
  | cons substitution rest induction =>
      rw [applyAll] at absent ⊢
      obtain ⟨first, later⟩ := Nat.add_eq_zero_iff.mp absent
      rw [apply_eq_self_of_count_eq_zero first] at later ⊢
      exact induction later

/-- One of the sought texts that are not empty stands in the bytes. -/
def IsSoughtIn (substitutions : List Substitution)
    (bytes : List UInt8) : Prop :=
  ∃ substitution ∈ substitutions, substitution.sought ≠ "" ∧
    Utf8.encode substitution.sought <:+: bytes

theorem any_occursInBytes_iff {substitutions : List Substitution}
    {bytes : List UInt8} :
    substitutions.any (·.occursInBytes bytes) = true ↔
      IsSoughtIn substitutions bytes := by
  rw [List.any_eq_true]
  refine exists_congr fun substitution => and_congr_right fun _ => ?_
  rw [occursInBytes, Bool.and_eq_true, bne_iff_ne, Text.occursIn_eq_true_iff]

theorem not_isSoughtIn_iff {substitutions : List Substitution}
    {bytes : List UInt8} :
    ¬ IsSoughtIn substitutions bytes ↔
      ∀ substitution ∈ substitutions,
        substitution.occursInBytes bytes = false := by
  rw [← any_occursInBytes_iff, List.any_eq_true]
  simp

end Substitution

namespace File

/-- The file as a write leaves it: only a file written in place keeps its
share. -/
def rewritten (strategy : WriteStrategy) (contents : List UInt8)
    (file : File) : File :=
  match strategy with
  | .inPlace => { file with contents, written := true }
  | .atomic => { file with contents, share := none, written := true }

/-- What an update makes of the file: a text that the substitutions change
gets the new contents, and any other file stays as it is. -/
def revised (strategy : WriteStrategy) (substitutions : List Substitution)
    (file : File) : File :=
  match Utf8.decode? file.contents with
  | none => file
  | some text =>
      let updated := (Substitution.applyAll substitutions text).1
      if updated = text ∨ file.isReadOnly then file
      else file.rewritten strategy (Utf8.encode updated)

/-- The substitutions change the text of the file. -/
def HasToChange (substitutions : List Substitution) (file : File) : Prop :=
  ∃ text, Utf8.decode? file.contents = some text ∧
    (Substitution.applyAll substitutions text).1 ≠ text

/-- Whether there is nothing in the file that an update fails for: a text that
has to change is not read-only, and no other file holds a sought text. -/
def IsRevisable (substitutions : List Substitution) (file : File) : Prop :=
  match Utf8.decode? file.contents with
  | none => ∀ substitution ∈ substitutions,
      substitution.occursInBytes file.contents = false
  | some text =>
      (Substitution.applyAll substitutions text).1 = text ∨
        file.isReadOnly = false

variable {strategy : WriteStrategy} {substitutions : List Substitution}
variable {file : File}

theorem revised_cases (strategy : WriteStrategy)
    (substitutions : List Substitution) (file : File) :
    file.revised strategy substitutions = file ∨
      ∃ contents, file.revised strategy substitutions =
        file.rewritten strategy contents := by
  unfold revised
  split
  · exact .inl rfl
  · dsimp only
    split
    · exact .inl rfl
    · exact .inr ⟨_, rfl⟩

theorem hasToChange_iff {text : String}
    (decoded : Utf8.decode? file.contents = some text) :
    file.HasToChange substitutions ↔
      (Substitution.applyAll substitutions text).1 ≠ text := by
  rw [HasToChange, decoded]
  simp only [Option.some.injEq, exists_eq_left']

theorem not_hasToChange (noText : Utf8.decode? file.contents = none) :
    ¬ file.HasToChange substitutions := by
  rintro ⟨text, decoded, -⟩
  rw [noText] at decoded
  cases decoded

theorem revised_eq_self (same : ¬ file.HasToChange substitutions) :
    file.revised strategy substitutions = file := by
  unfold revised
  split
  · rfl
  · rename_i text decoded
    rw [hasToChange_iff decoded, not_not] at same
    exact if_pos (.inl same)

/-- What has to change and can be revised can be written. -/
theorem IsRevisable.writable (revisable : file.IsRevisable substitutions)
    (changes : file.HasToChange substitutions) : file.isReadOnly = false := by
  obtain ⟨text, decoded, different⟩ := changes
  rw [IsRevisable, decoded] at revisable
  exact revisable.resolve_left different

theorem mode_revised :
    (file.revised strategy substitutions).mode = file.mode := by
  rcases revised_cases strategy substitutions file with
    same | ⟨contents, isRewritten⟩
  · rw [same]
  · rw [isRewritten]
    cases strategy <;> rfl

theorem share_revised :
    (file.revised strategy substitutions).share = file.share ∨
      (file.revised strategy substitutions).share = none := by
  rcases revised_cases strategy substitutions file with
    same | ⟨contents, isRewritten⟩
  · exact .inl (by rw [same])
  · rw [isRewritten]
    cases strategy
    · exact .inr rfl
    · exact .inl rfl

end File

namespace Tree

variable {tree other : Tree} {path : Path} {place : Place} {file : File}
variable {strategy : WriteStrategy} {substitutions : List Substitution}

/-! ### The answer -/

theorem fileAt_eq_ok :
    tree.fileAt path = .ok (place, file) ↔
      tree.resolve path = .ok place ∧
        tree.node? place = some (.file file) := by
  constructor
  · exact node?_of_fileAt
  · rintro ⟨resolved, isFile⟩
    rw [fileAt, resolved]
    simp [bind, Except.bind, isFile, pure, Except.pure]

theorem updateFile_of_missing {fault : Fault}
    (missing : tree.fileAt path = .error fault) :
    updateFile path substitutions strategy tree =
      .fail tree (.io path fault) := by
  rw [updateFile, missing]

/-- The exits of an update, for what the path leads to. -/
inductive UpdateExit (path : Path) (substitutions : List Substitution)
    (strategy : WriteStrategy) (tree : Tree) :
    Except Fault (Place × File) → Effect Outcome → Prop where
  | unreadable {fault : Fault} :
      UpdateExit path substitutions strategy tree (.error fault)
        (.fail tree (.io path fault))
  | undecodable {place : Place} {file : File}
      (noText : Utf8.decode? file.contents = none)
      (sought : Substitution.IsSoughtIn substitutions file.contents) :
      UpdateExit path substitutions strategy tree (.ok (place, file))
        (.fail tree (.undecodable path))
  | foreign {place : Place} {file : File}
      (noText : Utf8.decode? file.contents = none)
      (unsought : ¬ Substitution.IsSoughtIn substitutions file.contents) :
      UpdateExit path substitutions strategy tree (.ok (place, file))
        (.succeed tree .unchanged)
  | settled {place : Place} {file : File} {text : String}
      (decoded : Utf8.decode? file.contents = some text)
      (same : (Substitution.applyAll substitutions text).1 = text) :
      UpdateExit path substitutions strategy tree (.ok (place, file))
        (.succeed tree .unchanged)
  | guarded {place : Place} {file : File} {text : String}
      (decoded : Utf8.decode? file.contents = some text)
      (changes : (Substitution.applyAll substitutions text).1 ≠ text)
      (readOnly : file.isReadOnly = true) :
      UpdateExit path substitutions strategy tree (.ok (place, file))
        (.fail tree (.io path .readOnly))
  /-- No new file can take the place of this one. -/
  | refused {place : Place} {file : File} {text : String} {fault : Fault}
      (decoded : Utf8.decode? file.contents = some text)
      (changes : (Substitution.applyAll substitutions text).1 ≠ text)
      (writable : file.isReadOnly = false) (isAtomic : strategy = .atomic)
      (refusal : tree.replacedBy path = .error fault) :
      UpdateExit path substitutions strategy tree (.ok (place, file))
        (.fail tree (.io path fault))
  | written {place : Place} {file : File} {text : String}
      {log : List LogRecord}
      (decoded : Utf8.decode? file.contents = some text)
      (changes : (Substitution.applyAll substitutions text).1 ≠ text)
      (writable : file.isReadOnly = false)
      (can : tree.CanWrite strategy path) :
      UpdateExit path substitutions strategy tree (.ok (place, file))
        { answer :=
            .ok (.changed (Substitution.applyAll substitutions text).2)
          tree := tree.writeAt place file
            (Utf8.encode (Substitution.applyAll substitutions text).1) strategy
          log }

theorem write_of_canWrite (resolved : tree.resolve path = .ok place)
    (can : tree.CanWrite strategy path) (contents : List UInt8) :
    tree.write path place file contents strategy =
      .ok (tree.writeAt place file contents strategy) := by
  cases strategy with
  | inPlace => rfl
  | atomic =>
      cases replaces : tree.replacedBy path with
      | error fault => simp [CanWrite, replaces, Except.isOk, Except.toBool] at can
      | ok home =>
          rw [write, replaces,
            place_eq_of_canonical (replacedBy_eq_ok.mp replaces).1 resolved]
          rfl

theorem write_of_refused {fault : Fault}
    (refusal : tree.replacedBy path = .error fault) (contents : List UInt8) :
    tree.write path place file contents .atomic = .error fault := by
  rw [write, refusal]
  rfl

/-- Every update takes one of the exits. -/
theorem updateFile_exits (path : Path) (substitutions : List Substitution)
    (strategy : WriteStrategy) (tree : Tree) :
    UpdateExit path substitutions strategy tree (tree.fileAt path)
      (updateFile path substitutions strategy tree) := by
  rw [updateFile]
  split
  · rename_i missing
    rw [missing]
    exact .unreadable
  rename_i place file found
  rw [found]
  split
  · rename_i noText
    split
    · rename_i sought
      exact .undecodable noText (Substitution.any_occursInBytes_iff.mp sought)
    · rename_i unsought
      exact .foreign noText fun sought =>
        unsought (Substitution.any_occursInBytes_iff.mpr sought)
  rename_i text decoded
  dsimp only
  split
  · rename_i unchanged
    exact .settled decoded
      (unchanged.elim Substitution.applyAll_eq_self_of_count id)
  rename_i changed
  have changes : (Substitution.applyAll substitutions text).1 ≠ text :=
    fun same => changed (.inr same)
  split
  · rename_i readOnly
    exact .guarded decoded changes readOnly
  rename_i writable
  have notReadOnly := Bool.eq_false_iff.mpr writable
  by_cases can : tree.CanWrite strategy path
  · rw [write_of_canWrite (fileAt_eq_ok.mp found).1 can]
    exact .written decoded changes notReadOnly can
  · obtain ⟨isAtomic, refused⟩ := Classical.not_imp.mp can
    cases refusal : tree.replacedBy path with
    | ok home => simp [refusal, Except.isOk, Except.toBool] at refused
    | error fault =>
        rw [isAtomic, write_of_refused refusal]
        exact .refused decoded changes notReadOnly rfl refusal

/-- Whether an update succeeds depends on the file, and if its text has to
change, on whether it can be written. -/
theorem updateFile_isOk_iff (found : tree.fileAt path = .ok (place, file)) :
    (updateFile path substitutions strategy tree).answer.isOk = true ↔
      file.IsRevisable substitutions ∧
        (file.HasToChange substitutions → tree.CanWrite strategy path) := by
  have exit := updateFile_exits path substitutions strategy tree
  rw [found] at exit
  generalize updateFile path substitutions strategy tree = effect at exit ⊢
  rw [File.IsRevisable]
  cases exit with
  | undecodable noText sought =>
      rw [noText]
      refine ⟨nofun, fun absent => ?_⟩
      exact absurd sought (Substitution.not_isSoughtIn_iff.mpr absent.1)
  | foreign noText unsought =>
      rw [noText]
      exact iff_of_true rfl ⟨Substitution.not_isSoughtIn_iff.mp unsought,
        fun changes => absurd changes (File.not_hasToChange noText)⟩
  | settled decoded same =>
      rw [decoded]
      exact iff_of_true rfl ⟨.inl same, fun changes =>
        absurd same ((File.hasToChange_iff decoded).mp changes)⟩
  | guarded decoded changes readOnly =>
      rw [decoded]
      simp [Effect.fail, Except.isOk, Except.toBool, changes, readOnly]
  | refused decoded changes writable isAtomic refusal =>
      refine iff_of_false nofun ?_
      rintro ⟨-, can⟩
      have replaces := can ((File.hasToChange_iff decoded).mpr changes) isAtomic
      rw [refusal] at replaces
      cases replaces
  | written decoded changes writable can =>
      rw [decoded]
      exact iff_of_true rfl ⟨.inr writable, fun _ => can⟩

/-! ### The tree -/

theorem node?_changeFile (free : tree.IsLinkFree)
    (isFile : tree.node? place = some (.file file)) {change : File → File}
    (inner : Place) :
    (tree.changeFile place file change).node? inner =
      if inner = place then some (.file (change file))
      else tree.node? inner := by
  rw [changeFile]
  cases isShare : file.share with
  | none => exact node?_replace_file isFile inner
  | some share =>
      simp only
      rw [node?_mapFiles]
      split
      · rename_i same
        rw [same, isFile]
        simp [Node.mapFile, isShare]
      · rename_i different
        cases isNode : tree.node? inner with
        | none => rfl
        | some node =>
            cases node with
            | directory => rfl
            | link target share => rfl
            | file present =>
                rw [Option.map_some, Node.mapFile, if_neg]
                intro same
                exact different (free.unshared isNode isFile
                  (by rw [same]; rfl) (same.trans isShare.symm))

theorem node?_writeAt (free : tree.IsLinkFree)
    (isFile : tree.node? place = some (.file file)) (contents : List UInt8)
    (strategy : WriteStrategy) (inner : Place) :
    (tree.writeAt place file contents strategy).node? inner =
      if inner = place then some (.file (file.rewritten strategy contents))
      else tree.node? inner := by
  cases strategy with
  | atomic => exact node?_replace_file isFile inner
  | inPlace => exact node?_changeFile free isFile inner

theorem origin_writeAt (place : Place) (file : File) (contents : List UInt8)
    (strategy : WriteStrategy) :
    (tree.writeAt place file contents strategy).origin = tree.origin := by
  cases strategy with
  | atomic => exact origin_replace _ _
  | inPlace =>
      rw [writeAt, changeFile]
      split
      · exact origin_replace _ _
      · rfl

/-- An update changes the file it finds, if it can be written, and nothing
else. -/
theorem hasRevised_updateFile (free : tree.IsLinkFree)
    (found : tree.fileAt path = .ok (place, file)) :
    tree.HasRevised (File.revised strategy substitutions)
      (fun inner => inner = place ∧ tree.CanWrite strategy path)
      (updateFile path substitutions strategy tree).tree := by
  have isFile := (fileAt_eq_ok.mp found).2
  have keeps : file.revised strategy substitutions = file →
      tree.HasRevised (File.revised strategy substitutions)
        (fun inner => inner = place ∧ tree.CanWrite strategy path) tree := by
    intro same
    refine ⟨rfl, fun inner isPart => ?_, fun _ _ => rfl⟩
    rw [isPart.1, isFile, Option.map_some, Node.mapFile, same]
  have exit := updateFile_exits path substitutions strategy tree
  rw [found] at exit
  generalize updateFile path substitutions strategy tree = effect at exit ⊢
  cases exit with
  | undecodable noText sought =>
      apply keeps
      rw [File.revised, noText]
  | foreign noText unsought =>
      apply keeps
      rw [File.revised, noText]
  | settled decoded same =>
      apply keeps
      simp [File.revised, decoded, same]
  | guarded decoded changes readOnly =>
      apply keeps
      simp [File.revised, decoded, readOnly]
  | refused decoded changes writable isAtomic refusal =>
      refine ⟨rfl, fun inner isPart => ?_, fun _ _ => rfl⟩
      have replaces := isPart.2 isAtomic
      rw [refusal] at replaces
      cases replaces
  | @written _ _ text _ decoded changes writable can =>
      have revised : file.revised strategy substitutions =
          file.rewritten strategy (Utf8.encode
            (Substitution.applyAll substitutions text).1) := by
        simp [File.revised, decoded, changes, writable]
      have nodes := node?_writeAt free isFile (Utf8.encode
        (Substitution.applyAll substitutions text).1) strategy
      refine ⟨origin_writeAt _ _ _ _, fun inner isPart => ?_,
        fun inner elsewhere => ?_⟩
      · rw [nodes, if_pos isPart.1, isPart.1, isFile, Option.map_some,
          Node.mapFile, revised]
      · rw [nodes, if_neg fun isPlace => elsewhere ⟨isPlace, can⟩]

end Tree

end PackageRename
