import PackageRename.Proofs.Tree.Sharing

/-!
# What can be relied on when a file is updated

Whichever exit an update takes, its answer tells what the tree holds afterwards:
under the path, under the other names of the file, and everywhere else.
-/

namespace PackageRename

/-- The substitutions have nothing to do in the bytes: a text stays as it is,
and in what is no text nothing is found. -/
def Substitution.LeaveAlone (substitutions : List Substitution)
    (bytes : List UInt8) : Prop :=
  match Utf8.decode? bytes with
  | none => ¬ IsSoughtIn substitutions bytes
  | some text => (applyAll substitutions text).1 = text

namespace Tree

/-- The bytes that are read through a path. -/
def contentsAt (tree : Tree) (path : Path) : Except Fault (List UInt8) :=
  (tree.fileAt path).map fun found => found.2.contents

variable {tree after : Tree} {path : Path} {place inner : Place}
variable {file shared : File} {strategy : WriteStrategy}
variable {contents : List UInt8}

theorem contentsAt_eq_ok (found : tree.fileAt path = .ok (place, file)) :
    tree.contentsAt path = .ok file.contents := by
  rw [contentsAt, found]
  rfl

/-- Why a file is not written: it is read-only, or it is to be replaced and a new
file cannot take its place by absolute paths. -/
def RefusesWrite (tree : Tree) (strategy : WriteStrategy) (path : Path)
    (file : File) (fault : Fault) : Prop :=
  if file.isReadOnly then fault = .readOnly
  else strategy = .atomic ∧ tree.replacedBy path = .error fault

theorem refusesWrite_of_readOnly {fault : Fault}
    (readOnly : file.isReadOnly = true) :
    tree.RefusesWrite strategy path file fault ↔ fault = .readOnly := by
  rw [RefusesWrite, if_pos readOnly]

theorem refusesWrite_of_writable {fault : Fault}
    (writable : file.isReadOnly = false) :
    tree.RefusesWrite strategy path file fault ↔
      strategy = .atomic ∧ tree.replacedBy path = .error fault := by
  rw [RefusesWrite, writable]
  rfl

theorem CanWrite.replacedBy_ne_error (can : tree.CanWrite strategy path)
    (fault : Fault) :
    ¬ (strategy = .atomic ∧ tree.replacedBy path = .error fault) := by
  rintro ⟨isAtomic, refusal⟩
  have replaces := can isAtomic
  rw [refusal] at replaces
  cases replaces

/-- Two places are different names of one file. -/
structure AreNamesOf (tree : Tree) (file shared : File)
    (place other : Place) : Prop where
  different : place ≠ other
  isFile : tree.node? place = some (.file file)
  isOther : tree.node? other = some (.file shared)
  hasNames : file.share.isSome = true
  sameShare : shared.share = file.share

/-- Through the path, contents have been written to the file it leads to, and
nothing else has changed. -/
structure HasWritten (tree : Tree) (path : Path) (place : Place) (file : File)
    (contents : List UInt8) (strategy : WriteStrategy) (after : Tree) :
    Prop where
  found : tree.fileAt path = .ok (place, file)
  /-- The path still leads to the place, where the contents are read.  The mode
  is kept; only a file written in place keeps its other names. -/
  reads : after.fileAt path = .ok (place,
    { contents
      mode := file.mode
      share := match strategy with
        | .inPlace => file.share
        | .atomic => none
      written := true })
  /-- What is written in place shows under the other names of the file; under
  a new file they keep the old one. -/
  names : ∀ inner shared, tree.AreNamesOf file shared place inner →
    after.node? inner = some (.file (match strategy with
      | .inPlace => { shared with contents, written := true }
      | .atomic => shared))
  links : ∀ inner target share,
    after.node? inner = some (.link target share) ↔
      tree.node? inner = some (.link target share)
  elsewhere : ∀ inner, inner ≠ place →
    (∀ shared, ¬ tree.AreNamesOf file shared place inner) →
    after.node? inner = tree.node? inner
  origin : after.origin = tree.origin

theorem fileAt_writeAt (found : tree.fileAt path = .ok (place, file))
    (contents : List UInt8) (strategy : WriteStrategy) :
    (tree.writeAt place file contents strategy).fileAt path =
      .ok (place, file.rewritten strategy contents) := by
  obtain ⟨resolved, isFile⟩ := fileAt_eq_ok.mp found
  refine fileAt_eq_ok.mpr ⟨?_, ?_⟩
  · rwa [resolve_of_layout (layout_writeAt isFile contents strategy)]
  · rw [node?_writeAt_shown isFile, if_pos (.inl rfl), isFile]
    rfl

/-- Away from the place, a write shows under the other names of the file. -/
theorem showsAt_iff_names (strategy : WriteStrategy)
    (isFile : tree.node? place = some (.file file))
    (isShared : tree.node? inner = some (.file shared))
    (elsewhere : inner ≠ place) :
    tree.ShowsAt strategy (place, file) inner ↔
      strategy = .inPlace ∧ tree.AreNamesOf file shared place inner := by
  constructor
  · rintro (same | ⟨inPlace, sharesNode⟩)
    · exact absurd same.symm elsewhere
    · obtain ⟨hasNames, sameShare⟩ := (sharesNode_iff isShared).mp sharesNode
      exact ⟨inPlace, elsewhere.symm, isFile, isShared, hasNames, sameShare⟩
  · rintro ⟨inPlace, areNames⟩
    exact .inr ⟨inPlace, (sharesNode_iff isShared).mpr
      ⟨areNames.hasNames, areNames.sameShare⟩⟩

theorem hasWritten_writeAt (found : tree.fileAt path = .ok (place, file))
    (contents : List UInt8) (strategy : WriteStrategy) :
    tree.HasWritten path place file contents strategy
      (tree.writeAt place file contents strategy) := by
  have isFile := (fileAt_eq_ok.mp found).2
  have nodes := node?_writeAt_shown isFile contents strategy
  refine ⟨found, ?_, fun inner shared areNames => ?_,
    fun inner target share => ?_, fun inner elsewhere unnamed => ?_,
    origin_writeAt place file contents strategy⟩
  · rw [fileAt_writeAt found contents strategy]
    cases strategy <;> rfl
  · have shows := showsAt_iff_names strategy isFile areNames.isOther
      areNames.different.symm
    rw [nodes, areNames.isOther]
    cases strategy with
    | inPlace =>
        rw [if_pos (shows.mpr ⟨rfl, areNames⟩)]
        rfl
    | atomic => rw [if_neg fun shown => nomatch (shows.mp shown).1]
  · rw [nodes]
    split
    · exact mapFile_eq_link
    · rfl
  · rw [nodes]
    split
    · rename_i shows
      cases isNode : tree.node? inner with
      | none => rfl
      | some node =>
          cases node with
          | directory => rfl
          | link target share => rfl
          | file shared =>
              have areNames :=
                (showsAt_iff_names strategy isFile isNode elsewhere).mp shows
              exact absurd areNames.2 (unnamed shared)
    · rfl

namespace UpdateExit

variable {substitutions : List Substitution} {effect : Effect Outcome}
variable {found : Except Fault (Place × File)}
variable (exit : UpdateExit path substitutions strategy tree found effect)
variable (isFound : tree.fileAt path = found)
include exit

theorem keeps (unchanged : ∀ replacements,
    effect.answer ≠ .ok (.changed replacements)) : effect.tree = tree := by
  cases exit with
  | written => exact absurd rfl (unchanged _)
  | _ => rfl

theorem not_move (source target : Path) (fault : Fault) :
    effect.answer ≠ .error (.move source target fault) := by
  cases exit <;> rintro ⟨⟩

include isFound

theorem writes {replacements : Nat}
    (changed : effect.answer = .ok (.changed replacements)) :
    ∃ place file text,
      Utf8.decode? file.contents = some text ∧
      replacements = (Substitution.applyAll substitutions text).2 ∧
      0 < replacements ∧
      tree.HasWritten path place file
        (Utf8.encode (Substitution.applyAll substitutions text).1) strategy
        effect.tree := by
  cases exit with
  | @written place file text _ decoded changes writable can =>
      cases changed
      exact ⟨place, file, text, decoded, rfl,
        Nat.pos_of_ne_zero (changes ∘ Substitution.applyAll_eq_self_of_count),
        hasWritten_writeAt isFound _ strategy⟩
  | _ => cases changed

theorem changed_iff :
    (∃ replacements, effect.answer = .ok (.changed replacements)) ↔
      effect.tree.contentsAt path ≠ tree.contentsAt path := by
  cases exit with
  | @written place file text _ decoded changes writable can =>
      have after := hasWritten_writeAt isFound (Utf8.encode
        (Substitution.applyAll substitutions text).1) strategy
      refine ⟨fun _ same => ?_, fun _ => ⟨_, rfl⟩⟩
      rw [contentsAt_eq_ok after.reads, contentsAt_eq_ok isFound,
        ← Utf8.encode_of_decode? decoded] at same
      exact changes (Utf8.encode_injective (Except.ok.inj same))
  | _ =>
      refine ⟨?_, fun different => absurd rfl different⟩
      rintro ⟨_, ⟨⟩⟩

theorem unchanged_iff :
    effect.answer = .ok .unchanged ↔
      ∃ contents, tree.contentsAt path = .ok contents ∧
        Substitution.LeaveAlone substitutions contents := by
  unfold Substitution.LeaveAlone
  cases exit with
  | unreadable => simp [contentsAt, isFound, Effect.fail, Except.map]
  | undecodable noText sought =>
      simp [contentsAt_eq_ok isFound, noText, sought, Effect.fail]
  | foreign noText unsought =>
      simp [contentsAt_eq_ok isFound, noText, unsought, Effect.succeed]
  | settled decoded same =>
      simp [contentsAt_eq_ok isFound, decoded, same, Effect.succeed]
  | guarded decoded changes readOnly =>
      simp [contentsAt_eq_ok isFound, decoded, changes, Effect.fail]
  | refused decoded changes writable isAtomic refusal =>
      simp [contentsAt_eq_ok isFound, decoded, changes, Effect.fail]
  | written decoded changes writable can =>
      simp [contentsAt_eq_ok isFound, decoded, changes]

theorem undecodable_iff (subject : Path) :
    effect.answer = .error (.undecodable subject) ↔
      subject = path ∧ ∃ contents, tree.contentsAt path = .ok contents ∧
        Utf8.decode? contents = none ∧
        Substitution.IsSoughtIn substitutions contents := by
  cases exit with
  | unreadable => simp [contentsAt, isFound, Effect.fail, Except.map]
  | undecodable noText sought =>
      simp [contentsAt_eq_ok isFound, noText, sought, Effect.fail, eq_comm]
  | foreign noText unsought =>
      simp [contentsAt_eq_ok isFound, unsought, Effect.succeed]
  | settled decoded same =>
      simp [contentsAt_eq_ok isFound, decoded, Effect.succeed]
  | guarded decoded changes readOnly =>
      simp [contentsAt_eq_ok isFound, decoded, Effect.fail]
  | refused decoded changes writable isAtomic refusal =>
      simp [contentsAt_eq_ok isFound, decoded, Effect.fail]
  | written decoded changes writable can =>
      simp [contentsAt_eq_ok isFound, decoded]

theorem io_iff (subject : Path) (fault : Fault) :
    effect.answer = .error (.io subject fault) ↔
      subject = path ∧ (tree.fileAt path = .error fault ∨
        ∃ place file, tree.fileAt path = .ok (place, file) ∧
          file.HasToChange substitutions ∧
          tree.RefusesWrite strategy path file fault) := by
  rw [isFound]
  cases exit with
  | unreadable =>
      constructor
      · rintro ⟨⟩
        exact ⟨rfl, .inl rfl⟩
      · rintro ⟨rfl, same | ⟨_, _, ⟨⟩, -⟩⟩
        cases same
        rfl
  | undecodable noText sought =>
      simp [File.not_hasToChange noText, Effect.fail]
  | foreign noText unsought =>
      simp [File.not_hasToChange noText, Effect.succeed]
  | settled decoded same =>
      simp [File.hasToChange_iff decoded, same, Effect.succeed]
  | guarded decoded changes readOnly =>
      have hasToChange := (File.hasToChange_iff decoded).mpr changes
      simp [hasToChange, refusesWrite_of_readOnly readOnly, Effect.fail, eq_comm]
  | refused decoded changes writable isAtomic refusal =>
      have hasToChange := (File.hasToChange_iff decoded).mpr changes
      simp [hasToChange, refusesWrite_of_writable writable, isAtomic, refusal,
        Effect.fail, eq_comm]
  | written decoded changes writable can =>
      simp [refusesWrite_of_writable writable, can.replacedBy_ne_error]

end UpdateExit

/-- After an update that succeeds, a text reads as the substitutions make it. -/
theorem contentsAt_updateFile {substitutions : List Substitution}
    {text : String} {outcome : Outcome}
    (isFound : tree.fileAt path = .ok (place, file))
    (decoded : Utf8.decode? file.contents = some text)
    (succeeds : (updateFile path substitutions strategy tree).answer =
      .ok outcome) :
    (updateFile path substitutions strategy tree).tree.contentsAt path =
      .ok (Utf8.encode (Substitution.applyAll substitutions text).1) := by
  have exit := updateFile_exits path substitutions strategy tree
  rw [isFound] at exit
  generalize updateFile path substitutions strategy tree = effect
    at exit succeeds ⊢
  cases exit with
  | undecodable noText sought => cases succeeds
  | guarded _ changes readOnly => cases succeeds
  | refused _ changes writable isAtomic refusal => cases succeeds
  | foreign noText unsought =>
      rw [decoded] at noText
      cases noText
  | settled sameText same =>
      rw [decoded] at sameText
      cases sameText
      rw [same, Utf8.encode_of_decode? decoded]
      exact contentsAt_eq_ok isFound
  | written sameText changes writable can =>
      rw [decoded] at sameText
      cases sameText
      exact contentsAt_eq_ok (hasWritten_writeAt isFound _ strategy).reads

/-- What can be relied on when one file is updated. -/
structure UpdateContract (path : Path) (substitutions : List Substitution)
    (strategy : WriteStrategy) (tree : Tree) (effect : Effect Outcome) :
    Prop where
  changes : (∃ replacements, effect.answer = .ok (.changed replacements)) ↔
    effect.tree.contentsAt path ≠ tree.contentsAt path
  /-- What is written is what the substitutions make of the text, and the count
  is theirs. -/
  writes : ∀ replacements, effect.answer = .ok (.changed replacements) →
    ∃ place file text,
      Utf8.decode? file.contents = some text ∧
      replacements = (Substitution.applyAll substitutions text).2 ∧
      0 < replacements ∧
      tree.HasWritten path place file
        (Utf8.encode (Substitution.applyAll substitutions text).1) strategy
        effect.tree
  /-- After any other answer the whole tree is as it was. -/
  keeps : (∀ replacements, effect.answer ≠ .ok (.changed replacements)) →
    effect.tree = tree
  idles : effect.answer = .ok .unchanged ↔
    ∃ contents, tree.contentsAt path = .ok contents ∧
      Substitution.LeaveAlone substitutions contents
  undecodable : ∀ subject, effect.answer = .error (.undecodable subject) ↔
    subject = path ∧ ∃ contents, tree.contentsAt path = .ok contents ∧
      Utf8.decode? contents = none ∧
      Substitution.IsSoughtIn substitutions contents
  /-- An input or output error is a path that leads to no file, or the refusal
  of a write, which is tried only if the text would change. -/
  faults : ∀ subject fault, effect.answer = .error (.io subject fault) ↔
    subject = path ∧ (tree.fileAt path = .error fault ∨
      ∃ place file, tree.fileAt path = .ok (place, file) ∧
        file.HasToChange substitutions ∧
        tree.RefusesWrite strategy path file fault)
  stays : ∀ source target fault,
    effect.answer ≠ .error (.move source target fault)

/-- Every update keeps to the contract, whatever the tree and its links, the
path, the substitutions and the way of writing. -/
theorem updateFile_contract (path : Path) (substitutions : List Substitution)
    (strategy : WriteStrategy) (tree : Tree) :
    UpdateContract path substitutions strategy tree
      (updateFile path substitutions strategy tree) :=
  have exit := updateFile_exits path substitutions strategy tree
  { changes := exit.changed_iff rfl
    writes := fun _ => exit.writes rfl
    keeps := exit.keeps
    idles := exit.unchanged_iff rfl
    undecodable := exit.undecodable_iff rfl
    faults := exit.io_iff rfl
    stays := exit.not_move }

end Tree

end PackageRename
