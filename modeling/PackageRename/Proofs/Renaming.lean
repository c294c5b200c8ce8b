import PackageRename.Job.Stages
import PackageRename.Proofs.FileUpdate
import PackageRename.Proofs.Identifier
import PackageRename.Proofs.Text.Boundaries
import PackageRename.Proofs.Text.Replacing

/-!
# Renamings that can be undone

When the new name and the new descriptor do not occur in a file, and no matches
of the words involved meet, renaming back restores what the file says.
-/

namespace PackageRename

open Text

namespace Substitution

variable {substitution : Substitution} {text : String}

theorem toList_apply (written : substitution.sought ≠ "") :
    (substitution.apply text).toList =
      replace substitution.sought.toList substitution.replacement.toList
        text.toList := by
  rw [apply, if_neg written, String.toList_ofList]

theorem apply_of_absent
    (absent : ¬ substitution.sought.toList <:+: text.toList) :
    substitution.apply text = text := by
  rw [apply]
  split
  · rfl
  · rw [replace_of_absent absent, String.ofList_toList]

theorem applyAll_cons (rest : List Substitution) :
    (applyAll (substitution :: rest) text).1 =
      (applyAll rest (substitution.apply text)).1 := rfl

theorem applyAll_of_absent {substitutions : List Substitution}
    (absent : ∀ substitution ∈ substitutions,
      ¬ substitution.sought.toList <:+: text.toList) :
    (applyAll substitutions text).1 = text := by
  induction substitutions with
  | nil => rfl
  | cons first rest induction =>
      rw [applyAll_cons, apply_of_absent (absent first List.mem_cons_self)]
      exact induction fun other member =>
        absent other (List.mem_cons_of_mem _ member)

/-- Bytes without the sought bytes are no text with the sought text. -/
theorem not_infix_of_bytes (substitution : Substitution)
    {contents : List UInt8} (decoded : Utf8.decode? contents = some text)
    (written : substitution.sought ≠ "")
    (absent : substitution.occursInBytes contents = false) :
    ¬ substitution.sought.toList <:+: text.toList := by
  intro inside
  have sought : (substitution.sought != "") = true := by simpa using written
  rw [occursInBytes, sought, Bool.true_and, occursIn_eq_false_iff] at absent
  rw [← Utf8.encode_of_decode? decoded] at absent
  exact absent (Utf8.encode_infix_iff.mpr inside)

end Substitution

namespace File

/-- What a file says and who may write it. -/
def plain (file : File) : File :=
  File.fresh file.contents file.mode

variable {file : File} {strategy : WriteStrategy}
variable {substitutions back : List Substitution}

theorem revised_of_binary (binary : Utf8.decode? file.contents = none) :
    file.revised strategy substitutions = file := by
  rw [revised, binary]

theorem revised_of_readOnly (readOnly : file.isReadOnly = true) :
    file.revised strategy substitutions = file := by
  rw [revised]
  split
  · rfl
  · exact if_pos (.inr readOnly)

/-- A text that can be written gets what the substitutions make of it. -/
theorem contents_revised {text : String}
    (decoded : Utf8.decode? file.contents = some text)
    (writable : file.isReadOnly = false) :
    (file.revised strategy substitutions).contents =
      Utf8.encode (Substitution.applyAll substitutions text).1 := by
  rw [revised, decoded]
  simp only [writable, Bool.false_eq_true, or_false]
  split
  · rename_i unchanged
    rw [unchanged, Utf8.encode_of_decode? decoded]
  · cases strategy <;> rfl

theorem isReadOnly_revised :
    (file.revised strategy substitutions).isReadOnly = file.isReadOnly := by
  rw [isReadOnly, mode_revised]
  rfl

/-- Substitutions undo what others have made of a file.  There is something to
change back just if there has been something to change. -/
structure IsUndone (strategy : WriteStrategy)
    (substitutions back : List Substitution) (file : File) : Prop where
  revisable : (file.revised strategy substitutions).IsRevisable back
  changes_iff : (file.revised strategy substitutions).HasToChange back ↔
    file.HasToChange substitutions ∧ file.isReadOnly = false
  plain : ((file.revised strategy substitutions).revised strategy back).plain =
    file.plain

/-- A file that is left alone on the way there and on the way back. -/
theorem isUndone_of_kept
    (kept : file.revised strategy substitutions = file)
    (keptBack : file.revised strategy back = file)
    (revisable : file.IsRevisable back)
    (settled : ¬ file.HasToChange back)
    (unwritten : ¬ (file.HasToChange substitutions ∧ file.isReadOnly = false)) :
    file.IsUndone strategy substitutions back := by
  refine ⟨?_, ?_, ?_⟩
  · rwa [kept]
  · rw [kept]
    exact iff_of_false settled unwritten
  · rw [kept, keptBack]

/-- An update can be undone by substitutions that undo it in every text and seek
what was not there. -/
theorem isUndone
    (written : ∀ substitution ∈ back, substitution.sought ≠ "")
    (absent : ∀ substitution ∈ back,
      substitution.occursInBytes file.contents = false)
    (undone : ∀ text, Utf8.decode? file.contents = some text →
      (Substitution.applyAll back
        (Substitution.applyAll substitutions text).1).1 = text) :
    file.IsUndone strategy substitutions back := by
  cases decoded : Utf8.decode? file.contents with
  | none =>
      refine isUndone_of_kept (revised_of_binary decoded)
        (revised_of_binary decoded) ?_ (not_hasToChange decoded)
        fun changes => not_hasToChange decoded changes.1
      rw [IsRevisable, decoded]
      exact absent
  | some text =>
      cases writable : file.isReadOnly with
      | true =>
          have untouched : (Substitution.applyAll back text).1 = text :=
            Substitution.applyAll_of_absent fun substitution member =>
              substitution.not_infix_of_bytes decoded (written _ member)
                (absent _ member)
          refine isUndone_of_kept (revised_of_readOnly writable)
            (revised_of_readOnly writable) ?_ ?_ ?_
          · rw [IsRevisable, decoded]
            exact .inl untouched
          · rw [hasToChange_iff decoded]
            exact not_not_intro untouched
          · rw [writable]
            exact fun changes => Bool.false_ne_true changes.2.symm
      | false =>
          have isText : Utf8.decode?
              (file.revised strategy substitutions).contents =
              some (Substitution.applyAll substitutions text).1 := by
            rw [contents_revised decoded writable]
            exact Utf8.decode?_encode _
          have stillWritable :
              (file.revised strategy substitutions).isReadOnly = false :=
            isReadOnly_revised.trans writable
          refine ⟨?_, ?_, ?_⟩
          · rw [IsRevisable, isText]
            exact .inr stillWritable
          · rw [hasToChange_iff isText, hasToChange_iff decoded,
              undone text decoded, writable]
            simp [eq_comm]
          · rw [plain, contents_revised isText stillWritable,
              undone text decoded, Utf8.encode_of_decode? decoded,
              mode_revised, mode_revised]
            rfl

end File

namespace Renaming

/-- The renaming back. -/
def swap (names : Renaming) : Renaming :=
  ⟨names.target, names.source⟩

/-- The new words have no border, and no matches of a name meet those of the
other descriptors. -/
structure IsReversible (names : Renaming) : Prop where
  descriptorNoBorder : NoBorder names.target.descriptor.toList
  nameNoBorder : NoBorder names.target.name.toList
  oldName : Separate names.source.name.toList names.target.descriptor.toList
  newName : Separate names.target.name.toList names.target.descriptor.toList
  oldDescriptor : Separate names.target.name.toList
    names.source.descriptor.toList

/-- The file holds neither form of the new name. -/
structure IsAbsentFrom (names : Renaming) (file : File) : Prop where
  noDescriptor :
    occursIn (Utf8.encode names.target.descriptor) file.contents = false
  noName : occursIn (Utf8.encode names.target.name) file.contents = false

variable {names : Renaming} {text : String} {file : File}

theorem descriptor_ne_empty (identifier : Identifier) :
    identifier.descriptor ≠ "" := by
  intro empty
  have characters := congrArg String.toList empty
  rw [Identifier.descriptor, String.toList_ofList] at characters
  cases characters

theorem toList_ne_nil {word : String} (written : word ≠ "") :
    word.toList ≠ [] := fun empty => written (String.toList_eq_nil_iff.mp empty)

theorem toList_applyAll_inText (sourceWritten : names.source.name ≠ "")
    (text : String) :
    (Substitution.applyAll names.inText text).1.toList =
        replace names.source.name.toList names.target.name.toList
          text.toList ∧
      (Substitution.applyAll names.inText text).2 =
        count names.source.name.toList text.toList :=
  ⟨Substitution.toList_apply sourceWritten, if_neg sourceWritten⟩

theorem toList_applyAll_inBytecode (sourceWritten : names.source.name ≠ "")
    (text : String) :
    (Substitution.applyAll names.inBytecode text).1.toList =
        replace names.source.name.toList names.target.name.toList
          (replace names.source.descriptor.toList
            names.target.descriptor.toList text.toList) ∧
      (Substitution.applyAll names.inBytecode text).2 =
        count names.source.descriptor.toList text.toList +
          count names.source.name.toList
            (replace names.source.descriptor.toList
              names.target.descriptor.toList text.toList) := by
  have descriptorWritten := descriptor_ne_empty names.source
  obtain ⟨replaced, counted⟩ := toList_applyAll_inText sourceWritten
    (Substitution.apply ⟨names.source.descriptor, names.target.descriptor⟩ text)
  rw [Substitution.toList_apply descriptorWritten] at replaced counted
  refine ⟨replaced, ?_⟩
  rw [← counted, ← if_neg descriptorWritten (t := 0)
    (e := count names.source.descriptor.toList text.toList)]
  rfl

namespace IsAbsentFrom

theorem descriptor (absent : names.IsAbsentFrom file) (replacement : String) :
    Substitution.occursInBytes ⟨names.target.descriptor, replacement⟩
      file.contents = false := by
  rw [Substitution.occursInBytes, absent.noDescriptor, Bool.and_false]

theorem name (absent : names.IsAbsentFrom file) (replacement : String) :
    Substitution.occursInBytes ⟨names.target.name, replacement⟩
      file.contents = false := by
  rw [Substitution.occursInBytes, absent.noName, Bool.and_false]

theorem not_infix_descriptor (absent : names.IsAbsentFrom file)
    (decoded : Utf8.decode? file.contents = some text) :
    ¬ names.target.descriptor.toList <:+: text.toList :=
  Substitution.not_infix_of_bytes
    ⟨names.target.descriptor, names.source.descriptor⟩ decoded
    (descriptor_ne_empty names.target) (absent.descriptor _)

theorem not_infix_name (absent : names.IsAbsentFrom file)
    (targetWritten : names.target.name ≠ "")
    (decoded : Utf8.decode? file.contents = some text) :
    ¬ names.target.name.toList <:+: text.toList :=
  Substitution.not_infix_of_bytes ⟨names.target.name, names.source.name⟩
    decoded targetWritten (absent.name _)

end IsAbsentFrom

section Undone

variable (reversible : names.IsReversible)
variable (sourceWritten : names.source.name ≠ "")
variable (targetWritten : names.target.name ≠ "")

include reversible sourceWritten targetWritten

theorem applyAll_swap_inText
    (noName : ¬ names.target.name.toList <:+: text.toList) :
    (Substitution.applyAll names.swap.inText
      (Substitution.applyAll names.inText text).1).1 = text := by
  change Substitution.apply ⟨names.target.name, names.source.name⟩
    (Substitution.apply ⟨names.source.name, names.target.name⟩ text) = text
  apply String.toList_injective
  rw [Substitution.toList_apply targetWritten,
    Substitution.toList_apply sourceWritten]
  exact replace_replace (toList_ne_nil sourceWritten)
    (toList_ne_nil targetWritten) reversible.nameNoBorder noName

theorem applyAll_swap_inBytecode
    (noDescriptor : ¬ names.target.descriptor.toList <:+: text.toList)
    (noName : ¬ names.target.name.toList <:+: text.toList) :
    (Substitution.applyAll names.swap.inBytecode
      (Substitution.applyAll names.inBytecode text).1).1 = text := by
  change Substitution.apply ⟨names.target.name, names.source.name⟩
    (Substitution.apply ⟨names.target.descriptor, names.source.descriptor⟩
      (Substitution.apply ⟨names.source.name, names.target.name⟩
        (Substitution.apply ⟨names.source.descriptor, names.target.descriptor⟩
          text))) = text
  apply String.toList_injective
  rw [Substitution.toList_apply targetWritten,
    Substitution.toList_apply (descriptor_ne_empty names.target),
    Substitution.toList_apply sourceWritten,
    Substitution.toList_apply (descriptor_ne_empty names.source)]
  exact replace_pair_replace_pair
    (toList_ne_nil (descriptor_ne_empty names.source))
    (toList_ne_nil (descriptor_ne_empty names.target))
    (toList_ne_nil sourceWritten) (toList_ne_nil targetWritten)
    reversible.descriptorNoBorder reversible.nameNoBorder reversible.oldName
    reversible.newName reversible.oldDescriptor noDescriptor noName

theorem swap_inText (strategy : WriteStrategy)
    (absent : names.IsAbsentFrom file) :
    file.IsUndone strategy names.inText names.swap.inText := by
  have sought : ∀ substitution ∈ names.swap.inText,
      substitution = ⟨names.target.name, names.source.name⟩ := by
    intro substitution member
    exact List.mem_singleton.mp member
  apply File.isUndone
  · intro substitution member
    rw [sought substitution member]
    exact targetWritten
  · intro substitution member
    rw [sought substitution member]
    exact absent.name _
  · intro text decoded
    exact applyAll_swap_inText reversible sourceWritten targetWritten
      (absent.not_infix_name targetWritten decoded)

theorem swap_inBytecode (strategy : WriteStrategy)
    (absent : names.IsAbsentFrom file) :
    file.IsUndone strategy names.inBytecode names.swap.inBytecode := by
  have sought : ∀ substitution ∈ names.swap.inBytecode,
      substitution = ⟨names.target.descriptor, names.source.descriptor⟩ ∨
        substitution = ⟨names.target.name, names.source.name⟩ := by
    intro substitution member
    rcases List.mem_cons.mp member with isDescriptor | isName
    · exact .inl isDescriptor
    · exact .inr (List.mem_singleton.mp isName)
  apply File.isUndone
  · intro substitution member
    rcases sought substitution member with isDescriptor | isName
    · rw [isDescriptor]
      exact descriptor_ne_empty names.target
    · rw [isName]
      exact targetWritten
  · intro substitution member
    rcases sought substitution member with isDescriptor | isName
    · rw [isDescriptor]
      exact absent.descriptor _
    · rw [isName]
      exact absent.name _
  · intro text decoded
    exact applyAll_swap_inBytecode reversible sourceWritten targetWritten
      (absent.not_infix_descriptor decoded)
      (absent.not_infix_name targetWritten decoded)

end Undone

end Renaming

end PackageRename
