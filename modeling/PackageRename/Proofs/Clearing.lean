import PackageRename.Proofs.Occurrences
import PackageRename.Proofs.Tree.Orderly
import PackageRename.Proofs.Tree.Sharing

/-!
# Renamings that leave nothing behind

When no matches of the old words meet the words that take their place, nothing
of the old words is left in a text, and there is nothing to replace a second
time.  This goes for every list of substitutions and so for those of a renaming.
A file that has been updated is then free of it, under whatever name it has been
visited, and stays so in later updates.
-/

namespace PackageRename

open Text

namespace Substitution

/-- Whatever the text is, nothing of what is sought is left in it. -/
def Clear (substitutions : List Substitution) : Prop :=
  ∀ text, ∀ substitution ∈ substitutions,
    ¬ substitution.sought.toList <:+: (applyAll substitutions text).1.toList

theorem Clear.written {substitutions : List Substitution}
    (clear : Clear substitutions) {substitution : Substitution}
    (member : substitution ∈ substitutions) : substitution.sought ≠ "" := by
  intro empty
  apply clear "" substitution member
  rw [empty]
  exact List.nil_infix

/-- No match of a word that is sought meets what takes its place, nor what a
later substitution brings in. -/
structure AreSettling (substitutions : List Substitution) : Prop where
  written : ∀ substitution ∈ substitutions, substitution.sought ≠ ""
  own : ∀ substitution ∈ substitutions,
    Separate substitution.sought.toList substitution.replacement.toList
  later : substitutions.Pairwise fun first later =>
    Separate first.sought.toList later.replacement.toList

variable {substitution first : Substitution}
variable {substitutions rest : List Substitution} {word text : String}

theorem AreSettling.tail (settling : AreSettling (first :: rest)) :
    AreSettling rest where
  written other member := settling.written other (List.mem_cons_of_mem _ member)
  own other member := settling.own other (List.mem_cons_of_mem _ member)
  later := (List.pairwise_cons.mp settling.later).2

/-- A word that is not there does not come in with the replacements. -/
theorem not_infix_apply
    (separate : Separate word.toList substitution.replacement.toList)
    (absent : ¬ word.toList <:+: text.toList) :
    ¬ word.toList <:+: (substitution.apply text).toList := by
  by_cases idle : substitution.sought = ""
  · rwa [(apply_and_count_of_idle idle text).1]
  · rw [toList_apply idle]
    exact separate.not_infix_replace (Renaming.toList_ne_nil idle) absent

theorem not_infix_applyAll
    (separate : ∀ substitution ∈ substitutions,
      Separate word.toList substitution.replacement.toList)
    (absent : ¬ word.toList <:+: text.toList) :
    ¬ word.toList <:+: (applyAll substitutions text).1.toList := by
  induction substitutions generalizing text with
  | nil => exact absent
  | cons first rest induction =>
      rw [applyAll_cons]
      exact induction (fun other member =>
        separate other (List.mem_cons_of_mem _ member))
        (not_infix_apply (separate first List.mem_cons_self) absent)

/-- What a substitution has removed is not brought back by it, nor later. -/
theorem AreSettling.clear (settling : AreSettling substitutions) :
    Clear substitutions := by
  induction substitutions with
  | nil =>
      intro text substitution member
      cases member
  | cons first rest induction =>
      intro text substitution member
      rw [applyAll_cons]
      rcases List.mem_cons.mp member with isFirst | isLater
      · subst isFirst
        refine not_infix_applyAll (List.pairwise_cons.mp settling.later).1 ?_
        have written := settling.written _ List.mem_cons_self
        rw [toList_apply written]
        exact (settling.own _ List.mem_cons_self).not_infix_replace_self
          (Renaming.toList_ne_nil written)
      · exact induction settling.tail _ substitution isLater

/-- Settling substitutions leave nothing of what they seek in any text, and find
nothing in what they have made of it. -/
theorem applyAll_settles (settling : AreSettling substitutions)
    (text : String) :
    (∀ substitution ∈ substitutions, ¬ substitution.sought.toList <:+:
        (applyAll substitutions text).1.toList) ∧
      applyAll substitutions (applyAll substitutions text).1 =
        ((applyAll substitutions text).1, 0) := by
  have absent := settling.clear text
  have isZero : (applyAll substitutions (applyAll substitutions text).1).2 =
      0 :=
    count_applyAll_eq_zero_iff.mpr fun substitution member =>
      count_eq_zero_iff.mpr (.inr (absent substitution member))
  exact ⟨absent, Prod.ext (applyAll_eq_self_of_count isZero) isZero⟩

/-- Words that overlap themselves, in a text where they do. -/
theorem applyAll_settles_overlapping :
    AreSettling [⟨"aba", "x"⟩, ⟨"bb", "yz"⟩] ∧
      applyAll [⟨"aba", "x"⟩, ⟨"bb", "yz"⟩] "ababa bbb" = ("xba yzb", 2) ∧
      ¬ "aba".toList <:+: "xba yzb".toList ∧
      applyAll [⟨"aba", "x"⟩, ⟨"bb", "yz"⟩] "xba yzb" = ("xba yzb", 0) := by
  have settling : AreSettling [⟨"aba", "x"⟩, ⟨"bb", "yz"⟩] :=
    ⟨by decide, by decide +kernel, by decide +kernel⟩
  have isApplied : applyAll [⟨"aba", "x"⟩, ⟨"bb", "yz"⟩] "ababa bbb" =
      ("xba yzb", 2) := by decide +kernel
  obtain ⟨absent, again⟩ := applyAll_settles settling "ababa bbb"
  rw [isApplied] at absent again
  exact ⟨settling, isApplied, absent _ List.mem_cons_self, again⟩

end Substitution

/-! ### Settling renamings -/

namespace Renaming

/-- The old words meet neither the new ones nor the new name. -/
structure IsSettling (names : Renaming) : Prop where
  name : Separate names.source.name.toList names.target.name.toList
  descriptor :
    Separate names.source.descriptor.toList names.target.descriptor.toList
  newName : Separate names.source.descriptor.toList names.target.name.toList

variable {names : Renaming}

theorem IsSettling.clear_inText (settling : names.IsSettling)
    (written : names.source.name ≠ "") :
    Substitution.Clear names.inText :=
  Substitution.AreSettling.clear
    { written := List.forall_mem_singleton.mpr written
      own := List.forall_mem_singleton.mpr settling.name
      later := List.pairwise_singleton _ _ }

theorem IsSettling.clear_inBytecode (settling : names.IsSettling)
    (written : names.source.name ≠ "") :
    Substitution.Clear names.inBytecode :=
  Substitution.AreSettling.clear
    { written := List.forall_mem_cons.mpr ⟨descriptor_ne_empty _,
        List.forall_mem_singleton.mpr written⟩
      own := List.forall_mem_cons.mpr ⟨settling.descriptor,
        List.forall_mem_singleton.mpr settling.name⟩
      later := List.pairwise_cons.mpr
        ⟨List.forall_mem_singleton.mpr settling.newName,
          List.pairwise_singleton _ _⟩ }

end Renaming

/-! ### Files -/

namespace File

variable {file : File} {substitutions : List Substitution}

/-- The bytes of a word stand in the file. -/
def Mentions (file : File) (word : String) : Prop :=
  Utf8.encode word <:+: file.contents

end File

namespace Substitution

variable {file : File} {substitutions : List Substitution}

/-- Nothing of what is sought is left in contents that could be updated. -/
theorem Clear.not_infix_inContents (clear : Clear substitutions)
    (revisable : file.IsRevisable substitutions)
    {substitution : Substitution} (member : substitution ∈ substitutions) :
    ¬ Utf8.encode substitution.sought <:+:
      inContents substitutions file.contents := by
  rw [inContents]
  rw [File.IsRevisable] at revisable
  cases decoded : Utf8.decode? file.contents with
  | none =>
      simp only [decoded] at revisable ⊢
      have absent := revisable substitution member
      have sought : (substitution.sought != "") = true := by
        simpa using clear.written member
      rwa [occursInBytes, sought, Bool.true_and, occursIn_eq_false_iff]
        at absent
  | some text =>
      rw [Utf8.encode_infix_iff]
      exact clear text substitution member

end Substitution

/-! ### Trees -/

namespace Tree

variable {tree : Tree} {path : Path} {place : Place} {words : List String}
variable {substitutions : List Substitution} {strategy : WriteStrategy}

/-- None of the words stands in the file at the place, if one is there. -/
def IsFreeAt (tree : Tree) (words : List String) (place : Place) : Prop :=
  ∀ file, tree.node? place = some (.file file) →
    ∀ word ∈ words, ¬ file.Mentions word

theorem contents_of_writeAt {inner : Place} {file after : File}
    {contents : List UInt8} (isFile : tree.node? place = some (.file file))
    (isAfter : (tree.writeAt place file contents strategy).node? inner =
      some (.file after)) :
    after.contents = contents ∨
      inner ≠ place ∧ tree.node? inner = some (.file after) := by
  rw [node?_writeAt_shown isFile] at isAfter
  split at isAfter
  · obtain ⟨before, -, rewritten⟩ := mapFile_eq_file.mp isAfter
    rw [rewritten]
    cases strategy <;> exact .inl rfl
  · rename_i hidden
    exact .inr ⟨fun same => hidden (.inl same.symm), isAfter⟩

section Clear

variable (clear : Substitution.Clear substitutions)

include clear

/-- An update keeps a file free of what it seeks itself. -/
theorem IsFreeAt.updateFile (free : tree.IsFreeAt words place)
    (sought : ∀ word ∈ words, word ∈ substitutions.map (·.sought)) :
    (updateFile path substitutions strategy tree).tree.IsFreeAt words
      place := by
  intro after isAfter word member
  rcases updateFile_cases tree path substitutions strategy with
    ⟨same, -⟩ | ⟨found, file, replacements, isFound, answered, isTree⟩
  · rw [same] at isAfter
    exact free after isAfter word member
  · rw [isTree] at isAfter
    rcases contents_of_writeAt (fileAt_eq_ok.mp isFound).2 isAfter with
      rewritten | ⟨-, wasFile⟩
    · obtain ⟨substitution, isSought, rfl⟩ := List.mem_map.mp (sought word member)
      have revisable :=
        ((updateFile_isOk_iff isFound).mp (by rw [answered]; rfl)).1
      rw [File.Mentions, rewritten]
      exact clear.not_infix_inContents revisable isSought
    · exact free after wasFile word member

/-- An update that does not fail frees the file that its path leads to. -/
theorem isFreeAt_updateFile
    (succeeds : (updateFile path substitutions strategy tree).answer.isOk =
      true)
    (resolved : tree.resolve path = .ok place) :
    (PackageRename.updateFile path substitutions strategy tree).tree.IsFreeAt
      (substitutions.map (·.sought)) place := by
  intro after isAfter word member
  obtain ⟨substitution, isSought, rfl⟩ := List.mem_map.mp member
  have freed : ∀ file, tree.fileAt path = .ok (place, file) →
      after.contents = Substitution.inContents substitutions file.contents →
      ¬ after.Mentions substitution.sought := by
    intro file isFound contents
    rw [File.Mentions, contents]
    exact clear.not_infix_inContents
      ((updateFile_isOk_iff isFound).mp succeeds).1 isSought
  rcases updateFile_cases tree path substitutions strategy with
    ⟨same, unchanged⟩ | ⟨found, file, replacements, isFound, -, isTree⟩
  · rw [same] at isAfter
    have isFound := fileAt_eq_ok.mpr ⟨resolved, isAfter⟩
    exact freed after isFound (unchanged place after succeeds isFound).symm
  · obtain ⟨isPlace, isFile⟩ := fileAt_eq_ok.mp isFound
    rw [resolved, Except.ok.injEq] at isPlace
    subst isPlace
    rw [isTree] at isAfter
    rcases contents_of_writeAt isFile isAfter with rewritten | ⟨elsewhere, -⟩
    · exact freed file isFound rewritten
    · exact absurd rfl elsewhere

theorem IsFreeAt.foldl_settle {items : List Visited}
    (free : tree.IsFreeAt words place)
    (sought : ∀ word ∈ words, word ∈ substitutions.map (·.sought)) :
    (items.foldl (settle substitutions strategy) tree).IsFreeAt words
      place := by
  induction items generalizing tree with
  | nil => exact free
  | cons visited rest induction =>
      refine induction ?_
      cases visited with
      | directory path => exact free
      | file path => exact free.updateFile clear sought
      | failure path fault => exact free

/-- When nothing that is visited gives reason to complain, every file among it
is free of what is sought afterwards. -/
theorem isFreeAt_of_settlesAll {items : List Visited}
    (settles : SettlesAll substitutions strategy tree items)
    (member : .file path ∈ items) (resolved : tree.resolve path = .ok place) :
    (items.foldl (settle substitutions strategy) tree).IsFreeAt
      (substitutions.map (·.sought)) place := by
  induction items generalizing tree with
  | nil => cases member
  | cons visited rest induction =>
      rcases List.mem_cons.mp member with isFirst | later
      · subst isFirst
        exact (isFreeAt_updateFile clear settles.1 resolved).foldl_settle clear
          fun word isSought => isSought
      · refine induction settles.2 later ?_
        rwa [resolve_of_layout (layout_settle visited)]

/-! ### Everything below a place -/

/-- None of the words stands in a file at or below the place. -/
def IsFreeBelow (tree : Tree) (words : List String) (place : Place) : Prop :=
  ∀ rest, tree.IsFreeAt words (place ++ rest)

/-- Whatever a walk has visited without complaint is free of what is sought:
that is all there is at and below its base, under whatever names. -/
theorem IsOrderly.isFreeBelow_visits (orderly : tree.IsOrderly) {base : Path}
    (resolved : tree.resolve base = .ok place)
    (settles : SettlesAll substitutions strategy tree (tree.visits base)) :
    ((tree.visits base).foldl (settle substitutions strategy)
      tree).IsFreeBelow (substitutions.map (·.sought)) place := by
  intro rest after isAfter
  obtain ⟨before, isFile⟩ :=
    exists_file_of_layout (layout_foldl_settle (tree.visits base)) isAfter
  have isBlank : tree.layout.node? (place ++ rest) =
      some (.file File.blank) := by
    rw [node?_layout, isFile]
    rfl
  suffices visited : ∃ path, .file path ∈ tree.visits base ∧
      tree.resolve path = .ok (place ++ rest) by
    obtain ⟨path, member, leads⟩ := visited
    exact isFreeAt_of_settlesAll clear settles member leads after isAfter
  by_cases directory : tree.hasDirectory place = true
  · have leads := orderly.leadsTo_layout resolved directory
    have sound := leads.settlesAll_visits_iff.mp
      ((visits_layout base).symm ▸ settles.layout)
    obtain ⟨fits, -⟩ := sound.files rest _ isBlank
    refine ⟨base.below rest, ?_, ?_⟩
    · rw [← visits_layout]
      exact leads.file_mem_visits isBlank fits
    · rw [← resolve_layout]
      exact leads.resolve fits (by rw [isBlank]; rfl)
  · have atEnd : rest = [] := by
      by_contra below
      exact directory (hasDirectory_of_append (by rw [isFile]; rfl) below)
    subst atEnd
    rw [List.append_nil] at isBlank ⊢
    refine ⟨base, ?_, resolved⟩
    have isKind := kindOf_of_resolved orderly.isLinkFree_layout
      ((resolve_layout base).trans resolved) isBlank
    rw [kindOf_layout] at isKind
    rw [visits, isKind]
    exact List.mem_cons_self

end Clear

end Tree

end PackageRename
