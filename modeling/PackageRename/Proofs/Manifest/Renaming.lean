import PackageRename.Job.Run
import PackageRename.Proofs.FileUpdate.Contract
import PackageRename.Proofs.Manifest.Grammar
import PackageRename.Proofs.Renaming
import PackageRename.Proofs.Words

/-!
# Renaming what a manifest declares

A dotted name is exchanged all over a manifest.  It stands inside the names and
values of attributes and never across their boundaries, so each attribute stays
an attribute, none but the old one declares the package, and it declares the new
name.
-/

namespace PackageRename

open Text

/-- Letters, digits, underscores and at least one dot. -/
structure Identifier.IsDotted (identifier : Identifier) : Prop where
  dot : '.' ∈ identifier.name.toList
  characters : ∀ character ∈ identifier.name.toList,
    character = '.' ∨ IsWordCharacter character

instance (identifier : Identifier) : Decidable identifier.IsDotted :=
  -- The characters of the name are tried, not all that there are.
  have : Decidable (∀ character ∈ identifier.name.toList,
      character = '.' ∨ IsWordCharacter character) := List.decidableBAll _ _
  decidable_of_iff ('.' ∈ identifier.name.toList ∧
      ∀ character ∈ identifier.name.toList,
        character = '.' ∨ IsWordCharacter character)
    ⟨fun ⟨dot, characters⟩ => ⟨dot, characters⟩,
    fun isDotted => ⟨isDotted.dot, isDotted.characters⟩⟩

namespace Manifest

/-- A word of letters that the names of attributes are made of, with a dot. -/
structure IsDottedWord (word : List Char) : Prop where
  dot : '.' ∈ word
  letters : ∀ character ∈ word, IsNameLetter character

theorem isNameLetter_of_word {character : Char}
    (isWord : character = '.' ∨ IsWordCharacter character) :
    IsNameLetter character :=
  isNameCharacter_iff.mp (forall_character_of_name
    (fun character => isNameCharacter character = true) (by decide +kernel)
    isWord)

theorem isDottedWord_of_identifier {identifier : Identifier}
    (isDotted : identifier.IsDotted) :
    IsDottedWord identifier.name.toList :=
  ⟨isDotted.dot, fun character member =>
    isNameLetter_of_word (isDotted.characters character member)⟩

theorem IsDottedWord.ne_nil {word : List Char}
    (isDotted : IsDottedWord word) : word ≠ [] :=
  List.ne_nil_of_mem isDotted.dot

section Dotted

variable {sought word : List Char} (isSought : IsDottedWord sought)
include isSought

/-- No match goes into what stands between names. -/
theorem IsDottedWord.separate (written : word ≠ [])
    (unnamed : ∀ character ∈ word, ¬ IsNameLetter character) :
    Separate sought word :=
  separate_of_disjoint isSought.ne_nil written fun character member inSought =>
    unnamed character member (isSought.letters character inSought)

/-- A word without a dot is left alone. -/
theorem IsDottedWord.replace_of_no_dot (noDot : '.' ∉ word)
    (replacement : List Char) : replace sought replacement word = word :=
  replace_of_absent fun inside => noDot (inside.subset isSought.dot)

/-- No other name becomes a word without a dot. -/
theorem IsDottedWord.replace_ne {replacement name : List Char}
    (isNew : IsDottedWord replacement) (noDot : '.' ∉ word)
    (other : name ≠ word) : replace sought replacement name ≠ word := by
  by_cases occurs : sought <:+: name
  · obtain ⟨front, back, rfl, first⟩ := exists_first occurs
    rw [replace_first isSought.ne_nil first]
    rintro rfl
    exact noDot (List.mem_append_right _
      (List.mem_append_left _ isNew.dot))
  · rwa [replace_of_absent occurs]

end Dotted

section Replacing

variable {sought replacement before rest : List Char}
variable (isSought : IsDottedWord sought) (isNew : IsDottedWord replacement)

/-- The attribute with the word exchanged in its name and in its value. -/
def WrittenAttribute.exchanged (written : WrittenAttribute) :
    WrittenAttribute where
  gap := written.gap
  name := replace sought replacement written.name
  beforeSign := written.beforeSign
  behindSign := written.behindSign
  quote := written.quote
  value := replace sought replacement written.value
  gap_ne := written.gap_ne
  gap_blank := written.gap_blank
  name_ne := replace_ne_nil isSought.ne_nil isNew.ne_nil written.name_ne
  name_letters := by
    intro character member
    by_contra notLetter
    exact not_mem_replace isSought.ne_nil
      (notLetter ∘ isNew.letters character)
      (notLetter ∘ written.name_letters character) member
  before_blank := written.before_blank
  behind_blank := written.behind_blank
  quote_is := written.quote_is
  value_unquoted := not_mem_replace isSought.ne_nil
    (written.quote_unnamed ∘ isNew.letters _) written.value_unquoted

theorem WrittenAttribute.name_exchanged (written : WrittenAttribute) :
    (written.exchanged isSought isNew).name =
      replace sought replacement written.name :=
  rfl

theorem WrittenAttribute.value_exchanged (written : WrittenAttribute) :
    (written.exchanged isSought isNew).value =
      replace sought replacement written.value :=
  rfl

/-- The matches in an attribute end in it. -/
theorem replace_written_append (written : WrittenAttribute) :
    replace sought replacement (before ++ (written.text ++ rest)) =
      replace sought replacement before ++
        ((written.exchanged isSought isNew).text ++
          replace sought replacement rest) := by
  have blank : ∀ {word : List Char}, (∀ character ∈ word, IsBlank character) →
      ∀ character ∈ word, ¬ IsNameLetter character :=
    fun areBlank character member isLetter =>
      isLetter.not_blank (areBlank character member)
  have gap : Separate sought written.gap :=
    isSought.separate written.gap_ne (blank written.gap_blank)
  have sign : Separate sought (written.beforeSign ++ '=' ::
      (written.behindSign ++ [written.quote])) := by
    refine isSought.separate (by simp) ?_
    simp only [List.forall_mem_append, List.forall_mem_cons]
    exact ⟨blank written.before_blank, sign_unnamed,
      blank written.behind_blank, written.quote_unnamed, nofun⟩
  have quote : Separate sought [written.quote] :=
    isSought.separate (by simp)
      (List.forall_mem_singleton.mpr written.quote_unnamed)
  have isText : written.text ++ rest = written.gap ++ (written.name ++
      ((written.beforeSign ++ '=' :: (written.behindSign ++ [written.quote])) ++
        (written.value ++ ([written.quote] ++ rest)))) := by
    simp [WrittenAttribute.text]
  rw [isText, gap.replace_append isSought.ne_nil,
    sign.replace_append isSought.ne_nil, quote.replace_append isSought.ne_nil]
  simp [WrittenAttribute.text, WrittenAttribute.exchanged]

theorem replace_attributes_append (others : List WrittenAttribute)
    (declaration : WrittenAttribute) :
    replace sought replacement (before ++
        (others.flatMap WrittenAttribute.text ++ (declaration.text ++ rest))) =
      replace sought replacement before ++
        ((others.map (·.exchanged isSought isNew)).flatMap
            WrittenAttribute.text ++
          ((declaration.exchanged isSought isNew).text ++
            replace sought replacement rest)) := by
  induction others generalizing before with
  | nil => exact replace_written_append isSought isNew declaration
  | cons other more induction =>
      have later := @induction []
      rw [List.nil_append, replace_nil, List.nil_append] at later
      rw [List.flatMap_cons, List.append_assoc,
        replace_written_append isSought isNew, later, List.map_cons,
        List.flatMap_cons, List.append_assoc]

end Replacing

/-- The package is read from the bytes that the path leads to. -/
theorem readPackage_of_contentsAt {tree : Tree} {path : Path}
    {contents : List UInt8} {xml : String}
    (reads : tree.contentsAt path = .ok contents)
    (decoded : Utf8.decode? contents = some xml) :
    readPackage path tree =
      .ok ((declaredPackage xml).map Identifier.mk) := by
  rw [readPackage]
  cases isFile : tree.fileAt path with
  | error fault =>
      rw [Tree.contentsAt, isFile] at reads
      cases reads
  | ok found =>
      rw [Tree.contentsAt_eq_ok isFile] at reads
      cases reads
      dsimp only
      rw [decoded]

section Declaring

variable {names : Renaming} {xml : String}
variable (sourceDotted : names.source.IsDotted)
variable (targetDotted : names.target.IsDotted)
include sourceDotted targetDotted

/-- The text behind the first opening is exchanged attribute by attribute. -/
theorem declaresPackage_applyAll
    (declares : DeclaresPackage xml names.source.name)
    (unmet : ∀ front rest, SplitsFirst opening xml.toList front rest →
      ¬ names.source.name.toList <:+: front) :
    DeclaresPackage (Substitution.applyAll names.inText xml).1
      names.target.name := by
  have isSought := isDottedWord_of_identifier sourceDotted
  have isNew := isDottedWord_of_identifier targetDotted
  have sourceWritten : names.source.name ≠ "" := by
    intro empty
    exact isSought.ne_nil (by rw [empty]; rfl)
  obtain ⟨front, others, declaration, rest, splits, different, isPackage,
    isValue⟩ := declares
  have bracket : Separate names.source.name.toList ['<'] :=
    isSought.separate (by simp) (List.forall_mem_singleton.mpr (by
      rw [← isNameCharacter_iff]
      decide +kernel))
  have isReplaced : (Substitution.applyAll names.inText xml).1.toList =
      front ++ (opening ++ ((others.map
        (·.exchanged isSought isNew)).flatMap WrittenAttribute.text ++
          ((declaration.exchanged isSought isNew).text ++
            replace names.source.name.toList names.target.name.toList
              rest))) := by
    -- No match enters the opening: its bracket is no letter of a name, and the
    -- rest of it has no dot.
    rw [(Renaming.toList_applyAll_inText sourceWritten xml).1, splits.isText]
    have isOpening : opening = ['<'] ++ "manifest".toList := by decide
    rw [isOpening, List.append_assoc, bracket.replace_append isSought.ne_nil,
      replace_of_absent (unmet front _ splits), replace_attributes_append
        isSought isNew, isSought.replace_of_no_dot (by decide),
      List.append_assoc]
  refine ⟨front, _, declaration.exchanged isSought isNew, _,
    splitsFirst_iff.mpr ⟨isReplaced, splits.comesFirst⟩, ?_, ?_, ?_⟩
  · intro other member
    obtain ⟨before, isBefore, rfl⟩ := List.mem_map.mp member
    exact isSought.replace_ne isNew (by decide) (different before isBefore)
  · rw [WrittenAttribute.name_exchanged, isPackage]
    exact isSought.replace_of_no_dot (by decide) _
  · rw [WrittenAttribute.value_exchanged, isValue]
    exact replace_self isSought.ne_nil

/-- A manifest that declares the old name, which does not stand before its first
opening, declares the new one when the name has been exchanged all over it.  So
when its file has been updated, the new name is read there. -/
theorem declaredPackage_renamed
    (declared : declaredPackage xml = some names.source.name)
    (unmet : ∀ front rest, SplitsFirst opening xml.toList front rest →
      ¬ names.source.name.toList <:+: front) :
    declaredPackage (Substitution.applyAll names.inText xml).1 =
        some names.target.name ∧
      ∀ tree path place file strategy outcome,
        tree.fileAt path = .ok (place, file) →
        Utf8.decode? file.contents = some xml →
        (updateFile path names.inText strategy tree).answer = .ok outcome →
        readPackage path (updateFile path names.inText strategy tree).tree =
          .ok (some names.target) := by
  have renamed := declaredPackage_eq_some_iff.mpr (declaresPackage_applyAll
    sourceDotted targetDotted (declaredPackage_eq_some_iff.mp declared) unmet)
  refine ⟨renamed, ?_⟩
  intro tree path place file strategy outcome found decoded succeeds
  have reads := Tree.contentsAt_updateFile found decoded succeeds
  rw [readPackage_of_contentsAt reads (Utf8.decode?_encode _), renamed]
  rfl

end Declaring

/-- A manifest with the name in the names of other attributes, in their values
and behind the tag. -/
def crowdedManifest : String :=
  "<a/><manifest a.b='\"a.b\"'\n\tpackage = \"a.b\" x:a.b=''>a.b</manifest>"

theorem declaredPackage_renamed_crowded :
    let names : Renaming := ⟨⟨"a.b"⟩, ⟨"c.d"⟩⟩
    let tree := Tree.holding [("m", crowdedManifest)]
    names.source.IsDotted ∧ names.target.IsDotted ∧
      declaredPackage crowdedManifest = some "a.b" ∧
      (∀ front rest, SplitsFirst opening crowdedManifest.toList front rest →
        ¬ "a.b".toList <:+: front) ∧
      declaredPackage (Substitution.applyAll names.inText crowdedManifest).1 =
        some "c.d" ∧
      readPackage (Path.ofString "m") (updateFile (Path.ofString "m")
        names.inText .inPlace tree).tree = .ok (some ⟨"c.d"⟩) := by
  intro names tree
  have sourceDotted : names.source.IsDotted := by decide
  have targetDotted : names.target.IsDotted := by decide
  have declared : declaredPackage crowdedManifest = some "a.b" := by
    decide +kernel
  have unmet : ∀ front rest,
      SplitsFirst opening crowdedManifest.toList front rest →
      ¬ "a.b".toList <:+: front := by
    intro front rest splits
    have known : SplitsFirst opening crowdedManifest.toList
        "<a/>".toList (crowdedManifest.toList.drop 13) :=
      splitsFirst_iff.mpr ⟨by decide +kernel, by decide +kernel⟩
    rw [(splits.unique known).1]
    decide +kernel
  obtain ⟨renamed, reads⟩ :=
    declaredPackage_renamed sourceDotted targetDotted declared unmet
  refine ⟨sourceDotted, targetDotted, declared, unmet, renamed, ?_⟩
  exact reads tree (Path.ofString "m") [Utf8.encode "m"]
    (File.fresh (Utf8.encode crowdedManifest) File.ownerMode) .inPlace
    (.changed 5) (by decide +kernel) (Utf8.decode?_encode _) (by decide +kernel)

end Manifest

end PackageRename
