import Mathlib.Data.List.TakeWhile
import PackageRename.Proofs.Relocation.Landing
import PackageRename.Proofs.Words

/-!
# Class declarations

A class file declares its class in its first line, by the path of the file.
Exchanging names in the file and moving it with its package agree on that path
only if what the path says beside the package does not hold the old name.
-/

namespace PackageRename

open Text

/-- What a file says before the first line break. -/
def firstLine (contents : List UInt8) : List UInt8 :=
  contents.takeWhile (· != lineBreak)

/-- The line that declares a class. -/
def classLine (stem : List UInt8) : List UInt8 :=
  Utf8.encode ".class public L" ++ (stem ++ [semicolon])

/-- The file at the names declares the class that its path names. -/
def Declares (names : List Name) (contents : List UInt8) : Prop :=
  ∃ stem, (Path.ofPieces names).bytes = stem ++ Utf8.encode ".smali" ∧
    firstLine contents = classLine stem

/-- The path of a class file without its extension. -/
def classPath (names : List Name) : List UInt8 :=
  (Path.ofPieces names).bytes.take
    ((Path.ofPieces names).bytes.length - (Utf8.encode ".smali").length)

theorem classPath_of_bytes {names : List Name} {stem : List UInt8}
    (isPath : (Path.ofPieces names).bytes = stem ++ Utf8.encode ".smali") :
    classPath names = stem := by
  rw [classPath, isPath, List.length_append, Nat.add_sub_cancel,
    List.take_left]

theorem declares_iff {names : List Name} {contents : List UInt8} :
    Declares names contents ↔
      (Path.ofPieces names).bytes =
        classPath names ++ Utf8.encode ".smali" ∧
      firstLine contents = classLine (classPath names) := by
  constructor
  · rintro ⟨stem, isPath, isDeclared⟩
    rw [classPath_of_bytes isPath]
    exact ⟨isPath, isDeclared⟩
  · rintro ⟨isPath, isDeclared⟩
    exact ⟨classPath names, isPath, isDeclared⟩

instance (names : List Name) (contents : List UInt8) :
    Decidable (Declares names contents) :=
  decidable_of_iff _ declares_iff.symm

/-! ### First lines -/

theorem firstLine_of_not_mem {line : List UInt8} (unbroken : lineBreak ∉ line) :
    firstLine line = line := by
  rw [firstLine, List.takeWhile_eq_self_iff]
  intro byte member
  rw [bne_iff_ne]
  exact fun isBreak => unbroken (isBreak ▸ member)

theorem firstLine_append {line : List UInt8} (unbroken : lineBreak ∉ line)
    (more : List UInt8) : firstLine (line ++ lineBreak :: more) = line := by
  rw [firstLine, List.takeWhile_append_of_pos, List.takeWhile_cons_of_neg,
    List.append_nil]
  · simp
  · intro byte member
    rw [bne_iff_ne]
    exact fun isBreak => unbroken (isBreak ▸ member)

theorem not_mem_replaceAll {letter : UInt8}
    {exchanges : List (List UInt8 × List UInt8)} {text : List UInt8}
    (written : ∀ exchange ∈ exchanges, exchange.1 ≠ [])
    (notNew : ∀ exchange ∈ exchanges, letter ∉ exchange.2)
    (absent : letter ∉ text) : letter ∉ replaceAll exchanges text := by
  induction exchanges generalizing text with
  | nil => exact absent
  | cons exchange rest induction =>
      rw [replaceAll_cons]
      refine induction
        (fun other member => written other (List.mem_cons_of_mem _ member))
        (fun other member => notNew other (List.mem_cons_of_mem _ member)) ?_
      exact not_mem_replace (written exchange List.mem_cons_self)
        (notNew exchange List.mem_cons_self) absent

/-- Replacements that know no line breaks go line by line. -/
theorem firstLine_replaceAll {exchanges : List (List UInt8 × List UInt8)}
    (written : ∀ exchange ∈ exchanges, exchange.1 ≠ [])
    (unbroken : ∀ exchange ∈ exchanges,
      lineBreak ∉ exchange.1 ∧ lineBreak ∉ exchange.2)
    (contents : List UInt8) :
    firstLine (replaceAll exchanges contents) =
      replaceAll exchanges (firstLine contents) := by
  have notNew : ∀ exchange ∈ exchanges, lineBreak ∉ exchange.2 :=
    fun exchange member => (unbroken exchange member).2
  have oneLine : lineBreak ∉ firstLine contents := by
    intro member
    have passed := List.mem_takeWhile_imp member
    exact absurd passed (by decide)
  have replacedLine := not_mem_replaceAll written notNew oneLine
  have isSplit := List.takeWhile_append_dropWhile
    (p := (· != lineBreak)) (l := contents)
  change firstLine contents ++ _ = contents at isSplit
  cases isRest : contents.dropWhile (· != lineBreak) with
  | nil =>
      rw [isRest, List.append_nil] at isSplit
      rw [isSplit] at replacedLine ⊢
      exact firstLine_of_not_mem replacedLine
  | cons head more =>
      have isBreak : head = lineBreak := by
        have stopped := List.head_dropWhile_not (l := contents) (· != lineBreak)
          (by rw [isRest]; exact List.cons_ne_nil _ _)
        simpa [isRest] using stopped
      rw [isRest, isBreak] at isSplit
      rw [← isSplit, firstLine_append oneLine, ← List.singleton_append,
        replaceAll_around written (fun exchange member =>
          separate_singleton (written exchange member)
            (unbroken exchange member).1), List.singleton_append]
      exact firstLine_append replacedLine _

/-! ### Paths of files -/

theorem bytes_ofPieces_append {front back : List Name} (first : front ≠ [])
    (second : back ≠ []) :
    (Path.ofPieces (front ++ back)).bytes =
      (Path.ofPieces front).bytes ++ slash :: (Path.ofPieces back).bytes := by
  obtain ⟨head, others, isFront⟩ := List.exists_cons_of_ne_nil first
  obtain ⟨next, more, isBack⟩ := List.exists_cons_of_ne_nil second
  rw [isFront, isBack, List.cons_append, Path.bytes_ofPieces_cons,
    Path.bytes_ofPieces_cons, Path.bytes_ofPieces_cons, List.flatMap_append,
    List.flatMap_cons, List.append_assoc, List.cons_append]

theorem bytes_path_append (identifier : Identifier) {rest : List Name}
    (nonempty : rest ≠ []) :
    (Path.ofPieces (identifier.segments ++ rest)).bytes =
      Utf8.encode identifier.path ++ slash :: (Path.ofPieces rest).bytes := by
  rw [bytes_ofPieces_append identifier.segments_ne_nil nonempty,
    ← Identifier.ofString_path]
  rfl

/-- A file is inside the package directory when its path says so. -/
theorem exists_segments_append {identifier : Identifier}
    (plain : identifier.HasPlainSegments) {names : List Name}
    (slashless : ∀ name ∈ names, slash ∉ name) {more : List UInt8}
    (isPath : (Path.ofPieces names).bytes =
      Utf8.encode identifier.path ++ slash :: more) :
    ∃ rest, rest ≠ [] ∧ names = identifier.segments ++ rest := by
  have nonempty : names ≠ [] := by
    intro empty
    rw [empty] at isPath
    have lengths := congrArg List.length isPath
    simp [Path.ofPieces] at lengths
  have isSplit := List.splitOn_intercalate slash slashless nonempty
  change (Path.ofPieces names).bytes.splitOn slash = names at isSplit
  rw [isPath, List.splitOn_append_cons_self,
    Identifier.pieces_path plain] at isSplit
  exact ⟨_, List.splitOn_ne_nil slash more, isSplit.symm⟩

/-- What comes before an extension does not depend on what comes before the last
slash. -/
theorem exists_stem {front back stem extension : List UInt8}
    (slashless : slash ∉ extension)
    (isPath : front ++ slash :: back = stem ++ extension) :
    ∃ tail, stem = front ++ slash :: tail ∧ back = tail ++ extension := by
  rcases List.append_eq_append_iff.mp isPath with
    ⟨tail, isStem, isBack⟩ | ⟨tail, isFront, isExtension⟩
  · cases tail with
    | nil =>
        rw [List.nil_append] at isBack
        exact absurd (isBack ▸ List.mem_cons_self) slashless
    | cons head tail =>
        rw [List.cons_append] at isBack
        obtain ⟨isSlash, isRest⟩ := List.cons.inj isBack
        subst isSlash
        exact ⟨tail, isStem, isRest⟩
  · rw [isExtension] at slashless
    exact absurd (List.mem_append_right _ List.mem_cons_self) slashless

namespace Renaming

variable {names : Renaming} {stem : List UInt8}

/-- What a class path says beside the old package: what follows it, or all there
is when the class is in no part of it. -/
def remainder (names : Renaming) (stem : List UInt8) : List UInt8 :=
  if Utf8.encode names.source.path ++ [slash] <+: stem then
    stem.drop ((Utf8.encode names.source.path).length + 1)
  else sigil :: stem

/-- The old name does not show in a class path but as its package. -/
def Spares (names : Renaming) (stem : List UInt8) : Prop :=
  ¬ Utf8.encode names.source.descriptor <:+: names.remainder stem ∧
    ¬ Utf8.encode names.source.name <:+: names.remainder stem

instance (names : Renaming) (stem : List UInt8) :
    Decidable (names.Spares stem) :=
  inferInstanceAs (Decidable (_ ∧ _))

theorem remainder_package (tail : List UInt8) :
    names.remainder (Utf8.encode names.source.path ++ slash :: tail) =
      tail := by
  rw [remainder, if_pos ⟨tail, List.append_cons _ _ _ |>.symm⟩,
    List.append_cons]
  exact List.drop_left' (List.length_append ..)

/-! ### What the stages make of a declaration -/

section Words

variable (sourceName : names.source.IsPackageName)
variable (targetName : names.target.IsPackageName)
variable {earlier : List Substitution}
variable (onlyNames : ∀ substitution ∈ earlier, substitution ∈ names.inText)

/-- The exchanges that a file goes through in the text stages it belongs to and
in the bytecode stage. -/
def exchanges (names : Renaming) (earlier : List Substitution) :
    List (List UInt8 × List UInt8) :=
  (earlier ++ names.inBytecode).map Substitution.inBytes

theorem mem_inText {substitution : Substitution} :
    substitution ∈ names.inText ↔
      substitution = ⟨names.source.name, names.target.name⟩ :=
  List.mem_singleton

theorem mem_inBytecode {substitution : Substitution} :
    substitution ∈ names.inBytecode ↔
      substitution = ⟨names.source.descriptor, names.target.descriptor⟩ ∨
        substitution = ⟨names.source.name, names.target.name⟩ :=
  List.mem_cons.trans (or_congr_right List.mem_singleton)

include onlyNames in
theorem forall_mem_exchanges_iff
    {property : List UInt8 × List UInt8 → Prop} :
    (∀ exchange ∈ names.exchanges earlier, property exchange) ↔
      property (Utf8.encode names.source.descriptor,
          Utf8.encode names.target.descriptor) ∧
        property (Utf8.encode names.source.name,
          Utf8.encode names.target.name) := by
  simp only [exchanges, List.forall_mem_map, List.mem_append]
  constructor
  · intro all
    exact ⟨all _ (.inr (mem_inBytecode.mpr (.inl rfl))),
      all _ (.inr (mem_inBytecode.mpr (.inr rfl)))⟩
  · rintro ⟨descriptor, name⟩ substitution (isEarlier | inBytecode)
    · rw [mem_inText.mp (onlyNames substitution isEarlier)]
      exact name
    · rcases mem_inBytecode.mp inBytecode with isDescriptor | isName
      · rw [isDescriptor]
        exact descriptor
      · rw [isName]
        exact name

include sourceName in
theorem source_written : Utf8.encode names.source.descriptor ≠ [] ∧
    Utf8.encode names.source.name ≠ [] :=
  ⟨List.ne_nil_of_mem sourceName.slash_mem,
    List.ne_nil_of_mem sourceName.dot_mem⟩

include sourceName onlyNames in
theorem exchanges_written :
    ∀ exchange ∈ names.exchanges earlier, exchange.1 ≠ [] :=
  (forall_mem_exchanges_iff onlyNames).mpr (source_written sourceName)

include sourceName onlyNames in
/-- No match meets what separates the words of a declaration. -/
theorem exchanges_separate {letter : UInt8} (notName : ¬ IsNameByte letter)
    (notSlash : letter ≠ slash) (notSigil : letter ≠ sigil) :
    ∀ exchange ∈ names.exchanges earlier, Separate exchange.1 [letter] := by
  obtain ⟨descriptorWritten, nameWritten⟩ := source_written sourceName
  refine (forall_mem_exchanges_iff onlyNames).mpr ⟨?_, ?_⟩
  · exact separate_singleton descriptorWritten
      (sourceName.not_mem_descriptor notName notSlash notSigil)
  · exact separate_singleton nameWritten
      fun isThere => notName (sourceName.isNameByte isThere)

include sourceName targetName onlyNames in
theorem exchanges_unbroken : ∀ exchange ∈ names.exchanges earlier,
    lineBreak ∉ exchange.1 ∧ lineBreak ∉ exchange.2 := by
  have notName : ¬ IsNameByte lineBreak := by decide
  have inDescriptor : ∀ {identifier : Identifier}, identifier.IsPackageName →
      lineBreak ∉ Utf8.encode identifier.descriptor := fun isName =>
    isName.not_mem_descriptor notName (by decide) (by decide)
  refine (forall_mem_exchanges_iff onlyNames).mpr
    ⟨⟨inDescriptor sourceName, inDescriptor targetName⟩, ?_, ?_⟩
  · exact fun isThere => notName (sourceName.isNameByte isThere)
  · exact fun isThere => notName (targetName.isNameByte isThere)

include sourceName in
/-- The words before the class name are not touched. -/
theorem not_infix_public :
    ¬ Utf8.encode names.source.descriptor <:+: Utf8.encode ".class public" ∧
      ¬ Utf8.encode names.source.name <:+: Utf8.encode ".class public" := by
  constructor
  · intro inside
    have isThere := inside.subset sourceName.slash_mem
    revert isThere
    decide
  · intro inside
    obtain ⟨front, back, nonempty, isName⟩ := sourceName.exists_dot
    obtain ⟨head, others, isFront⟩ := List.exists_cons_of_ne_nil nonempty
    rw [isName, isFront, List.cons_append] at inside
    -- behind its first byte the text has no dot
    have behind : others ++ dot :: back <:+: Utf8.encode "class public" := by
      rcases List.infix_cons_iff.mp inside with atStart | later
      · exact (List.cons_prefix_cons.mp atStart).2.isInfix
      · exact (List.suffix_cons _ _).isInfix.trans later
    have isThere := behind.subset
      (List.mem_append_right _ List.mem_cons_self)
    revert isThere
    decide

include sourceName onlyNames in
theorem replaceAll_classLine (stem : List UInt8) :
    replaceAll (names.exchanges earlier) (classLine stem) =
      Utf8.encode ".class public" ++ ([blank] ++
        (replaceAll (names.exchanges earlier) (sigil :: stem) ++
          [semicolon])) := by
  have written := exchanges_written sourceName onlyNames
  have opening : replaceAll (names.exchanges earlier)
      (Utf8.encode ".class public") = Utf8.encode ".class public" :=
    replaceAll_of_absent ((forall_mem_exchanges_iff onlyNames).mpr
      (not_infix_public sourceName))
  have closing : replaceAll (names.exchanges earlier) [] = [] :=
    replaceAll_of_absent fun exchange member inside =>
      written exchange member (List.infix_nil.mp inside)
  have isLine : classLine stem = Utf8.encode ".class public" ++ ([blank] ++
      ((sigil :: stem) ++ ([semicolon] ++ []))) := by
    have isOpening : Utf8.encode ".class public L" =
        Utf8.encode ".class public" ++ ([blank] ++ [sigil]) := by decide
    rw [classLine, isOpening]
    simp
  rw [isLine, replaceAll_around written
      (exchanges_separate sourceName onlyNames (by decide) (by decide)
        (by decide)),
    replaceAll_around written
      (exchanges_separate sourceName onlyNames (by decide) (by decide)
        (by decide)),
    opening, closing, List.append_nil]

include sourceName onlyNames in
/-- The exchanges bring one class path to another when they do so behind the
sigil. -/
theorem replaceAll_classLine_eq_iff {new : List UInt8} :
    replaceAll (names.exchanges earlier) (classLine stem) = classLine new ↔
      replaceAll (names.exchanges earlier) (sigil :: stem) =
        sigil :: new := by
  have isLine : classLine new = Utf8.encode ".class public" ++ ([blank] ++
      ((sigil :: new) ++ [semicolon])) := by
    have isOpening : Utf8.encode ".class public L" =
        Utf8.encode ".class public" ++ ([blank] ++ [sigil]) := by decide
    rw [classLine, isOpening]
    simp
  rw [replaceAll_classLine sourceName onlyNames, isLine,
    List.append_cancel_left_eq, List.append_cancel_left_eq,
    List.append_cancel_right_eq]

include sourceName in
/-- The dotted name is not looked for in descriptors. -/
theorem replace_name_descriptor (identifier : Identifier)
    (tail : List UInt8) :
    replace (Utf8.encode names.source.name) (Utf8.encode names.target.name)
        (Utf8.encode identifier.descriptor ++ slash :: tail) =
      Utf8.encode identifier.descriptor ++ slash ::
        replace (Utf8.encode names.source.name)
          (Utf8.encode names.target.name) tail := by
  have nameWritten := (source_written sourceName).2
  have separate : Separate (Utf8.encode names.source.name) [slash] :=
    separate_singleton nameWritten fun isThere =>
      (sourceName.isNameByte isThere).notSlash rfl
  have absent : ¬ Utf8.encode names.source.name <:+:
      Utf8.encode identifier.descriptor := fun inside =>
    identifier.dot_not_mem_encode_descriptor
      (inside.subset sourceName.dot_mem)
  rw [← List.singleton_append, separate.replace_append nameWritten,
    replace_of_absent absent, List.singleton_append]

include sourceName in
theorem replace_descriptor (tail : List UInt8) :
    replace (Utf8.encode names.source.descriptor)
        (Utf8.encode names.target.descriptor)
        (Utf8.encode names.source.descriptor ++ slash :: tail) =
      Utf8.encode names.target.descriptor ++ slash ::
        replace (Utf8.encode names.source.descriptor)
          (Utf8.encode names.target.descriptor) tail := by
  rw [replace_append (source_written sourceName).1, replace_cons]
  rw [Identifier.encode_descriptor]
  intro isMatch
  exact absurd (List.cons_prefix_cons.mp isMatch).1 (by decide)

include sourceName onlyNames in
/-- In the package the descriptor is exchanged once, and everything behind it
like any text. -/
theorem replaceAll_package (tail : List UInt8) :
    replaceAll (names.exchanges earlier)
        (Utf8.encode names.source.descriptor ++ slash :: tail) =
      Utf8.encode names.target.descriptor ++ slash ::
        replaceAll (names.exchanges earlier) tail := by
  induction earlier generalizing tail with
  | nil =>
      change replace _ _ (replace _ _ _) = _
      simp only [Substitution.inBytes]
      rw [replace_descriptor sourceName, replace_name_descriptor sourceName]
      rfl
  | cons substitution rest induction =>
      have isName := mem_inText.mp (onlyNames _ List.mem_cons_self)
      have isStep : ∀ text,
          replaceAll (names.exchanges (substitution :: rest)) text =
            replaceAll (names.exchanges rest)
              (replace (Utf8.encode names.source.name)
                (Utf8.encode names.target.name) text) := by
        intro text
        rw [isName]
        rfl
      rw [isStep, isStep, replace_name_descriptor sourceName]
      exact induction (fun other member =>
        onlyNames other (List.mem_cons_of_mem _ member)) _

variable (different : names.source ≠ names.target)

include sourceName targetName onlyNames different

theorem replaceAll_exchanges_eq_self_iff {text : List UInt8} :
    replaceAll (names.exchanges earlier) text = text ↔
      ¬ Utf8.encode names.source.descriptor <:+: text ∧
        ¬ Utf8.encode names.source.name <:+: text := by
  obtain ⟨order, isOrder, nameGrows, descriptorGrows⟩ :=
    Identifier.exists_order sourceName targetName different
  rw [replaceAll_eq_self_iff isOrder
    (exchanges_written sourceName onlyNames)
    ((forall_mem_exchanges_iff onlyNames).mpr ⟨descriptorGrows, nameGrows⟩)]
  exact forall_mem_exchanges_iff onlyNames

omit different in
/-- What the changed contents declare is where the changed class path leads. -/
theorem declares_replaceAll_iff {new : List Name}
    {contents newStem : List UInt8}
    (isNew : (Path.ofPieces new).bytes = newStem ++ Utf8.encode ".smali")
    (declared : firstLine contents = classLine stem) :
    Declares new (replaceAll (names.exchanges earlier) contents) ↔
      replaceAll (names.exchanges earlier) (sigil :: stem) =
        sigil :: newStem := by
  have isLine : firstLine (replaceAll (names.exchanges earlier) contents) =
      replaceAll (names.exchanges earlier) (classLine stem) := by
    rw [firstLine_replaceAll (exchanges_written sourceName onlyNames)
      (exchanges_unbroken sourceName targetName onlyNames), declared]
  rw [← replaceAll_classLine_eq_iff sourceName onlyNames, ← isLine]
  constructor
  · rintro ⟨other, isOther, isDeclared⟩
    rw [isNew, List.append_cancel_right_eq] at isOther
    rw [isDeclared, isOther]
  · exact fun isDeclared => ⟨newStem, isNew, isDeclared⟩

/-- In the package, contents and layout agree if the exchanges leave alone what
stands behind the package. -/
theorem declares_landing_package_iff {old : List Name}
    {tail contents : List UInt8} (slashless : ∀ name ∈ old, slash ∉ name)
    (isPath : (Path.ofPieces old).bytes =
      Utf8.encode names.source.path ++ slash :: tail ++ Utf8.encode ".smali")
    (declared : firstLine contents =
      classLine (Utf8.encode names.source.path ++ slash :: tail)) :
    Declares (Tree.landing names.source.segments names.target.segments old)
        (replaceAll (names.exchanges earlier) contents) ↔
      names.Spares (Utf8.encode names.source.path ++ slash :: tail) := by
  obtain ⟨rest, nonempty, isOld⟩ := exists_segments_append sourceName.plain
    slashless (isPath.trans (List.append_assoc ..))
  subst isOld
  have isRest : (Path.ofPieces rest).bytes = tail ++ Utf8.encode ".smali" := by
    rw [bytes_path_append _ nonempty, List.append_assoc, List.cons_append,
      List.append_cancel_left_eq] at isPath
    exact (List.cons.inj isPath).2
  have isLanding : (Path.ofPieces (names.target.segments ++ rest)).bytes =
      (Utf8.encode names.target.path ++ slash :: tail) ++
        Utf8.encode ".smali" := by
    rw [bytes_path_append _ nonempty, isRest, List.append_assoc,
      List.cons_append]
  have packaged := replaceAll_package sourceName onlyNames tail
  rw [Identifier.encode_descriptor, Identifier.encode_descriptor,
    List.cons_append, List.cons_append] at packaged
  rw [Tree.landing_append nonempty,
    declares_replaceAll_iff sourceName targetName onlyNames isLanding declared,
    packaged, Spares, remainder_package,
    ← replaceAll_exchanges_eq_self_iff sourceName targetName onlyNames
      different,
    List.cons.injEq, List.append_cancel_left_eq, List.cons.injEq]
  simp

/-- Outside the package, contents and layout agree if the exchanges leave the
class path alone. -/
theorem declares_landing_outside_iff {old : List Name}
    {contents : List UInt8}
    (outside : ¬ Utf8.encode names.source.path ++ [slash] <+: stem)
    (isPath : (Path.ofPieces old).bytes = stem ++ Utf8.encode ".smali")
    (declared : firstLine contents = classLine stem) :
    Declares (Tree.landing names.source.segments names.target.segments old)
        (replaceAll (names.exchanges earlier) contents) ↔
      names.Spares stem := by
  have stays : ¬ Tree.Inside names.source.segments old := by
    rintro ⟨⟨rest, isOld⟩, proper⟩
    subst isOld
    have nonempty : rest ≠ [] := by
      intro empty
      exact proper (by rw [empty, List.append_nil])
    rw [bytes_path_append _ nonempty] at isPath
    obtain ⟨tail, isStem, -⟩ := exists_stem (by decide) isPath
    apply outside
    exact ⟨tail, by rw [isStem, List.append_assoc, List.singleton_append]⟩
  have isRemainder : names.remainder stem = sigil :: stem := if_neg outside
  rw [Tree.landing_of_not_inside stays,
    declares_replaceAll_iff sourceName targetName onlyNames isPath declared,
    Spares, isRemainder,
    replaceAll_exchanges_eq_self_iff sourceName targetName onlyNames different]

/-- Contents and layout go on agreeing exactly when the old name does not show
in the class path but as its package. -/
theorem declares_landing_iff {old : List Name}
    (slashless : ∀ name ∈ old, slash ∉ name) {contents : List UInt8}
    (isPath : (Path.ofPieces old).bytes = stem ++ Utf8.encode ".smali")
    (declared : firstLine contents = classLine stem) :
    Declares (Tree.landing names.source.segments names.target.segments old)
        (replaceAll (names.exchanges earlier) contents) ↔
      names.Spares stem := by
  by_cases inside : Utf8.encode names.source.path ++ [slash] <+: stem
  · obtain ⟨tail, isStem⟩ := inside
    rw [List.append_assoc, List.singleton_append] at isStem
    subst isStem
    exact declares_landing_package_iff sourceName targetName onlyNames
      different slashless isPath declared
  · exact declares_landing_outside_iff sourceName targetName onlyNames
      different inside isPath declared

end Words

end Renaming

end PackageRename
