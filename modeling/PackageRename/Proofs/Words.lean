import PackageRename.Proofs.Substitution

/-!
# Package names of words

A package name of two or more words has a dot inside and its descriptor has a
slash.  Neither holds what separates the words of a class declaration, and
exchanging the forms of one name for those of another moves a text in one
direction of a common order.
-/

namespace PackageRename

open Text

def lineBreak : UInt8 := 0x0A

def blank : UInt8 := 0x20

def semicolon : UInt8 := 0x3B

/-- The byte that opens an object type descriptor. -/
def sigil : UInt8 := 0x4C

/-- A letter, a digit or an underscore. -/
def IsWordCharacter (character : Char) : Prop :=
  character.isAlphanum = true ∨ character = '_'

instance (character : Char) : Decidable (IsWordCharacter character) :=
  inferInstanceAs (Decidable (_ ∨ _))

theorem IsWordCharacter.ascii {character : Char}
    (isWord : IsWordCharacter character) : character.toNat ≤ 0x7F := by
  rcases isWord with alphanumeric | underscore
  · unfold Char.isAlphanum Char.isAlpha Char.isUpper Char.isLower Char.isDigit
      at alphanumeric
    simp only [Bool.or_eq_true, Bool.and_eq_true, decide_eq_true_eq,
      UInt32.le_iff_toNat_le, ge_iff_le] at alphanumeric
    have isValue : character.toNat = character.val.toNat := rfl
    have lastUpper : 'Z'.val.toNat = 90 := rfl
    have lastLower : 'z'.val.toNat = 122 := rfl
    have lastDigit : '9'.val.toNat = 57 := rfl
    omega
  · subst underscore
    decide

/-- A byte that can stand in a package name. -/
structure IsNameByte (byte : UInt8) : Prop where
  notLineBreak : byte ≠ lineBreak
  notBlank : byte ≠ blank
  notSemicolon : byte ≠ semicolon
  notSlash : byte ≠ slash
  notNul : byte ≠ 0

instance (byte : UInt8) : Decidable (IsNameByte byte) :=
  decidable_of_iff (byte ≠ lineBreak ∧ byte ≠ blank ∧ byte ≠ semicolon ∧
      byte ≠ slash ∧ byte ≠ 0)
    ⟨fun ⟨notLineBreak, notBlank, notSemicolon, notSlash, notNul⟩ =>
      ⟨notLineBreak, notBlank, notSemicolon, notSlash, notNul⟩,
    fun isName => ⟨isName.notLineBreak, isName.notBlank, isName.notSemicolon,
      isName.notSlash, isName.notNul⟩⟩

/-- What holds of the dot and of each ASCII letter, digit and underscore is
tried out on their codes. -/
theorem forall_character_of_name (property : Char → Prop)
    (everyCode : ∀ code < 128, (Char.ofNat code = '.' ∨
      IsWordCharacter (Char.ofNat code)) → property (Char.ofNat code))
    {character : Char} (isWord : character = '.' ∨ IsWordCharacter character) :
    property character := by
  have ascii : character.toNat ≤ 0x7F := by
    rcases isWord with isDot | isWord
    · subst isDot
      decide
    · exact isWord.ascii
  have holds := everyCode character.toNat (by omega)
  rw [Char.ofNat_toNat] at holds
  exact holds isWord

theorem isNameByte_of_character {character : Char}
    (isWord : character = '.' ∨ IsWordCharacter character) :
    IsNameByte (UInt8.ofNat character.toNat) :=
  forall_character_of_name
    (fun character => IsNameByte (UInt8.ofNat character.toNat))
    (by decide +kernel) isWord

namespace Identifier

variable {identifier first second : Identifier}

/-- Two or more words with dots between them. -/
structure IsPackageName (identifier : Identifier) : Prop where
  severalWords : 2 ≤ identifier.segments.length
  nonempty : ∀ word ∈ identifier.segments, word ≠ []
  characters : ∀ character ∈ identifier.name.toList,
    character = '.' ∨ IsWordCharacter character

instance (identifier : Identifier) : Decidable identifier.IsPackageName :=
  -- The characters of the name are tried, not all that there are.
  have : Decidable (∀ character ∈ identifier.name.toList,
      character = '.' ∨ IsWordCharacter character) := List.decidableBAll _ _
  decidable_of_iff (2 ≤ identifier.segments.length ∧
      (∀ word ∈ identifier.segments, word ≠ []) ∧
      ∀ character ∈ identifier.name.toList,
        character = '.' ∨ IsWordCharacter character)
    ⟨fun ⟨several, nonempty, characters⟩ => ⟨several, nonempty, characters⟩,
    fun isName => ⟨isName.severalWords, isName.nonempty, isName.characters⟩⟩

/-! ### The bytes of a package name -/

theorem mem_intercalate {separator byte : UInt8} {words : List Name}
    {word : Name} (member : word ∈ words) (inWord : byte ∈ word) :
    byte ∈ [separator].intercalate words := by
  induction words with
  | nil => cases member
  | cons first rest induction =>
      cases rest with
      | nil =>
          rw [List.mem_singleton.mp member] at inWord
          simpa using inWord
      | cons next more =>
          rw [List.intercalate_cons_cons]
          rcases List.mem_cons.mp member with isFirst | inRest
          · subst isFirst
            exact List.mem_append_left _ (List.mem_append_left _ inWord)
          · exact List.mem_append_right _ (induction inRest)

theorem IsPackageName.isAscii (isName : identifier.IsPackageName) :
    Utf8.IsAscii identifier.name.toList := by
  intro character member
  rcases isName.characters character member with isDot | isWord
  · subst isDot
    decide
  · exact isWord.ascii

theorem IsPackageName.isNameByte (isName : identifier.IsPackageName)
    {byte : UInt8} (member : byte ∈ Utf8.encode identifier.name) :
    IsNameByte byte := by
  rw [Utf8.encode_eq_flatMap, List.mem_flatMap] at member
  obtain ⟨character, inName, isByte⟩ := member
  rw [Utf8.encodeChar_of_ascii (isName.isAscii character inName),
    List.mem_singleton] at isByte
  rw [isByte]
  exact isNameByte_of_character (isName.characters character inName)

/-- A dot follows something in the name. -/
theorem IsPackageName.exists_dot (isName : identifier.IsPackageName) :
    ∃ front back, front ≠ [] ∧
      Utf8.encode identifier.name = front ++ dot :: back := by
  have several := isName.severalWords
  have nonempty := isName.nonempty
  have isIntercalated := encode_name identifier
  cases isSegments : identifier.segments with
  | nil =>
      rw [isSegments] at several
      cases several
  | cons word others =>
      cases others with
      | nil =>
          rw [isSegments, List.length_singleton] at several
          omega
      | cons next more =>
          rw [isSegments] at isIntercalated nonempty
          refine ⟨word, [dot].intercalate (next :: more),
            nonempty word List.mem_cons_self, ?_⟩
          rw [isIntercalated, List.intercalate_cons_cons, List.append_assoc,
            List.singleton_append]

theorem IsPackageName.dot_mem (isName : identifier.IsPackageName) :
    dot ∈ Utf8.encode identifier.name := by
  obtain ⟨front, back, -, isBytes⟩ := isName.exists_dot
  rw [isBytes]
  exact List.mem_append_right _ List.mem_cons_self

theorem IsPackageName.written (isName : identifier.IsPackageName) :
    identifier.name ≠ "" := by
  intro unnamed
  have isDot := isName.dot_mem
  rw [unnamed] at isDot
  exact absurd isDot (by decide)

/-- A word of the name can stand between slashes. -/
theorem IsPackageName.plain (isName : identifier.IsPackageName) :
    identifier.HasPlainSegments := by
  intro word member
  have dotless := dot_not_mem_segment member
  have isNameByte : ∀ byte ∈ word, IsNameByte byte := by
    intro byte inWord
    apply isName.isNameByte
    rw [encode_name]
    exact mem_intercalate member inWord
  refine ⟨isName.nonempty word member, ?_, ?_, ?_, ?_⟩
  · intro isDot
    exact dotless (isDot ▸ List.mem_cons_self)
  · intro areDots
    exact dotless (areDots ▸ List.mem_cons_self)
  · exact fun isThere => (isNameByte slash isThere).notSlash rfl
  · exact fun isThere => (isNameByte 0 isThere).notNul rfl

/-! ### The bytes of a descriptor -/

theorem encode_descriptor (identifier : Identifier) :
    Utf8.encode identifier.descriptor =
      sigil :: Utf8.encode identifier.path := by
  rw [descriptor, Utf8.encode_ofList, List.flatMap_cons,
    ← Utf8.encode_eq_flatMap]
  rfl

theorem mem_encode_path {byte : UInt8}
    (member : byte ∈ Utf8.encode identifier.path) :
    byte = slash ∨ byte ∈ Utf8.encode identifier.name := by
  rw [encode_path, List.mem_map] at member
  obtain ⟨original, inName, isByte⟩ := member
  rw [slashed] at isByte
  split at isByte
  · exact .inl isByte.symm
  · exact .inr (isByte ▸ inName)

theorem dot_not_mem_encode_descriptor (identifier : Identifier) :
    dot ∉ Utf8.encode identifier.descriptor := by
  rw [encode_descriptor, encode_path, List.mem_cons, List.mem_map, not_or]
  refine ⟨by decide, ?_⟩
  rintro ⟨original, -, isDot⟩
  rw [slashed] at isDot
  split at isDot
  · exact absurd isDot (by decide)
  · rename_i notDot
    exact notDot isDot

theorem IsPackageName.slash_mem (isName : identifier.IsPackageName) :
    slash ∈ Utf8.encode identifier.descriptor := by
  rw [encode_descriptor, encode_path]
  refine List.mem_cons_of_mem _ (List.mem_map.mpr ⟨dot, isName.dot_mem, ?_⟩)
  exact if_pos rfl

/-- What is in no package name and is neither slash nor sigil is in no
descriptor. -/
theorem IsPackageName.not_mem_descriptor (isName : identifier.IsPackageName)
    {byte : UInt8} (notName : ¬ IsNameByte byte) (notSlash : byte ≠ slash)
    (notSigil : byte ≠ sigil) : byte ∉ Utf8.encode identifier.descriptor := by
  rw [encode_descriptor, List.mem_cons, not_or]
  refine ⟨notSigil, fun member => ?_⟩
  rcases mem_encode_path member with isSlash | inName
  · exact notSlash isSlash
  · exact notName (isName.isNameByte inName)

/-! ### The order of names -/

/-- Dots and slashes have one rank. -/
def rank (byte : UInt8) : Nat :=
  if byte = slash then dot.toNat else byte.toNat

theorem map_rank_path (identifier : Identifier) :
    (Utf8.encode identifier.path).map rank =
      (Utf8.encode identifier.name).map rank := by
  rw [encode_path, List.map_map]
  apply List.map_congr_left
  intro byte _
  rw [Function.comp_apply, slashed]
  split
  · rename_i isDot
    rw [isDot]
    rfl
  · rfl

theorem eq_of_map_rank {left right : List UInt8} (leftSlashless : slash ∉ left)
    (rightSlashless : slash ∉ right)
    (same : left.map rank = right.map rank) : left = right := by
  induction left generalizing right with
  | nil => exact (List.map_eq_nil_iff.mp same.symm).symm
  | cons head tail induction =>
      cases right with
      | nil => cases same
      | cons other rest =>
          rw [List.mem_cons, not_or] at leftSlashless rightSlashless
          rw [List.map_cons, List.map_cons, List.cons.injEq, rank, rank,
            if_neg (Ne.symm leftSlashless.1),
            if_neg (Ne.symm rightSlashless.1)] at same
          rw [UInt8.toNat_inj.mp same.1,
            induction leftSlashless.2 rightSlashless.2 same.2]

theorem ranksBelow_descriptor
    (below : RanksBelow rank (Utf8.encode first.name)
      (Utf8.encode second.name)) :
    RanksBelow rank (Utf8.encode first.descriptor)
      (Utf8.encode second.descriptor) := by
  rw [RanksBelow] at below ⊢
  rw [encode_descriptor, encode_descriptor, List.map_cons, List.map_cons,
    map_rank_path, map_rank_path]
  exact below.append_left [rank sigil]

/-- Both forms of one name come before those of the other. -/
theorem exists_order (firstName : first.IsPackageName)
    (secondName : second.IsPackageName) (different : first ≠ second) :
    ∃ order, IsExchangeOrder order ∧
      order (Utf8.encode first.name) (Utf8.encode second.name) ∧
      order (Utf8.encode first.descriptor)
        (Utf8.encode second.descriptor) := by
  have exchange := isExchangeOrder_ranksBelow rank
  rcases ranksBelow_or_eq_or rank (Utf8.encode first.name)
    (Utf8.encode second.name) with below | same | above
  · exact ⟨_, exchange, below, ranksBelow_descriptor below⟩
  · have sameName := Utf8.encode_injective (eq_of_map_rank
      (fun isThere => (firstName.isNameByte isThere).notSlash rfl)
      (fun isThere => (secondName.isNameByte isThere).notSlash rfl) same)
    cases first
    cases second
    exact absurd (congrArg Identifier.mk sameName) different
  · exact ⟨_, exchange.flip, above, ranksBelow_descriptor above⟩

end Identifier

end PackageRename
