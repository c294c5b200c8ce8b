import Mathlib.Data.List.TakeWhile
import PackageRename.Manifest
import PackageRename.Proofs.Text.Splitting

/-!
# The grammar of manifests

What is read of a manifest is as much of it as can be read: behind the first
`<manifest` stand attributes, the first `package` among them declares the
package, and nothing that is written in another way does.
-/

namespace PackageRename

open Text

namespace Manifest

/-- Space, tab, carriage return and line feed. -/
def IsBlank (character : Char) : Prop :=
  character ∈ [' ', '\t', '\r', '\n']

instance (character : Char) : Decidable (IsBlank character) :=
  inferInstanceAs (Decidable (_ ∈ _))

/-- What the names of attributes are made of. -/
def IsNameLetter (character : Char) : Prop :=
  isAlphanumeric character = true ∨ character ∈ [':', '_', '-', '.']

theorem isBlank_iff {character : Char} :
    isBlank character = true ↔ IsBlank character := by
  simp [isBlank, IsBlank, or_assoc]

theorem isNameCharacter_iff {character : Char} :
    isNameCharacter character = true ↔ IsNameLetter character := by
  simp [isNameCharacter, IsNameLetter, or_assoc]

theorem IsNameLetter.not_blank {character : Char}
    (isLetter : IsNameLetter character) : ¬ IsBlank character := by
  intro isBlank
  have fails : isNameCharacter character = false := by
    simp only [IsBlank, List.mem_cons, List.not_mem_nil, or_false] at isBlank
    rcases isBlank with rfl | rfl | rfl | rfl <;> decide +kernel
  rw [← isNameCharacter_iff, fails] at isLetter
  cases isLetter

theorem sign_unnamed : ¬ IsNameLetter '=' := by
  rw [← isNameCharacter_iff]
  decide +kernel

/-- An attribute with the white space before it, as it is written. -/
structure WrittenAttribute where
  gap : List Char
  name : List Char
  beforeSign : List Char
  behindSign : List Char
  quote : Char
  value : List Char
  gap_ne : gap ≠ []
  gap_blank : ∀ character ∈ gap, IsBlank character
  name_ne : name ≠ []
  name_letters : ∀ character ∈ name, IsNameLetter character
  before_blank : ∀ character ∈ beforeSign, IsBlank character
  behind_blank : ∀ character ∈ behindSign, IsBlank character
  quote_is : quote = '"' ∨ quote = '\''
  value_unquoted : quote ∉ value

namespace WrittenAttribute

def text (written : WrittenAttribute) : List Char :=
  written.gap ++ (written.name ++ (written.beforeSign ++ '=' ::
    (written.behindSign ++ written.quote ::
      (written.value ++ [written.quote]))))

/-- What is read of it. -/
def item (written : WrittenAttribute) : Attribute :=
  ⟨written.name, written.value⟩

/-- A quote is no letter of a name. -/
theorem quote_unnamed (written : WrittenAttribute) :
    ¬ IsNameLetter written.quote := by
  rw [← isNameCharacter_iff]
  rcases written.quote_is with isQuote | isQuote <;> rw [isQuote] <;>
    decide +kernel

@[simp]
theorem name_item (written : WrittenAttribute) :
    written.item.name = written.name :=
  rfl

end WrittenAttribute

/-- The text declares a package: attributes follow the first `<manifest`, and
the first of them that is named `package` has this value. -/
def DeclaresPackage (xml value : String) : Prop :=
  ∃ (front : List Char) (others : List WrittenAttribute)
      (declaration : WrittenAttribute) (rest : List Char),
    SplitsFirst opening xml.toList front
        (others.flatMap WrittenAttribute.text ++ (declaration.text ++ rest)) ∧
      (∀ other ∈ others, other.name ≠ packageAttribute) ∧
      declaration.name = packageAttribute ∧
      declaration.value = value.toList

variable {text front rest value : List Char} {item : Attribute}

/-! ### One reader after the other -/

/-- Reading goes on to the first character that fails the test. -/
theorem span_append_cons {test : Char → Bool} {stop : Char}
    (passes : ∀ character ∈ front, test character = true)
    (stops : test stop = false) (back : List Char) :
    (front ++ stop :: back).takeWhile test = front ∧
      (front ++ stop :: back).dropWhile test = stop :: back := by
  rw [List.takeWhile_append_of_pos passes, List.dropWhile_append_of_pos passes,
    List.takeWhile_cons_of_neg (by simp [stops]),
    List.dropWhile_cons_of_neg (by simp [stops]), List.append_nil]
  exact ⟨rfl, rfl⟩

/-- Where reading has stopped, all that was read passes and what comes next
does not. -/
theorem span_of_dropWhile {test : Char → Bool} {stop : Char}
    (stopped : text.dropWhile test = stop :: rest) :
    text = text.takeWhile test ++ stop :: rest ∧ test stop = false ∧
      ∀ character ∈ text.takeWhile test, test character = true := by
  refine ⟨?_, ?_, fun character => List.mem_takeWhile_imp⟩
  · rw [← stopped, List.takeWhile_append_dropWhile]
  · have fails := List.head_dropWhile_not (l := text) test (by simp [stopped])
    simpa [stopped] using fails

theorem afterFirst_eq_some_iff {sought : List Char} :
    afterFirst sought text = some rest ↔
      ∃ front, SplitsFirst sought text front rest := by
  induction text with
  | nil =>
      rw [afterFirst]
      split
      · rename_i empty
        subst empty
        have splits := fun front =>
          @splitsFirst_nil_iff Char [] [] front rest
        simp only [List.append_nil] at splits
        simp [splits, eq_comm]
      · rename_i written
        refine ⟨nofun, fun ⟨front, splits⟩ => ?_⟩
        have isText := splits.isText
        simp [written] at isText
  | cons head tail induction =>
      rw [afterFirst]
      split
      · rename_i isMatch
        obtain ⟨after, isText⟩ := List.isPrefixOf_iff_prefix.mp isMatch
        rw [← isText, List.drop_left]
        simp [splitsFirst_nil_iff, eq_comm]
      · rename_i noMatch
        rw [List.isPrefixOf_iff_prefix] at noMatch
        rw [induction]
        simp [splitsFirst_cons_iff noMatch]

theorem quoted?_eq_some_iff :
    quoted? text = some (value, rest) ↔
      ∃ quote, (quote = '"' ∨ quote = '\'') ∧ quote ∉ value ∧
        text = quote :: (value ++ quote :: rest) := by
  cases text with
  | nil => simp [quoted?]
  | cons quote tail =>
      rw [quoted?]
      constructor
      · intro found
        split at found
        · rename_i isQuote
          split at found
          · cases found
          · rename_i close after isRest
            obtain ⟨rfl, rfl⟩ := Prod.mk.inj (Option.some.inj found)
            obtain ⟨isTail, closes, passes⟩ := span_of_dropWhile isRest
            rw [bne_eq_false_iff_eq] at closes
            rw [closes] at isTail
            refine ⟨quote, isQuote, fun member => ?_, congrArg _ isTail⟩
            simpa using passes quote member
        · cases found
      · rintro ⟨sign, isQuote, unquoted, isText⟩
        obtain ⟨rfl, rfl⟩ := List.cons.inj isText
        have passes : ∀ character ∈ value, (character != quote) = true := by
          intro character member
          rw [bne_iff_ne]
          rintro rfl
          exact unquoted member
        obtain ⟨taken, dropped⟩ :=
          span_append_cons passes (bne_self_eq_false quote) rest
        rw [if_pos isQuote, dropped, taken]

theorem blank_span {stop : Char}
    (blank : ∀ character ∈ front, IsBlank character) (stops : ¬ IsBlank stop)
    (back : List Char) :
    (front ++ stop :: back).takeWhile isBlank = front ∧
      (front ++ stop :: back).dropWhile isBlank = stop :: back := by
  refine span_append_cons (fun character member =>
    isBlank_iff.mpr (blank character member)) ?_ back
  rwa [Bool.eq_false_iff, ne_eq, isBlank_iff]

theorem name_span {stop : Char}
    (letters : ∀ character ∈ front, IsNameLetter character)
    (stops : ¬ IsNameLetter stop) (back : List Char) :
    (front ++ stop :: back).takeWhile isNameCharacter = front ∧
      (front ++ stop :: back).dropWhile isNameCharacter = stop :: back := by
  refine span_append_cons (fun character member =>
    isNameCharacter_iff.mpr (letters character member)) ?_ back
  rwa [Bool.eq_false_iff, ne_eq, isNameCharacter_iff]

namespace WrittenAttribute

/-- An attribute is read whole, whatever follows it. -/
theorem attribute?_text_append (written : WrittenAttribute)
    (rest : List Char) :
    attribute? (written.text ++ rest) = some (written.item, rest) := by
  obtain ⟨gap, name, beforeSign, behindSign, quote, value, gap_ne, gap_blank,
    name_ne, name_letters, before_blank, behind_blank, quote_is,
    value_unquoted⟩ := written
  obtain ⟨first, letters, rfl⟩ := List.exists_cons_of_ne_nil name_ne
  have signStops : ¬ IsBlank '=' := by decide
  have quoteStops : ¬ IsBlank quote := by
    rcases quote_is with rfl | rfl <;> decide
  have isFirst : IsNameLetter first := name_letters first List.mem_cons_self
  obtain ⟨stop, more, isNext, stops⟩ : ∃ stop more,
      beforeSign ++ '=' :: (behindSign ++ quote :: (value ++ quote :: rest)) =
        stop :: more ∧ ¬ IsNameLetter stop := by
    cases beforeSign with
    | nil => exact ⟨_, _, rfl, sign_unnamed⟩
    | cons blank others =>
        exact ⟨_, _, rfl, fun isLetter =>
          isLetter.not_blank (before_blank blank List.mem_cons_self)⟩
  have isText : text ⟨gap, first :: letters, beforeSign, behindSign, quote,
      value, gap_ne, gap_blank, name_ne, name_letters, before_blank,
      behind_blank, quote_is, value_unquoted⟩ ++ rest =
        gap ++ first :: (letters ++ stop :: more) := by
    rw [← isNext]
    simp [text]
  have isQuoted : quoted? (quote :: (value ++ quote :: rest)) =
      some (value, rest) :=
    quoted?_eq_some_iff.mpr ⟨quote, quote_is, value_unquoted, rfl⟩
  obtain ⟨inGap, behindGap⟩ :=
    blank_span gap_blank isFirst.not_blank (letters ++ stop :: more)
  obtain ⟨inName, behindName⟩ := name_span name_letters stops more
  obtain ⟨-, atSign⟩ := blank_span before_blank signStops
    (behindSign ++ quote :: (value ++ quote :: rest))
  obtain ⟨-, atQuote⟩ :=
    blank_span behind_blank quoteStops (value ++ quote :: rest)
  rw [List.cons_append] at inName behindName
  rw [isNext] at atSign
  rw [isText, attribute?]
  simp only [inGap, behindGap, inName, behindName, atSign, atQuote, isQuoted,
    gap_ne, name_ne, or_self, if_false, Option.map_some]
  rfl

end WrittenAttribute

theorem attribute?_eq_some_iff :
    attribute? text = some (item, rest) ↔
      ∃ written : WrittenAttribute,
        text = written.text ++ rest ∧ written.item = item := by
  constructor
  · intro found
    unfold attribute? at found
    dsimp only at found
    split at found
    · cases found
    rename_i written
    obtain ⟨gapWritten, nameWritten⟩ := not_or.mp written
    split at found
    · rename_i valued isSign
      obtain ⟨⟨value, after⟩, isQuoted, same⟩ := Option.map_eq_some_iff.mp found
      cases same
      obtain ⟨quote, isQuote, unquoted, isValued⟩ :=
        quoted?_eq_some_iff.mp isQuoted
      have blanks : ∀ {text : List Char},
          ∀ character ∈ text.takeWhile isBlank, IsBlank character :=
        fun character member => isBlank_iff.mp (List.mem_takeWhile_imp member)
      refine ⟨{
        gap := text.takeWhile isBlank
        name := (text.dropWhile isBlank).takeWhile isNameCharacter
        beforeSign := ((text.dropWhile isBlank).dropWhile
          isNameCharacter).takeWhile isBlank
        behindSign := valued.takeWhile isBlank
        quote, value
        gap_ne := gapWritten
        gap_blank := blanks
        name_ne := nameWritten
        name_letters := fun character member =>
          isNameCharacter_iff.mp (List.mem_takeWhile_imp member)
        before_blank := blanks
        behind_blank := blanks
        quote_is := isQuote
        value_unquoted := unquoted }, ?_, rfl⟩
      simp only [WrittenAttribute.text, List.append_assoc, List.cons_append,
        List.nil_append]
      rw [← isValued, List.takeWhile_append_dropWhile, ← isSign,
        List.takeWhile_append_dropWhile, List.takeWhile_append_dropWhile,
        List.takeWhile_append_dropWhile]
    · cases found
  · rintro ⟨written, rfl, rfl⟩
    exact written.attribute?_text_append rest

/-! ### All attributes -/

theorem attributes_of_none (stops : attribute? text = none) :
    attributes text = [] := by
  rw [attributes]
  split
  · rfl
  · rename_i found
    rw [stops] at found
    cases found

theorem attributes_of_some (found : attribute? text = some (item, rest)) :
    attributes text = item :: attributes rest := by
  rw [attributes]
  split
  · rename_i stops
    rw [found] at stops
    cases stops
  · rename_i first after isFirst
    rw [found] at isFirst
    cases isFirst
    rfl

/-- The first `package` attribute is found behind others, and found there
whatever follows it. -/
theorem find?_attributes_eq_some_iff :
    (attributes text).find? (·.name = packageAttribute) = some item ↔
      ∃ (others : List WrittenAttribute) (declaration : WrittenAttribute)
        (rest : List Char),
        text = others.flatMap WrittenAttribute.text ++
          (declaration.text ++ rest) ∧
        (∀ other ∈ others, other.name ≠ packageAttribute) ∧
        declaration.name = packageAttribute ∧ declaration.item = item := by
  constructor
  · intro found
    induction text using attributes.induct with
    | case1 text stops =>
        rw [attributes_of_none stops] at found
        cases found
    | case2 text first rest isFirst shorter induction =>
        obtain ⟨written, rfl, rfl⟩ := attribute?_eq_some_iff.mp isFirst
        rw [attributes_of_some isFirst] at found
        by_cases isPackage : written.name = packageAttribute
        · rw [List.find?_cons_of_pos (by simp [isPackage])] at found
          exact ⟨[], written, rest, rfl, nofun, isPackage, Option.some.inj found⟩
        · rw [List.find?_cons_of_neg (by simp [isPackage])] at found
          obtain ⟨others, declaration, after, rfl, different, declares⟩ :=
            induction found
          refine ⟨written :: others, declaration, after, ?_, ?_, declares⟩
          · rw [List.flatMap_cons, List.append_assoc]
          · exact List.forall_mem_cons.mpr ⟨isPackage, different⟩
  · rintro ⟨others, declaration, rest, rfl, different, isPackage, rfl⟩
    induction others with
    | nil =>
        rw [List.flatMap_nil, List.nil_append,
          attributes_of_some (declaration.attribute?_text_append rest)]
        exact List.find?_cons_of_pos (decide_eq_true isPackage)
    | cons other more induction =>
        rw [List.flatMap_cons, List.append_assoc,
          attributes_of_some (other.attribute?_text_append _)]
        obtain ⟨isOther, others⟩ := List.forall_mem_cons.mp different
        rw [List.find?_cons_of_neg (by simp [isOther])]
        exact induction others

/-! ### The declared package -/

theorem declaredPackage_eq_some_iff {xml value : String} :
    declaredPackage xml = some value ↔ DeclaresPackage xml value := by
  have isDeclared : declaredPackage xml = some value ↔
      ∃ rest, afterFirst opening xml.toList = some rest ∧ ∃ item,
        (attributes rest).find? (·.name = packageAttribute) = some item ∧
        item.value = value.toList := by
    simp [declaredPackage, Option.bind_eq_some_iff, ← String.toList_inj]
  rw [isDeclared]
  constructor
  · rintro ⟨rest, isRest, item, isFound, isValue⟩
    obtain ⟨front, splits⟩ := afterFirst_eq_some_iff.mp isRest
    obtain ⟨others, declaration, after, rfl, different, isPackage, rfl⟩ :=
      find?_attributes_eq_some_iff.mp isFound
    exact ⟨front, others, declaration, after, splits, different, isPackage,
      isValue⟩
  · rintro ⟨front, others, declaration, after, splits, different, isPackage,
      isValue⟩
    exact ⟨_, afterFirst_eq_some_iff.mpr ⟨front, splits⟩, declaration.item,
      find?_attributes_eq_some_iff.mpr ⟨others, declaration, after, rfl,
        different, isPackage, rfl⟩, isValue⟩

/-- A package is declared by what the grammar describes, and there is no other
answer. -/
theorem declaredPackage_grammar (xml : String) :
    (∀ value, declaredPackage xml = some value ↔ DeclaresPackage xml value) ∧
      (declaredPackage xml = none ↔ ∀ value, ¬ DeclaresPackage xml value) := by
  refine ⟨fun value => declaredPackage_eq_some_iff, ?_⟩
  simp only [← declaredPackage_eq_some_iff, Option.eq_none_iff_forall_ne_some,
    ne_eq]

end Manifest

end PackageRename
