import PackageRename.Proofs.Renaming
import PackageRename.Proofs.Text.Exchanges

/-!
# Substitutions on bytes

When the text that is sought is ASCII, substituting in a text and replacing its
bytes come to the same.  What a file contains after an update can then be read
off its bytes, whether they are text or not.
-/

namespace PackageRename

open Text

namespace Utf8

/-- All characters are bytes of their own. -/
def IsAscii (characters : List Char) : Prop :=
  ∀ character ∈ characters, character.toNat ≤ 0x7F

variable {pattern replacement text : List Char}

/-- The first byte of a character tells it from an ASCII character. -/
theorem prefix_encodeChar_append_iff {first second : Char}
    (ascii : first.toNat ≤ 0x7F) {bytes more : List UInt8} :
    String.utf8EncodeChar first ++ bytes <+:
        String.utf8EncodeChar second ++ more ↔
      first = second ∧ bytes <+: more := by
  constructor
  · intro isPrefix
    rw [encodeChar_of_ascii ascii, List.singleton_append] at isPrefix
    by_cases secondAscii : second.toNat ≤ 0x7F
    · rw [encodeChar_of_ascii secondAscii, List.singleton_append,
        List.cons_prefix_cons] at isPrefix
      exact ⟨eq_of_encodeChar_eq ascii secondAscii isPrefix.1, isPrefix.2⟩
    · obtain ⟨byte, others, isSecond⟩ := List.exists_cons_of_ne_nil
        (String.utf8EncodeChar_ne_nil (c := second))
      have wide := not_ascii_of_mem_encodeChar (Nat.lt_of_not_le secondAscii)
        (isSecond ▸ List.mem_cons_self)
      rw [isSecond, List.cons_append, List.cons_prefix_cons] at isPrefix
      rw [← isPrefix.1, UInt8.toNat_ofNat'] at wide
      omega
  · rintro ⟨same, isPrefix⟩
    rw [same]
    exact (List.prefix_append_right_inj _).mpr isPrefix

theorem prefix_flatMap_encodeChar_iff (ascii : IsAscii pattern) :
    pattern.flatMap String.utf8EncodeChar <+:
        text.flatMap String.utf8EncodeChar ↔ pattern <+: text := by
  induction pattern generalizing text with
  | nil => simp
  | cons character rest induction =>
      have isAscii := ascii character List.mem_cons_self
      have restAscii : IsAscii rest := fun other member =>
        ascii other (List.mem_cons_of_mem _ member)
      cases text with
      | nil =>
          rw [List.flatMap_cons, encodeChar_of_ascii isAscii]
          simp
      | cons head tail =>
          rw [List.flatMap_cons, List.flatMap_cons,
            prefix_encodeChar_append_iff isAscii, induction restAscii,
            List.cons_prefix_cons]

/-- No match starts at the bytes of a character that is not ASCII. -/
theorem replace_wide_append {bytes skipped more : List UInt8}
    {replaced : List UInt8} {first : UInt8}
    (wide : ∀ byte ∈ skipped, byte ≠ first) :
    replace (first :: bytes) replaced (skipped ++ more) =
      skipped ++ replace (first :: bytes) replaced more := by
  induction skipped with
  | nil => rfl
  | cons head tail induction =>
      rw [List.cons_append, replace_cons, induction fun byte member =>
        wide byte (List.mem_cons_of_mem _ member), List.cons_append]
      intro isMatch
      exact wide head List.mem_cons_self (List.cons_prefix_cons.mp isMatch).1.symm

/-- Replacing an ASCII pattern in a text replaces its bytes. -/
theorem flatMap_encodeChar_replace (ascii : IsAscii pattern)
    (nonempty : pattern ≠ []) :
    (replace pattern replacement text).flatMap String.utf8EncodeChar =
      replace (pattern.flatMap String.utf8EncodeChar)
        (replacement.flatMap String.utf8EncodeChar)
        (text.flatMap String.utf8EncodeChar) := by
  obtain ⟨first, others, isPattern⟩ := List.exists_cons_of_ne_nil nonempty
  have firstAscii : first.toNat ≤ 0x7F :=
    ascii first (isPattern ▸ List.mem_cons_self)
  have isBytes : pattern.flatMap String.utf8EncodeChar =
      UInt8.ofNat first.toNat :: others.flatMap String.utf8EncodeChar := by
    rw [isPattern, List.flatMap_cons, encodeChar_of_ascii firstAscii,
      List.singleton_append]
  have written : pattern.flatMap String.utf8EncodeChar ≠ [] := by
    rw [isBytes]
    exact List.cons_ne_nil _ _
  generalize isLength : text.length = length
  induction length using Nat.strong_induction_on generalizing text with
  | h length induction =>
  by_cases isMatch : pattern <+: text
  · obtain ⟨after, isText⟩ := isMatch
    have shorter : after.length < length := by
      have positive := List.length_pos_iff.mpr nonempty
      rw [← isLength, ← isText, List.length_append]
      omega
    rw [← isText, replace_append nonempty, List.flatMap_append,
      induction _ shorter rfl, List.flatMap_append, replace_append written]
  · cases text with
    | nil => simp
    | cons head tail =>
        have shorter : tail.length < length := by
          rw [← isLength]
          exact Nat.lt_succ_self _
        rw [replace_cons isMatch, List.flatMap_cons, induction _ shorter rfl,
          List.flatMap_cons]
        by_cases headAscii : head.toNat ≤ 0x7F
        · have noMatch := mt (prefix_flatMap_encodeChar_iff ascii).mp isMatch
          rw [List.flatMap_cons, encodeChar_of_ascii headAscii,
            List.singleton_append] at noMatch
          rw [encodeChar_of_ascii headAscii, List.singleton_append,
            List.singleton_append, replace_cons noMatch]
        · rw [isBytes, replace_wide_append]
          intro byte member same
          have wide := not_ascii_of_mem_encodeChar
            (Nat.lt_of_not_le headAscii) member
          rw [same, UInt8.toNat_ofNat'] at wide
          omega

end Utf8

namespace Substitution

variable {substitution : Substitution} {substitutions : List Substitution}
variable {text : String}

/-- The text that is sought is ASCII, and there is some. -/
structure IsAscii (substitution : Substitution) : Prop where
  ascii : Utf8.IsAscii substitution.sought.toList
  written : substitution.sought ≠ ""

/-- The bytes that are sought, and those that take their place. -/
def inBytes (substitution : Substitution) : List UInt8 × List UInt8 :=
  (Utf8.encode substitution.sought, Utf8.encode substitution.replacement)

theorem encode_apply (isAscii : substitution.IsAscii) :
    Utf8.encode (substitution.apply text) =
      replace substitution.inBytes.1 substitution.inBytes.2
        (Utf8.encode text) := by
  rw [Utf8.encode_eq_flatMap, toList_apply isAscii.written,
    Utf8.flatMap_encodeChar_replace isAscii.ascii
      (Renaming.toList_ne_nil isAscii.written)]
  simp only [inBytes, Utf8.encode_eq_flatMap]

theorem encode_applyAll
    (areAscii : ∀ substitution ∈ substitutions, substitution.IsAscii) :
    Utf8.encode (applyAll substitutions text).1 =
      replaceAll (substitutions.map inBytes) (Utf8.encode text) := by
  induction substitutions generalizing text with
  | nil => rfl
  | cons substitution rest induction =>
      rw [applyAll_cons, induction fun other member =>
        areAscii other (List.mem_cons_of_mem _ member),
        encode_apply (areAscii substitution List.mem_cons_self)]
      rfl

theorem not_infix_of_not_occursInBytes (isAscii : substitution.IsAscii)
    {contents : List UInt8}
    (absent : substitution.occursInBytes contents = false) :
    ¬ substitution.inBytes.1 <:+: contents := by
  have sought : (substitution.sought != "") = true := by
    simpa using isAscii.written
  rwa [occursInBytes, sought, Bool.true_and, occursIn_eq_false_iff] at absent

end Substitution

namespace File

variable {file : File} {strategy : WriteStrategy}
variable {substitutions : List Substitution}

/-- A file whose update succeeds gets what the replacements make of its bytes. -/
theorem contents_revised_of_revisable
    (areAscii : ∀ substitution ∈ substitutions, substitution.IsAscii)
    (revisable : file.IsRevisable substitutions) :
    (file.revised strategy substitutions).contents =
      replaceAll (substitutions.map Substitution.inBytes) file.contents := by
  rw [IsRevisable] at revisable
  cases decoded : Utf8.decode? file.contents with
  | none =>
      rw [decoded] at revisable
      rw [revised_of_binary decoded, replaceAll_of_absent]
      simp only [List.forall_mem_map]
      exact fun substitution member =>
        Substitution.not_infix_of_not_occursInBytes
          (areAscii substitution member) (revisable substitution member)
  | some text =>
      have isText := Utf8.encode_of_decode? decoded
      rw [decoded] at revisable
      rw [← isText, ← Substitution.encode_applyAll areAscii]
      rcases revisable with same | writable
      · rw [revised, decoded]
        simp only [same, true_or, ↓reduceIte, isText]
      · exact contents_revised decoded writable

theorem revised_of_not_revisable
    (notRevisable : ¬ file.IsRevisable substitutions) :
    file.revised strategy substitutions = file := by
  cases decoded : Utf8.decode? file.contents with
  | none => exact revised_of_binary decoded
  | some text =>
      apply revised_of_readOnly
      rw [IsRevisable, decoded, not_or] at notRevisable
      exact eq_true_of_ne_false notRevisable.2

end File

end PackageRename
