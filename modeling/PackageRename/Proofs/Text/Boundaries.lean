import Mathlib.Data.List.Infix
import PackageRename.Proofs.Text.Bytes

/-!
# Where characters start

The first byte of a character is no later byte of another.  So the bytes of a
word stand in the bytes of a text only where the word stands in the text.
-/

namespace PackageRename

namespace Utf8

/-- Bytes that start with a character tell which one. -/
theorem encodeChar_append_eq {first second : Char} {bytes more : List UInt8}
    (same : String.utf8EncodeChar first ++ bytes =
      String.utf8EncodeChar second ++ more) :
    first = second ∧ bytes = more := by
  have isFirst := ByteArray.utf8DecodeChar?_utf8EncodeChar_append
    (b := bytes.toByteArray) (c := first)
  rw [← List.toByteArray_append, same, List.toByteArray_append,
    ByteArray.utf8DecodeChar?_utf8EncodeChar_append] at isFirst
  cases isFirst
  exact ⟨rfl, List.append_cancel_left same⟩

/-- A word starts a text if its bytes start the bytes of the text. -/
theorem prefix_of_flatMap_encodeChar {word text : List Char}
    (isPrefix : word.flatMap String.utf8EncodeChar <+:
      text.flatMap String.utf8EncodeChar) : word <+: text := by
  induction word generalizing text with
  | nil => exact List.nil_prefix
  | cons letter letters induction =>
      cases text with
      | nil =>
          have nothing := List.prefix_nil.mp isPrefix
          rw [List.flatMap_cons, List.append_eq_nil_iff] at nothing
          exact absurd nothing.1 String.utf8EncodeChar_ne_nil
      | cons head tail =>
          obtain ⟨rest, isText⟩ := isPrefix
          rw [List.flatMap_cons, List.flatMap_cons, List.append_assoc]
            at isText
          obtain ⟨same, goesOn⟩ := encodeChar_append_eq isText
          rw [same]
          exact List.cons_prefix_cons.mpr ⟨rfl, induction ⟨rest, goesOn⟩⟩

/-- A word does not start inside the bytes of a character. -/
theorem not_prefix_of_later {letter head : Char} {skipped later : List UInt8}
    {bytes more : List UInt8} (started : skipped ≠ [])
    (isHead : String.utf8EncodeChar head = skipped ++ later)
    (unfinished : later ≠ []) :
    ¬ String.utf8EncodeChar letter ++ bytes <+: later ++ more := by
  intro isPrefix
  obtain ⟨first, others, isLetter⟩ := List.exists_cons_of_ne_nil
    (String.utf8EncodeChar_ne_nil (c := letter))
  obtain ⟨next, rest, isLater⟩ := List.exists_cons_of_ne_nil unfinished
  rw [isLetter, isLater, List.cons_append, List.cons_append,
    List.cons_prefix_cons] at isPrefix
  have opens : next.IsUTF8FirstByte := by
    have isFirst := UInt8.isUTF8FirstByte_getElem_zero_utf8EncodeChar
      (c := letter)
    simp only [isLetter, List.getElem_cons_zero] at isFirst
    rwa [isPrefix.1] at isFirst
  have inside : skipped.length < (String.utf8EncodeChar head).length := by
    rw [isHead, isLater]
    simp
  have isNext : (String.utf8EncodeChar head)[skipped.length] = next := by
    simp [isHead, isLater]
  rw [← isNext, UInt8.isUTF8FirstByte_getElem_utf8EncodeChar] at opens
  exact started (List.length_eq_zero_iff.mp opens)

theorem infix_of_flatMap_encodeChar {letter : Char} {word text : List Char}
    (isInfix : (letter :: word).flatMap String.utf8EncodeChar <:+:
      text.flatMap String.utf8EncodeChar) : letter :: word <:+: text := by
  induction text with
  | nil =>
      have nothing := List.infix_nil.mp isInfix
      rw [List.flatMap_cons, List.append_eq_nil_iff] at nothing
      exact absurd nothing.1 String.utf8EncodeChar_ne_nil
  | cons head tail induction =>
      obtain ⟨before, after, isText⟩ := isInfix
      rw [List.flatMap_cons (x := head), List.append_assoc] at isText
      rcases List.append_eq_append_iff.mp isText with
        ⟨later, isHead, isMatch⟩ | ⟨further, isBefore, isTail⟩
      · by_cases atStart : before = []
        · rw [atStart, List.nil_append] at isText
          exact (prefix_of_flatMap_encodeChar
            ⟨after, by rw [List.flatMap_cons (x := head)]; exact isText⟩).isInfix
        by_cases atEnd : later = []
        · rw [atEnd, List.nil_append] at isMatch
          exact (induction (List.IsPrefix.isInfix ⟨after, isMatch⟩)).trans
            (List.suffix_cons head tail).isInfix
        · have early : (letter :: word).flatMap String.utf8EncodeChar <+:
              later ++ tail.flatMap String.utf8EncodeChar := ⟨after, isMatch⟩
          exact absurd early (not_prefix_of_later atStart isHead atEnd)
      · have inTail : (letter :: word).flatMap String.utf8EncodeChar <:+:
            tail.flatMap String.utf8EncodeChar :=
          ⟨further, after, by rw [List.append_assoc, isTail]⟩
        exact (induction inTail).trans (List.suffix_cons head tail).isInfix

/-- The bytes of a word stand in those of a text where the word stands in the
text. -/
theorem encode_infix_iff {word text : String} :
    encode word <:+: encode text ↔ word.toList <:+: text.toList := by
  rw [encode_eq_flatMap, encode_eq_flatMap]
  constructor
  · intro isInfix
    cases isWord : word.toList with
    | nil => exact List.nil_infix
    | cons letter rest =>
        rw [isWord] at isInfix
        exact infix_of_flatMap_encodeChar isInfix
  · rintro ⟨before, after, isText⟩
    rw [← isText, List.flatMap_append, List.flatMap_append]
    exact List.infix_append _ _ _

end Utf8

end PackageRename
