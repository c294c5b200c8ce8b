import PackageRename.Identifier
import PackageRename.Proofs.Path.Below

/-!
# Texts and their bytes

The bytes of a text are those of its characters in a row.  An ASCII character is
one byte that stands in the bytes of no other character, so that splitting a
text at it and splitting the bytes come to the same.
-/

namespace PackageRename

namespace Utf8

/-- The bytes of a text are those of its characters. -/
theorem encode_eq_flatMap (text : String) :
    encode text = text.toList.flatMap String.utf8EncodeChar := by
  have bytes : text.toByteArray =
      (text.toList.flatMap String.utf8EncodeChar).toByteArray :=
    String.utf8Encode_toList.symm
  rw [encode, String.toUTF8, bytes]
  simp

theorem encode_ofList (characters : List Char) :
    encode (String.ofList characters) =
      characters.flatMap String.utf8EncodeChar := by
  rw [encode_eq_flatMap, String.toList_ofList]

/-- An ASCII character is a byte. -/
theorem encodeChar_of_ascii {character : Char}
    (ascii : character.toNat ≤ 0x7F) :
    String.utf8EncodeChar character = [UInt8.ofNat character.toNat] := by
  unfold String.utf8EncodeChar
  exact if_pos ascii

/-- No byte of another character is ASCII. -/
theorem not_ascii_of_mem_encodeChar {character : Char}
    (wide : 0x7F < character.toNat) {byte : UInt8}
    (member : byte ∈ String.utf8EncodeChar character) : 0x7F < byte.toNat := by
  unfold String.utf8EncodeChar at member
  change byte ∈ ite (character.toNat ≤ 0x7F) _ _ at member
  rw [if_neg (Nat.not_le.mpr wide)] at member
  split at member
  · rcases List.mem_cons.mp member with first | later
    · rw [first, UInt8.toNat_ofNat']
      omega
    · rw [List.mem_singleton.mp later, UInt8.toNat_ofNat']
      omega
  · split at member
    · rcases List.mem_cons.mp member with first | later
      · rw [first, UInt8.toNat_ofNat']
        omega
      · rcases List.mem_cons.mp later with second | last
        · rw [second, UInt8.toNat_ofNat']
          omega
        · rw [List.mem_singleton.mp last, UInt8.toNat_ofNat']
          omega
    · rcases List.mem_cons.mp member with first | later
      · rw [first, UInt8.toNat_ofNat']
        omega
      · rcases List.mem_cons.mp later with second | more
        · rw [second, UInt8.toNat_ofNat']
          omega
        · rcases List.mem_cons.mp more with third | last
          · rw [third, UInt8.toNat_ofNat']
            omega
          · rw [List.mem_singleton.mp last, UInt8.toNat_ofNat']
            omega

theorem eq_of_encodeChar_eq {first second : Char}
    (firstAscii : first.toNat ≤ 0x7F) (secondAscii : second.toNat ≤ 0x7F)
    (same : UInt8.ofNat first.toNat = UInt8.ofNat second.toNat) :
    first = second := by
  have values := congrArg UInt8.toNat same
  rw [UInt8.toNat_ofNat', UInt8.toNat_ofNat', Nat.mod_eq_of_lt (by omega),
    Nat.mod_eq_of_lt (by omega)] at values
  exact Char.toNat_inj.mp values

/-- An ASCII byte stands in the bytes of its own character only. -/
theorem eq_of_mem_encodeChar {character : Char} (other : Char)
    (ascii : other.toNat ≤ 0x7F)
    (member : UInt8.ofNat other.toNat ∈ String.utf8EncodeChar character) :
    character = other := by
  by_cases narrow : character.toNat ≤ 0x7F
  · rw [encodeChar_of_ascii narrow, List.mem_singleton] at member
    exact (eq_of_encodeChar_eq ascii narrow member).symm
  · have wide := not_ascii_of_mem_encodeChar (Nat.lt_of_not_le narrow) member
    rw [UInt8.toNat_ofNat'] at wide
    omega

/-! ### Splitting -/

/-- What holds no separator stays in front of the first piece. -/
theorem splitOn_append_of_not_mem {α : Type} [DecidableEq α] {separator : α}
    {front : List α} (absent : separator ∉ front) (back : List α) :
    (front ++ back).splitOn separator =
      (back.splitOn separator).modifyHead (front ++ ·) := by
  induction front with
  | nil => cases isSplit : back.splitOn separator <;> simp [isSplit]
  | cons head rest induction =>
      rw [List.mem_cons, not_or] at absent
      have kept : (head == separator) = false := by
        simpa using Ne.symm absent.1
      rw [List.cons_append, List.splitOn_cons_eq_if_modifyHead, kept,
        induction absent.2, if_neg Bool.false_ne_true,
        List.modifyHead_modifyHead]
      rfl

/-- The bytes of a text are split at an ASCII character where the text is. -/
theorem splitOn_flatMap_encodeChar (separator : Char)
    (ascii : separator.toNat ≤ 0x7F) (text : List Char) :
    (text.flatMap String.utf8EncodeChar).splitOn
        (UInt8.ofNat separator.toNat) =
      (text.splitOn separator).map (·.flatMap String.utf8EncodeChar) := by
  induction text with
  | nil => rfl
  | cons head rest induction =>
      rw [List.flatMap_cons, List.splitOn_cons_eq_if_modifyHead]
      by_cases here : head = separator
      · rw [if_pos (beq_iff_eq.mpr here), here, encodeChar_of_ascii ascii,
          List.singleton_append, List.splitOn_cons_eq_if_modifyHead,
          if_pos (beq_self_eq_true _), induction]
        rfl
      · have absent : UInt8.ofNat separator.toNat ∉
            String.utf8EncodeChar head :=
          mt (eq_of_mem_encodeChar separator ascii) here
        rw [if_neg (mt beq_iff_eq.mp here), splitOn_append_of_not_mem absent,
          induction]
        cases rest.splitOn separator with
        | nil => rfl
        | cons first more => simp

end Utf8

end PackageRename
