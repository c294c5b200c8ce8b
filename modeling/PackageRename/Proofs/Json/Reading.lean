import Mathlib.Data.Nat.Digits.Lemmas
import PackageRename.Json.Reader

/-!
# Reading what has been written

A written value is read back token by token: the text of a token lexes to that
token wherever the text after it cannot continue it, and the tokens of a value
leave the reader with that value in the arrays and objects that are open.
-/

namespace PackageRename.Json

/-! ### Strings -/

namespace StringState

/-- A string that is text so far, with nothing left open. -/
def holding (reversed : List Char) : StringState :=
  ⟨reversed, true, none, .none⟩

variable {reversed : List Char} {character : Char}

theorem hexValue?_hexDigit {value : Nat} (small : value < 16) :
    hexValue? (hexDigit value) = some value := by
  have all : ∀ digit : Fin 16,
      hexValue? (hexDigit digit) = some digit.val := by
    decide
  exact all ⟨value, small⟩

theorem next?_hex {digits value digit : Nat} (small : digit < 16)
    (more : digits ≠ 3) :
    next? ⟨reversed, true, none, .hex digits value⟩ (hexDigit digit) =
      some (.inr ⟨reversed, true, none,
        .hex (digits + 1) (value * 16 + digit)⟩) := by
  simp [next?, hexValue?_hexDigit small, more]

theorem next?_hex_last {value digit : Nat} (small : digit < 16)
    (control : value * 16 + digit < 0x20) :
    next? ⟨reversed, true, none, .hex 3 value⟩ (hexDigit digit) =
      some (.inr (holding (Char.ofNat (value * 16 + digit) :: reversed))) := by
  have notTrailing : isTrailing (value * 16 + digit) = false := by
    simp [isTrailing]
    omega
  have notLeading : isLeading (value * 16 + digit) = false := by
    simp [isLeading]
    omega
  simp [next?, hexValue?_hexDigit small, pushUnit, notTrailing, notLeading,
    push, settle, holding]

end StringState

open StringState

/-! ### Going on with a text -/

variable {state next : LexState} {character : Char} {rest : List Char}

theorem lexFrom?_cons {read : List Token}
    (reads : state.next? character = some (read, next)) :
    lexFrom? state (character :: rest) =
      (lexFrom? next rest).map (read ++ ·) := by
  rw [lexFrom?, reads]
  simp only [Option.bind_eq_bind, Option.bind_some]
  cases lexFrom? next rest <;> rfl

theorem lexFrom?_cons_of_silent
    (reads : state.next? character = some ([], next)) :
    lexFrom? state (character :: rest) = lexFrom? next rest := by
  rw [lexFrom?_cons reads]
  exact Option.map_id'

theorem lexFrom?_string_cons {inner going : StringState}
    (reads : inner.next? character = some (.inr going)) :
    lexFrom? (.string inner) (character :: rest) =
      lexFrom? (.string going) rest := by
  apply lexFrom?_cons_of_silent
  rw [LexState.next?, reads]
  rfl

theorem next?_backslash (reversed : List Char) :
    (holding reversed).next? '\\' =
      some (.inr ⟨reversed, true, none, .backslash⟩) := rfl

/-- A backslash and a letter are read as the character the letter stands for. -/
theorem lexFrom?_escape_short (reversed : List Char) {letter : Char}
    (notHex : letter ≠ 'u') (isMeant : escaped? letter = some character) :
    lexFrom? (.string (holding reversed)) (['\\', letter] ++ rest) =
      lexFrom? (.string (holding (character :: reversed))) rest := by
  have closes : StringState.next? ⟨reversed, true, none, .backslash⟩ letter =
      some (.inr (holding (character :: reversed))) := by
    simp [StringState.next?, notHex, isMeant, push, settle, holding]
  rw [List.cons_append, lexFrom?_string_cons (next?_backslash reversed),
    List.cons_append, lexFrom?_string_cons closes, List.nil_append]

/-- A control character is read from its four digits to base sixteen, of which
the first two are zero. -/
theorem lexFrom?_escape_hex (reversed : List Char)
    (control : character.toNat < 0x20) :
    lexFrom? (.string (holding reversed))
        (['\\', 'u', '0', '0', hexDigit (character.toNat / 16),
          hexDigit (character.toNat % 16)] ++ rest) =
      lexFrom? (.string (holding (character :: reversed))) rest := by
  have value : character.toNat / 16 * 16 + character.toNat % 16 =
      character.toNat := by omega
  have high : character.toNat / 16 < 16 := by omega
  have low : character.toNat % 16 < 16 := by omega
  have last := @next?_hex_last reversed (character.toNat / 16)
    (character.toNat % 16) low (by omega)
  rw [value, Char.ofNat_toNat] at last
  have third := @next?_hex reversed 2 0 (character.toNat / 16) high (by decide)
  rw [Nat.zero_mul, Nat.zero_add] at third
  have isHex : StringState.next? ⟨reversed, true, none, .backslash⟩ 'u' =
      some (.inr ⟨reversed, true, none, .hex 0 0⟩) := rfl
  have first : StringState.next? ⟨reversed, true, none, .hex 0 0⟩ '0' =
      some (.inr ⟨reversed, true, none, .hex 1 0⟩) := rfl
  have second : StringState.next? ⟨reversed, true, none, .hex 1 0⟩ '0' =
      some (.inr ⟨reversed, true, none, .hex 2 0⟩) := rfl
  simp only [List.cons_append, List.nil_append]
  rw [lexFrom?_string_cons (next?_backslash reversed),
    lexFrom?_string_cons isHex, lexFrom?_string_cons first,
    lexFrom?_string_cons second, lexFrom?_string_cons third,
    lexFrom?_string_cons last]

/-- An escaped character is read as itself. -/
theorem lexFrom?_escape (reversed : List Char) :
    lexFrom? (.string (holding reversed)) (escape character ++ rest) =
      lexFrom? (.string (holding (character :: reversed))) rest := by
  have short := fun letter => @lexFrom?_escape_short character rest reversed letter
  rw [escape]
  split
  · rename_i isQuote
    exact short '"' (by decide) (by rw [isQuote]; rfl)
  split
  · rename_i isBackslash
    exact short '\\' (by decide) (by rw [isBackslash]; rfl)
  split
  · rename_i isBackspace
    exact short 'b' (by decide) (by rw [isBackspace]; rfl)
  split
  · rename_i isFormFeed
    exact short 'f' (by decide) (by rw [isFormFeed]; rfl)
  split
  · rename_i isLineFeed
    exact short 'n' (by decide) (by rw [isLineFeed]; rfl)
  split
  · rename_i isReturn
    exact short 'r' (by decide) (by rw [isReturn]; rfl)
  split
  · rename_i isTab
    exact short 't' (by decide) (by rw [isTab]; rfl)
  split
  · rename_i control
    exact lexFrom?_escape_hex reversed control
  · rename_i notQuote notBackslash _ _ _ _ _ notControl
    apply lexFrom?_string_cons
    simp [StringState.next?, holding, notQuote, notBackslash, notControl, push,
      settle]

theorem lexFrom?_escaped (text reversed : List Char) :
    lexFrom? (.string (holding reversed))
        (text.flatMap escape ++ '"' :: rest) =
      (lexFrom? .between rest).map
        (.scalar (.string (some (String.ofList (reversed.reverse ++ text)))) ::
          ·) := by
  induction text generalizing reversed with
  | nil =>
      have ends : (LexState.string (holding reversed)).next? '"' =
          some ([.scalar (.string (some (String.ofList reversed.reverse)))],
            .between) := rfl
      rw [List.flatMap_nil, List.nil_append, lexFrom?_cons ends,
        List.append_nil]
      rfl
  | cons first more induction =>
      rw [List.flatMap_cons, List.append_assoc, lexFrom?_escape, induction,
        List.reverse_cons, List.append_assoc]
      rfl

/-! ### Words and numbers -/

/-- The text does not go on with a word or a number. -/
def Stops (rest : List Char) : Prop :=
  ∀ character ∈ rest.head?,
    character.isAlpha = false ∧ isNumberCharacter character = false

theorem lexFrom?_word (word reversed : List Char)
    (letters : ∀ character ∈ word, character.isAlpha = true) :
    lexFrom? (.word reversed) (word ++ rest) =
      lexFrom? (.word (word.reverse ++ reversed)) rest := by
  induction word generalizing reversed with
  | nil => rfl
  | cons first more induction =>
      have reads : (LexState.word reversed).next? first =
          some ([], .word (first :: reversed)) :=
        if_pos (letters first List.mem_cons_self)
      rw [List.cons_append, lexFrom?_cons_of_silent reads,
        induction _ fun other member =>
          letters other (List.mem_cons_of_mem _ member),
        List.reverse_cons, List.append_assoc]
      rfl

theorem lexFrom?_number (digits reversed : List Char)
    (areDigits : ∀ character ∈ digits, isNumberCharacter character = true) :
    lexFrom? (.number reversed) (digits ++ rest) =
      lexFrom? (.number (digits.reverse ++ reversed)) rest := by
  induction digits generalizing reversed with
  | nil => rfl
  | cons first more induction =>
      have reads : (LexState.number reversed).next? first =
          some ([], .number (first :: reversed)) :=
        if_pos (areDigits first List.mem_cons_self)
      rw [List.cons_append, lexFrom?_cons_of_silent reads,
        induction _ fun other member =>
          areDigits other (List.mem_cons_of_mem _ member),
        List.reverse_cons, List.append_assoc]
      rfl

/-- A token ends where the next character cannot continue it. -/
theorem lexFrom?_close {closed : List Token}
    (closes : state.close? = some closed)
    (stops : ∀ character ∈ rest.head?,
      state.next? character = state.closeAndStart? character) :
    lexFrom? state rest = (lexFrom? .between rest).map (closed ++ ·) := by
  cases rest with
  | nil =>
      rw [lexFrom?, closes]
      exact congrArg some (List.append_nil closed).symm
  | cons first more =>
      have isNext : state.next? first = (LexState.start? first).map
          fun opened => (closed ++ opened.1, opened.2) := by
        rw [stops first rfl, LexState.closeAndStart?, closes]
        cases LexState.start? first <;> rfl
      have isStart : LexState.between.next? first = LexState.start? first := rfl
      rw [lexFrom?, lexFrom?, isNext, isStart]
      cases LexState.start? first with
      | none => rfl
      | some opened =>
          obtain ⟨read, next⟩ := opened
          simp only [Option.map_some, Option.bind_eq_bind, Option.bind_some]
          cases lexFrom? next more with
          | none => rfl
          | some later => exact congrArg some (List.append_assoc closed read later)

theorem lexFrom?_of_word {first : Char} {more : List Char} {value : Scalar}
    (starts : LexState.start? first = some ([], .word [first]))
    (letters : ∀ character ∈ more, character.isAlpha = true)
    (isWord : Scalar.ofWord? (first :: more) = some value)
    (stops : Stops rest) :
    lexFrom? .between (first :: more ++ rest) =
      (lexFrom? .between rest).map (.scalar value :: ·) := by
  have reads : LexState.between.next? first = some ([], .word [first]) := starts
  rw [List.cons_append, lexFrom?_cons_of_silent reads,
    lexFrom?_word more [first] letters]
  have closes : (LexState.word (more.reverse ++ [first])).close? =
      some [.scalar value] := by
    rw [LexState.close?, List.reverse_append, List.reverse_reverse]
    simp only [List.reverse_singleton, List.singleton_append, isWord]
    rfl
  exact lexFrom?_close closes fun next isNext =>
    if_neg (by simp [(stops next isNext).1])

/-- What a digit starts is a number. -/
theorem start?_digit (isDigit : character.isDigit = true) :
    LexState.start? character = some ([], .number [character]) := by
  have isNumber : isNumberCharacter character = true := by
    simp [isNumberCharacter, isDigit]
  have bounds : 48 ≤ character.toNat ∧ character.toNat ≤ 57 := by
    simpa [Char.isDigit, UInt32.le_iff_toNat_le] using isDigit
  have notLetter : character.isAlpha = false := by
    rw [Bool.eq_false_iff]
    intro isLetter
    unfold Char.isAlpha Char.isUpper Char.isLower at isLetter
    simp [UInt32.le_iff_toNat_le] at isLetter
    change 65 ≤ character.toNat ∧ character.toNat ≤ 90 ∨
      97 ≤ character.toNat ∧ character.toNat ≤ 122 at isLetter
    omega
  have differs : ∀ other : Char, other.isDigit = false → character ≠ other := by
    rintro other notDigit rfl
    rw [isDigit] at notDigit
    cases notDigit
  have notBlank : isBlank character = false := by
    simp [isBlank, differs ' ' rfl, differs '\t' rfl, differs '\n' rfl,
      differs '\r' rfl]
  simp [LexState.start?, notBlank, differs '[' rfl, differs ']' rfl,
    differs '\x7b' rfl, differs '\x7d' rfl, differs ',' rfl, differs ':' rfl,
    differs '"' rfl, notLetter, isNumber]

theorem head?_toDigits {value : Nat} (positive : 0 < value) :
    (Nat.toDigits 10 value).head? ≠ some '0' := by
  induction value using Nat.strongRecOn with
  | ind value induction =>
      rw [Nat.toDigits_eq_if (by decide)]
      split
      · rename_i small
        have all : ∀ digit : Fin 10, 0 < digit.val →
            [digit.val.digitChar].head? ≠ some '0' := by
          decide
        exact all ⟨value, small⟩ positive
      · rename_i large
        have written : Nat.toDigits 10 (value / 10) ≠ [] :=
          List.length_pos_iff.mp Nat.length_toDigits_pos
        rw [List.head?_append_of_ne_nil _ written]
        exact induction (value / 10) (by omega) (by omega)

theorem ofNumber?_toDigits (value : Nat) :
    Scalar.ofNumber? (Nat.toDigits 10 value) = some (.natural value) := by
  have areDigits : (Nat.toDigits 10 value).all Char.isDigit = true :=
    List.all_eq_true.mpr fun _ member =>
      Nat.isDigit_of_mem_toDigits (by decide) (by decide) member
  have written : Nat.toDigits 10 value ≠ [] :=
    List.length_pos_iff.mp Nat.length_toDigits_pos
  have noZero : (Nat.toDigits 10 value).head? ≠ some '0' ∨
      (Nat.toDigits 10 value).length = 1 := by
    rcases Nat.eq_zero_or_pos value with rfl | positive
    · exact .inr rfl
    · exact .inl (head?_toDigits positive)
  have isInteger : isInteger (Nat.toDigits 10 value) = true := by
    simpa [Json.isInteger, areDigits, written] using noZero
  have isValue : digitsValue (Nat.toDigits 10 value) = value := by
    have read := @Nat.ofDigitChars_toDigits 10 value (by decide) (by decide)
    rw [Nat.ofDigitChars_eq_foldl] at read
    simpa only [digitsValue, Nat.mul_comm] using read
  rw [Scalar.ofNumber?, if_pos isInteger, isValue]

theorem lexFrom?_natural (value : Nat) (stops : Stops rest) :
    lexFrom? .between (Nat.toDigits 10 value ++ rest) =
      (lexFrom? .between rest).map (.scalar (.natural value) :: ·) := by
  have areDigits : ∀ character ∈ Nat.toDigits 10 value,
      character.isDigit = true :=
    fun _ member => Nat.isDigit_of_mem_toDigits (by decide) (by decide) member
  have isNumber := ofNumber?_toDigits value
  cases isDigits : Nat.toDigits 10 value with
  | nil =>
      have written := @Nat.length_toDigits_pos 10 value
      rw [isDigits] at written
      cases written
  | cons first more =>
      rw [isDigits] at areDigits isNumber
      have starts : LexState.between.next? first =
          some ([], .number [first]) :=
        start?_digit (areDigits first List.mem_cons_self)
      rw [List.cons_append, lexFrom?_cons_of_silent starts,
        lexFrom?_number more [first] fun other member => by
          simp [isNumberCharacter,
            areDigits other (List.mem_cons_of_mem _ member)]]
      have closes : (LexState.number (more.reverse ++ [first])).close? =
          some [.scalar (.natural value)] := by
        rw [LexState.close?, List.reverse_append, List.reverse_reverse]
        simp only [List.reverse_singleton, List.singleton_append, isNumber]
        rfl
      exact lexFrom?_close closes fun next isNext =>
        if_neg (by simp [(stops next isNext).2])

/-! ### Tokens -/

/-- A scalar that is written for a value: no number but a natural one, and no
string that stands for no text. -/
def Scalar.IsWritten : Scalar → Prop
  | number _ => False
  | string none => False
  | _ => True

/-- The words are `null`, `true` and `false`. -/
theorem lexFrom?_wordScalar {value : Scalar}
    (isWord : value = .null ∨ value = .bool true ∨ value = .bool false)
    (stops : Stops rest) :
    lexFrom? .between (value.text ++ rest) =
      (lexFrom? .between rest).map (.scalar value :: ·) := by
  obtain ⟨first, more, isText, starts, letters, means⟩ :
      ∃ first more, value.text = first :: more ∧
        LexState.start? first = some ([], .word [first]) ∧
        (∀ character ∈ more, character.isAlpha = true) ∧
        Scalar.ofWord? (first :: more) = some value := by
    rcases isWord with rfl | rfl | rfl
    · exact ⟨'n', ['u', 'l', 'l'], rfl, rfl, List.all_eq_true.mp rfl, rfl⟩
    · exact ⟨'t', ['r', 'u', 'e'], rfl, rfl, List.all_eq_true.mp rfl, rfl⟩
    · exact ⟨'f', ['a', 'l', 's', 'e'], rfl, rfl, List.all_eq_true.mp rfl, rfl⟩
  rw [isText]
  exact lexFrom?_of_word starts letters means stops

theorem lexFrom?_text (text : String) :
    lexFrom? .between ((Scalar.string (some text)).text ++ rest) =
      (lexFrom? .between rest).map (.scalar (.string (some text)) :: ·) := by
  have opens : LexState.between.next? '"' =
      some ([], .string (holding [])) := by
    simp [LexState.next?, LexState.start?, isBlank, holding, StringState.start]
  have isText : (Scalar.string (some text)).text =
      '"' :: text.toList.flatMap escape ++ ['"'] := rfl
  rw [isText, List.cons_append, List.cons_append,
    lexFrom?_cons_of_silent opens, List.append_assoc, List.singleton_append,
    lexFrom?_escaped, List.reverse_nil, List.nil_append, String.ofList_toList]

theorem lexFrom?_scalar {value : Scalar} (written : value.IsWritten)
    (stops : Stops rest) :
    lexFrom? .between (value.text ++ rest) =
      (lexFrom? .between rest).map (.scalar value :: ·) := by
  cases value with
  | null => exact lexFrom?_wordScalar (.inl rfl) stops
  | bool value =>
      cases value with
      | true => exact lexFrom?_wordScalar (.inr (.inl rfl)) stops
      | false => exact lexFrom?_wordScalar (.inr (.inr rfl)) stops
  | natural value => exact lexFrom?_natural value stops
  | number text => cases written
  | string text =>
      cases text with
      | none => cases written
      | some text =>
          exact lexFrom?_text text

/-- A token that is no scalar is one character. -/
def Token.mark? : Token → Option Char
  | scalar _ => none
  | openArray => some '['
  | closeArray => some ']'
  | openObject => some '\x7b'
  | closeObject => some '\x7d'
  | comma => some ','
  | colon => some ':'

theorem lexFrom?_mark {token : Token} {mark : Char}
    (isMark : token.mark? = some mark) :
    lexFrom? .between (token.text ++ rest) =
      (lexFrom? .between rest).map (token :: ·) := by
  have isText : token.text = [mark] := by
    cases token <;> cases isMark <;> rfl
  have reads : LexState.between.next? mark = some ([token], .between) := by
    cases token <;> cases isMark <;> rfl
  rw [isText, List.singleton_append, lexFrom?_cons reads]
  rfl

theorem stops_mark {token : Token} {mark : Char}
    (isMark : token.mark? = some mark) : Stops (token.text ++ rest) := by
  intro first isFirst
  cases token with
  | scalar value => cases isMark
  | _ =>
      cases isFirst
      decide

/-! ### Values -/

/-- A value that is written with text for keys and without a number that is not
natural. -/
inductive IsWritten : Json → Prop where
  | scalar {value : Scalar} (written : value.IsWritten) :
      IsWritten (.scalar value)
  | array {items : List Json} (written : ∀ item ∈ items, IsWritten item) :
      IsWritten (.array items)
  | object {members : List (Option String × Json)}
      (keyed : ∀ member ∈ members, member.1.isSome)
      (written : ∀ member ∈ members, IsWritten member.2) :
      IsWritten (.object members)

/-- The text of the tokens is read as the tokens, wherever it stops. -/
def Lexes (tokens : List Token) : Prop :=
  ∀ rest, Stops rest →
    lexFrom? .between (tokens.flatMap Token.text ++ rest) =
      (lexFrom? .between rest).map (tokens ++ ·)

theorem Lexes.cons_mark {token : Token} {mark : Char} {tokens : List Token}
    (isMark : token.mark? = some mark) (lexes : Lexes tokens) :
    Lexes (token :: tokens) := by
  intro rest stops
  rw [List.flatMap_cons, List.append_assoc, lexFrom?_mark isMark,
    lexes rest stops, Option.map_map]
  rfl

/-- Tokens that open with a mark may follow anything. -/
theorem Lexes.append_mark {front tokens : List Token} {token : Token}
    {mark : Char} (lexes : Lexes front) (isMark : token.mark? = some mark)
    (later : Lexes (token :: tokens)) : Lexes (front ++ token :: tokens) := by
  intro rest stops
  have pauses : Stops ((token :: tokens).flatMap Token.text ++ rest) := by
    rw [List.flatMap_cons, List.append_assoc]
    exact stops_mark isMark
  rw [List.flatMap_append, List.append_assoc, lexes _ pauses,
    later rest stops, Option.map_map]
  congr 1
  funext after
  exact (List.append_assoc _ _ _).symm

theorem lexes_mark {token : Token} {mark : Char}
    (isMark : token.mark? = some mark) : Lexes [token] :=
  Lexes.cons_mark isMark fun _ _ => Option.map_id'.symm

theorem lexes_scalar {value : Scalar} (written : value.IsWritten) :
    Lexes [.scalar value] := by
  intro rest stops
  rw [List.flatMap_singleton]
  exact lexFrom?_scalar written stops

/-- The rest of an array opens with a mark. -/
theorem Lexes.append_itemTokens {front : List Token} {items : List Json}
    (lexes : Lexes front) (later : Lexes (itemTokens items)) :
    Lexes (front ++ itemTokens items) := by
  cases items with
  | nil => exact lexes.append_mark rfl later
  | cons item items => exact lexes.append_mark rfl later

theorem Lexes.append_memberTokens {front : List Token}
    {members : List (Option String × Json)} (lexes : Lexes front)
    (later : Lexes (memberTokens members)) :
    Lexes (front ++ memberTokens members) := by
  cases members with
  | nil => exact lexes.append_mark rfl later
  | cons member members => exact lexes.append_mark rfl later

theorem Lexes.cons_key {key : Option String} {tokens : List Token}
    (lexes : Lexes tokens) (keyed : key.isSome) :
    Lexes (.scalar (.string key) :: .colon :: tokens) := by
  cases key with
  | none => cases keyed
  | some text =>
      have isKey : Lexes [.scalar (.string (some text))] :=
        lexes_scalar trivial
      exact isKey.append_mark rfl (lexes.cons_mark rfl)

theorem lexes_itemTokens {items : List Json}
    (lexes : ∀ item ∈ items, Lexes item.tokens) :
    Lexes (itemTokens items) := by
  induction items with
  | nil => exact lexes_mark rfl
  | cons item items induction =>
      have later := induction fun other isIn =>
        lexes other (List.mem_cons_of_mem _ isIn)
      have isItem := lexes item List.mem_cons_self
      exact (isItem.append_itemTokens later).cons_mark rfl

theorem lexes_memberTokens {members : List (Option String × Json)}
    (keyed : ∀ member ∈ members, member.1.isSome)
    (lexes : ∀ member ∈ members, Lexes member.2.tokens) :
    Lexes (memberTokens members) := by
  induction members with
  | nil => exact lexes_mark rfl
  | cons member members induction =>
      have later := induction
        (fun other isIn => keyed other (List.mem_cons_of_mem _ isIn))
        fun other isIn => lexes other (List.mem_cons_of_mem _ isIn)
      have isMember := lexes member List.mem_cons_self
      have isRead := isMember.append_memberTokens later
      exact (isRead.cons_key (keyed member List.mem_cons_self)).cons_mark rfl

theorem IsWritten.lexes {value : Json} (written : value.IsWritten) :
    Lexes value.tokens := by
  induction written with
  | scalar written => exact lexes_scalar written
  | @array items _ lexes =>
      cases items with
      | nil =>
          have closes : Lexes [.closeArray] := lexes_mark rfl
          exact closes.cons_mark rfl
      | cons item items =>
          have later := lexes_itemTokens fun other isIn =>
            lexes other (List.mem_cons_of_mem item isIn)
          have isItem := lexes item List.mem_cons_self
          exact (isItem.append_itemTokens later).cons_mark rfl
  | @object members keyed _ lexes =>
      cases members with
      | nil =>
          have closes : Lexes [.closeObject] := lexes_mark rfl
          exact closes.cons_mark rfl
      | cons member members =>
          have later := lexes_memberTokens
            (fun other isIn => keyed other (List.mem_cons_of_mem member isIn))
            fun other isIn => lexes other (List.mem_cons_of_mem member isIn)
          have isMember := lexes member List.mem_cons_self
          have isRead := isMember.append_memberTokens later
          exact (isRead.cons_key (keyed member List.mem_cons_self)).cons_mark rfl

/-- The text of a written value has the tokens of the value. -/
theorem IsWritten.lex?_render {value : Json} (written : value.IsWritten) :
    lex? value.render = some value.tokens := by
  have stops : Stops [] := by simp [Stops]
  have lexed := written.lexes [] stops
  rw [List.append_nil] at lexed
  rw [lex?, render, String.toList_ofList, lexed]
  exact congrArg some (List.append_nil _)

/-! ### Going on with tokens -/

/-- A value may come next, perhaps as the first item of an array. -/
inductive Focus.AwaitsValue : Focus → Prop where
  | value : AwaitsValue .value
  | firstItem : AwaitsValue .firstItem

namespace ReadState

/-- The tokens that are read at the first state lead to the second. -/
def Reads (tokens : List Token) (first second : ReadState) : Prop :=
  tokens.foldlM next? first = some second

theorem Reads.cons {token : Token} {tokens : List Token}
    {first second third : ReadState} (reads : first.next? token = some second)
    (later : Reads tokens second third) : Reads (token :: tokens) first third := by
  rw [Reads, List.foldlM_cons, reads]
  exact later

theorem Reads.append {front tokens : List Token}
    {first second third : ReadState} (reads : Reads front first second)
    (later : Reads tokens second third) : Reads (front ++ tokens) first third := by
  rw [Reads, List.foldlM_append, reads]
  exact later

theorem next?_of_awaitsValue {frames : List Frame} {focus : Focus}
    {token : Token} (awaits : focus.AwaitsValue)
    (notClosing : token ≠ .closeArray) :
    next? ⟨frames, focus⟩ token = readValue? frames token := by
  cases awaits with
  | value => rfl
  | firstItem =>
      simp only [next?]
      split
      · exact absurd rfl notClosing
      · rfl

mutual

/-- The tokens of a value leave the value where it may stand. -/
theorem reads_tokens (frames : List Frame) {focus : Focus}
    (awaits : focus.AwaitsValue) : (value : Json) →
    Reads value.tokens ⟨frames, focus⟩ ⟨frames, .after value⟩
  | .scalar value => by
      have isScalar : next? ⟨frames, focus⟩ (.scalar value) =
          some ⟨frames, .after (.scalar value)⟩ :=
        next?_of_awaitsValue awaits nofun
      exact Reads.cons isScalar rfl
  | .array [] => by
      have opens : next? ⟨frames, focus⟩ .openArray =
          some ⟨.array [] :: frames, .firstItem⟩ :=
        next?_of_awaitsValue awaits nofun
      exact Reads.cons opens rfl
  | .array (item :: items) => by
      have opens : next? ⟨frames, focus⟩ .openArray =
          some ⟨.array [] :: frames, .firstItem⟩ :=
        next?_of_awaitsValue awaits nofun
      have isItem := reads_tokens (.array [] :: frames) .firstItem item
      exact Reads.cons opens
        (isItem.append (reads_itemTokens frames [] item items))
  | .object [] => by
      have opens : next? ⟨frames, focus⟩ .openObject =
          some ⟨frames, .firstKey⟩ :=
        next?_of_awaitsValue awaits nofun
      exact Reads.cons opens rfl
  | .object ((key, value) :: members) => by
      have opens : next? ⟨frames, focus⟩ .openObject =
          some ⟨frames, .firstKey⟩ :=
        next?_of_awaitsValue awaits nofun
      have isKey : next? ⟨frames, .firstKey⟩ (.scalar (.string key)) =
          some ⟨frames, .colon [] key⟩ := rfl
      have isColon : next? ⟨frames, .colon [] key⟩ .colon =
          some ⟨.object [] key :: frames, .value⟩ := rfl
      have isValue := reads_tokens (.object [] key :: frames) .value value
      exact Reads.cons opens (Reads.cons isKey (Reads.cons isColon
        (isValue.append (reads_memberTokens frames [] key value members))))

theorem reads_itemTokens (frames : List Frame) (before : List Json)
    (item : Json) : (items : List Json) →
    Reads (itemTokens items) ⟨.array before :: frames, .after item⟩
      ⟨frames, .after (.array ((item :: before).reverse ++ items))⟩
  | [] => by
      rw [List.append_nil]
      rfl
  | next :: items => by
      have isComma : next? ⟨.array before :: frames, .after item⟩ .comma =
          some ⟨.array (item :: before) :: frames, .value⟩ := rfl
      have isItem := reads_tokens (.array (item :: before) :: frames) .value next
      have isRest := reads_itemTokens frames (item :: before) next items
      rw [List.reverse_cons, List.append_assoc] at isRest
      exact Reads.cons isComma (isItem.append isRest)

theorem reads_memberTokens (frames : List Frame)
    (before : List (Option String × Json)) (key : Option String)
    (value : Json) : (members : List (Option String × Json)) →
    Reads (memberTokens members) ⟨.object before key :: frames, .after value⟩
      ⟨frames, .after (.object (((key, value) :: before).reverse ++ members))⟩
  | [] => by
      rw [List.append_nil]
      rfl
  | (nextKey, next) :: members => by
      have isComma : next? ⟨.object before key :: frames, .after value⟩ .comma =
          some ⟨frames, .key ((key, value) :: before)⟩ := rfl
      have isKey : next? ⟨frames, .key ((key, value) :: before)⟩
          (.scalar (.string nextKey)) =
          some ⟨frames, .colon ((key, value) :: before) nextKey⟩ := rfl
      have isColon : next? ⟨frames, .colon ((key, value) :: before) nextKey⟩
          .colon =
          some ⟨.object ((key, value) :: before) nextKey :: frames, .value⟩ := rfl
      have isValue := reads_tokens
        (.object ((key, value) :: before) nextKey :: frames) .value next
      have isRest := reads_memberTokens frames ((key, value) :: before) nextKey
        next members
      rw [List.reverse_cons, List.append_assoc] at isRest
      exact Reads.cons isComma (Reads.cons isKey (Reads.cons isColon
        (isValue.append isRest)))

end

end ReadState

/-- The text of a written value holds that value. -/
theorem read?_render {value : Json} (written : value.IsWritten) :
    read? value.render = some value := by
  have reads := ReadState.reads_tokens [] .value value
  rw [read?, written.lex?_render]
  simp only [Option.bind_eq_bind, Option.bind_some, readFrom?]
  rw [ReadState.start, reads]
  rfl

end PackageRename.Json
