import PackageRename.Json.Basic

/-!
# Reading JSON tokens

Text is read one character at a time.  Between tokens there may be spaces,
tabs, line feeds and carriage returns; a word or number ends where its
characters end.
-/

namespace PackageRename.Json

def isBlank (character : Char) : Bool :=
  character = ' ' || character = '\t' || character = '\n' || character = '\r'

def isNumberCharacter (character : Char) : Bool :=
  character.isDigit || character = '-' || character = '+' ||
    character = '.' || character = 'e' || character = 'E'

/-- The scalar a word stands for. -/
def Scalar.ofWord? (word : List Char) : Option Scalar :=
  if word = "null".toList then some .null
  else if word = "true".toList then some (.bool true)
  else if word = "false".toList then some (.bool false)
  else none

/-- An integer without a sign, which has no needless zero in front. -/
def isInteger (digits : List Char) : Bool :=
  digits.all Char.isDigit && digits != [] &&
    (digits.head? != some '0' || digits.length = 1)

/-- Nothing, or an exponent. -/
def isExponentPart : List Char → Bool
  | [] => true
  | mark :: rest =>
      (mark = 'e' || mark = 'E') &&
        match rest with
        | [] => false
        | sign :: digits =>
            if sign = '+' ∨ sign = '-' then
              digits != [] && digits.all Char.isDigit
            else
              (sign :: digits).all Char.isDigit

/-- Nothing, or a fraction and perhaps an exponent, or an exponent. -/
def isFractionPart : List Char → Bool
  | '.' :: rest =>
      rest.takeWhile Char.isDigit != [] &&
        isExponentPart (rest.dropWhile Char.isDigit)
  | rest => isExponentPart rest

def isNumber (text : List Char) : Bool :=
  let magnitude := if text.head? = some '-' then text.tail else text
  isInteger (magnitude.takeWhile Char.isDigit) &&
    isFractionPart (magnitude.dropWhile Char.isDigit)

def digitsValue (digits : List Char) : Nat :=
  digits.foldl (fun value digit => value * 10 + (digit.toNat - '0'.toNat)) 0

/-- The scalar a number stands for. -/
def Scalar.ofNumber? (text : List Char) : Option Scalar :=
  if isInteger text then some (.natural (digitsValue text))
  else if isNumber text then some (.number (String.ofList text))
  else none

/-- Where in an escape the reading of a string stands. -/
inductive Escape where
  | none
  | backslash
  | hex (digits value : Nat)

/-- A string of which the opening quote has been read. -/
structure StringState where
  /-- The characters so far, the last one first. -/
  characters : List Char
  /-- Whether every surrogate so far has its partner. -/
  paired : Bool
  /-- A leading surrogate whose partner may come next. -/
  pending : Option Nat
  escape : Escape

namespace StringState

def start : StringState := ⟨[], true, none, .none⟩

/-- Give up on the partner of a leading surrogate. -/
def settle (state : StringState) : StringState :=
  { state with
    paired := state.paired && state.pending.isNone
    pending := none
    escape := .none }

def push (state : StringState) (character : Char) : StringState :=
  let settled := state.settle
  { settled with characters := character :: settled.characters }

def isLeading (unit : Nat) : Bool :=
  0xD800 ≤ unit && unit < 0xDC00

def isTrailing (unit : Nat) : Bool :=
  0xDC00 ≤ unit && unit < 0xE000

/-- The code point of a pair of surrogates. -/
def combine (leading trailing : Nat) : Nat :=
  0x10000 + (leading - 0xD800) * 0x400 + (trailing - 0xDC00)

/-- Take in the unit that an escape has spelled. -/
def pushUnit (state : StringState) (unit : Nat) : StringState :=
  if isTrailing unit then
    match state.pending with
    | some leading =>
        { state with
          characters := Char.ofNat (combine leading unit) :: state.characters
          pending := none
          escape := .none }
    | none => { state with paired := false, escape := .none }
  else if isLeading unit then
    { state.settle with pending := some unit }
  else
    state.push (Char.ofNat unit)

def escaped? : Char → Option Char
  | '"' => some '"'
  | '\\' => some '\\'
  | '/' => some '/'
  | 'b' => some '\x08'
  | 'f' => some '\x0c'
  | 'n' => some '\n'
  | 'r' => some '\r'
  | 't' => some '\t'
  | _ => none

def hexValue? (character : Char) : Option Nat :=
  if character.isDigit then some (character.toNat - '0'.toNat)
  else if 'a' ≤ character ∧ character ≤ 'f' then
    some (character.toNat - 'a'.toNat + 10)
  else if 'A' ≤ character ∧ character ≤ 'F' then
    some (character.toNat - 'A'.toNat + 10)
  else none

def finish (state : StringState) : Scalar :=
  let settled := state.settle
  .string <|
    if settled.paired then some (String.ofList settled.characters.reverse)
    else none

/-- Read one more character: the string ends or goes on. -/
def next? (state : StringState) (character : Char) :
    Option (Scalar ⊕ StringState) :=
  match state.escape with
  | .none =>
      if character = '"' then some (.inl state.finish)
      else if character = '\\' then
        some (.inr { state with escape := .backslash })
      else if character.toNat < 0x20 then none
      else some (.inr (state.push character))
  | .backslash =>
      if character = 'u' then some (.inr { state with escape := .hex 0 0 })
      else (escaped? character).map fun meant => .inr (state.push meant)
  | .hex digits value =>
      (hexValue? character).map fun digit =>
        let value := value * 16 + digit
        .inr <|
          if digits = 3 then state.pushUnit value
          else { state with escape := .hex (digits + 1) value }

end StringState

inductive LexState where
  | between
  | word (reversed : List Char)
  | number (reversed : List Char)
  | string (state : StringState)

namespace LexState

/-- Read a character that starts a token or stands between tokens. -/
def start? (character : Char) : Option (List Token × LexState) :=
  if isBlank character then some ([], between)
  else if character = '[' then some ([.openArray], between)
  else if character = ']' then some ([.closeArray], between)
  else if character = '\x7b' then some ([.openObject], between)
  else if character = '\x7d' then some ([.closeObject], between)
  else if character = ',' then some ([.comma], between)
  else if character = ':' then some ([.colon], between)
  else if character = '"' then some ([], string .start)
  else if character.isAlpha then some ([], word [character])
  else if isNumberCharacter character then some ([], number [character])
  else none

/-- The token a state amounts to if it ends here. -/
def close? : LexState → Option (List Token)
  | between => some []
  | word reversed =>
      (Scalar.ofWord? reversed.reverse).map fun value => [.scalar value]
  | number reversed =>
      (Scalar.ofNumber? reversed.reverse).map fun value => [.scalar value]
  | string _ => none

/-- Close the current token and read the character after it. -/
def closeAndStart? (state : LexState) (character : Char) :
    Option (List Token × LexState) := do
  let closed ← state.close?
  let (opened, next) ← start? character
  return (closed ++ opened, next)

def next? (state : LexState) (character : Char) :
    Option (List Token × LexState) :=
  match state with
  | between => start? character
  | word reversed =>
      if character.isAlpha then some ([], word (character :: reversed))
      else state.closeAndStart? character
  | number reversed =>
      if isNumberCharacter character then
        some ([], number (character :: reversed))
      else state.closeAndStart? character
  | string inner =>
      (inner.next? character).map fun
        | .inl value => ([.scalar value], between)
        | .inr going => ([], string going)

end LexState

/-- The tokens of a text, read on from a state. -/
def lexFrom? (state : LexState) : List Char → Option (List Token)
  | [] => state.close?
  | character :: rest => do
      let (read, next) ← state.next? character
      let later ← lexFrom? next rest
      return read ++ later

def lex? (text : String) : Option (List Token) :=
  lexFrom? .between text.toList

end PackageRename.Json
