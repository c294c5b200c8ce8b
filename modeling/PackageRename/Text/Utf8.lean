/-!
# Text as bytes

File contents and file names are bytes.  They are text exactly when they are
well-formed UTF-8; for display, each ill-formed stretch becomes one
replacement character.
-/

namespace PackageRename.Utf8

/-- The bytes of a text. -/
def encode (text : String) : List UInt8 :=
  text.toUTF8.data.toList

/-- The text that the bytes spell, if they are well formed. -/
def decode? (bytes : List UInt8) : Option String :=
  String.fromUTF8? ⟨bytes.toArray⟩

@[simp]
theorem decode?_encode (text : String) : decode? (encode text) = some text := by
  simp [decode?, encode, String.fromUTF8?, String.fromUTF8, text.isValidUTF8]

theorem encode_of_decode? {bytes : List UInt8} {text : String}
    (decoded : decode? bytes = some text) : encode text = bytes := by
  unfold decode? String.fromUTF8? at decoded
  split at decoded
  · cases decoded
    rfl
  · cases decoded

theorem encode_injective {left right : String}
    (same : encode left = encode right) : left = right := by
  have decoded := decode?_encode left
  rw [same, decode?_encode] at decoded
  exact (Option.some.inj decoded).symm

/-- A multi-byte character of which some bytes have been read. -/
structure Partial where
  /-- The bits read so far. -/
  value : Nat
  /-- Continuation bytes still to come, less one. -/
  remaining : Nat
  /-- The least byte that may come next. -/
  low : Nat
  /-- The greatest byte that may come next. -/
  high : Nat

/-- What the first byte of a character announces.  The bounds on the byte
after it exclude overlong forms, surrogates and values beyond the last code
point. -/
inductive Lead where
  | whole (character : Char)
  | opens (state : Partial)
  | malformed

def Lead.ofByte (byte : UInt8) : Lead :=
  let code := byte.toNat
  if code < 0x80 then .whole (Char.ofNat code)
  else if code < 0xC2 then .malformed
  else if code < 0xE0 then .opens ⟨code - 0xC0, 0, 0x80, 0xBF⟩
  else if code = 0xE0 then .opens ⟨0, 1, 0xA0, 0xBF⟩
  else if code = 0xED then .opens ⟨0xD, 1, 0x80, 0x9F⟩
  else if code < 0xF0 then .opens ⟨code - 0xE0, 1, 0x80, 0xBF⟩
  else if code = 0xF0 then .opens ⟨0, 2, 0x90, 0xBF⟩
  else if code < 0xF4 then .opens ⟨code - 0xF0, 2, 0x80, 0xBF⟩
  else if code = 0xF4 then .opens ⟨4, 2, 0x80, 0x8F⟩
  else .malformed

/-- The character shown for an ill-formed stretch. -/
def replacementCharacter : Char := '\uFFFD'

/-- Reads on in the middle of a character, or at a character's first byte.  An
ill-formed stretch ends before the first byte that cannot continue it. -/
def displayFrom : Option Partial → List UInt8 → List Char
  | none, [] => []
  | some _, [] => [replacementCharacter]
  | none, byte :: rest =>
      match Lead.ofByte byte with
      | .whole character => character :: displayFrom none rest
      | .opens state => displayFrom (some state) rest
      | .malformed => replacementCharacter :: displayFrom none rest
  | some state, byte :: rest =>
      if state.low ≤ byte.toNat ∧ byte.toNat ≤ state.high then
        let value := state.value * 64 + (byte.toNat - 0x80)
        match state.remaining with
        | 0 => Char.ofNat value :: displayFrom none rest
        | remaining + 1 =>
            displayFrom (some ⟨value, remaining, 0x80, 0xBF⟩) rest
      else
        replacementCharacter ::
          match Lead.ofByte byte with
          | .whole character => character :: displayFrom none rest
          | .opens next => displayFrom (some next) rest
          | .malformed => replacementCharacter :: displayFrom none rest

/-- Text for display: well-formed stretches as they are, each maximal
ill-formed one as a single replacement character. -/
def display (bytes : List UInt8) : String :=
  match decode? bytes with
  | some text => text
  | none => String.ofList (displayFrom none bytes)

end PackageRename.Utf8
