/-!
# JSON values and their text

A value is written as a row of tokens without white space.  A string may leave
a surrogate unpaired: it is legal, and it stands for no text.
-/

namespace PackageRename

namespace Json

/-- A value without parts. -/
inductive Scalar where
  | null
  | bool (value : Bool)
  /-- A number written as a plain non-negative integer. -/
  | natural (value : Nat)
  /-- Any other number, as it is written. -/
  | number (text : String)
  /-- A string; `none` is one that stands for no text. -/
  | string (text : Option String)
deriving DecidableEq

inductive Token where
  | scalar (scalar : Scalar)
  | openArray
  | closeArray
  | openObject
  | closeObject
  | comma
  | colon
deriving DecidableEq

end Json

inductive Json where
  | scalar (scalar : Json.Scalar)
  | array (items : List Json)
  | object (members : List (Option String × Json))

namespace Json

def null : Json := scalar .null

def bool (value : Bool) : Json := scalar (.bool value)

def natural (value : Nat) : Json := scalar (.natural value)

def string (text : String) : Json := scalar (.string (some text))

/-- An object whose keys are text. -/
def record (members : List (String × Json)) : Json :=
  object (members.map fun (key, value) => (some key, value))

/-- A digit to base sixteen, in lower case. -/
def hexDigit (value : Nat) : Char :=
  if value < 10 then Char.ofNat ('0'.toNat + value)
  else Char.ofNat ('a'.toNat + (value - 10))

/-- A character inside a string.  Quotes, backslashes and control characters
are escaped, and nothing else is. -/
def escape (character : Char) : List Char :=
  if character = '"' then ['\\', '"']
  else if character = '\\' then ['\\', '\\']
  else if character = '\x08' then ['\\', 'b']
  else if character = '\x0c' then ['\\', 'f']
  else if character = '\n' then ['\\', 'n']
  else if character = '\r' then ['\\', 'r']
  else if character = '\t' then ['\\', 't']
  else if character.toNat < 0x20 then
    ['\\', 'u', '0', '0', hexDigit (character.toNat / 16),
      hexDigit (character.toNat % 16)]
  else [character]

def Scalar.text : Scalar → List Char
  | null => "null".toList
  | bool true => "true".toList
  | bool false => "false".toList
  | natural value => Nat.toDigits 10 value
  | number text => text.toList
  | string (some text) => '"' :: text.toList.flatMap escape ++ ['"']
  | string none => "\"\\ud800\"".toList

def Token.text : Token → List Char
  | scalar value => value.text
  | openArray => ['[']
  | closeArray => [']']
  | openObject => ['\x7b']
  | closeObject => ['\x7d']
  | comma => [',']
  | colon => [':']

mutual

/-- The tokens of a value. -/
def tokens : Json → List Token
  | scalar value => [.scalar value]
  | array [] => [.openArray, .closeArray]
  | array (item :: items) =>
      .openArray :: tokens item ++ itemTokens items
  | object [] => [.openObject, .closeObject]
  | object ((key, value) :: members) =>
      .openObject :: .scalar (.string key) :: .colon :: tokens value ++
        memberTokens members

/-- The rest of an array. -/
def itemTokens : List Json → List Token
  | [] => [.closeArray]
  | item :: items => .comma :: tokens item ++ itemTokens items

/-- The rest of an object. -/
def memberTokens : List (Option String × Json) → List Token
  | [] => [.closeObject]
  | (key, value) :: members =>
      .comma :: .scalar (.string key) :: .colon :: tokens value ++
        memberTokens members

end

def render (value : Json) : String :=
  String.ofList (value.tokens.flatMap Token.text)

end Json

end PackageRename
