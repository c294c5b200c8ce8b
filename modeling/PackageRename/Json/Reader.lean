import PackageRename.Json.Lexer

/-!
# Reading JSON values

Tokens are read from left to right, with a stack of the arrays and objects that
are open around the current position.  A text holds exactly one value.
-/

namespace PackageRename.Json

/-- An open array or object; what it holds so far stands in reverse. -/
inductive Frame where
  | array (before : List Json)
  | object (before : List (Option String × Json)) (key : Option String)

/-- What may come next. -/
inductive Focus where
  | value
  /-- The first item of an array, or its end. -/
  | firstItem
  /-- The first key of an object, or its end. -/
  | firstKey
  | key (before : List (Option String × Json))
  | colon (before : List (Option String × Json)) (key : Option String)
  /-- A complete value stands here. -/
  | after (value : Json)

structure ReadState where
  frames : List Frame
  focus : Focus

namespace ReadState

def start : ReadState := ⟨[], .value⟩

def readValue? (frames : List Frame) : Token → Option ReadState
  | .scalar value => some ⟨frames, .after (.scalar value)⟩
  | .openArray => some ⟨.array [] :: frames, .firstItem⟩
  | .openObject => some ⟨frames, .firstKey⟩
  | _ => none

def readKey? (frames : List Frame) (before : List (Option String × Json)) :
    Token → Option ReadState
  | .scalar (.string key) => some ⟨frames, .colon before key⟩
  | _ => none

/-- What follows a complete value closes or continues what is open around
it. -/
def readAfter? (frames : List Frame) (value : Json) (token : Token) :
    Option ReadState :=
  match frames, token with
  | .array before :: outer, .comma =>
      some ⟨.array (value :: before) :: outer, .value⟩
  | .array before :: outer, .closeArray =>
      some ⟨outer, .after (.array (value :: before).reverse)⟩
  | .object before key :: outer, .comma =>
      some ⟨outer, .key ((key, value) :: before)⟩
  | .object before key :: outer, .closeObject =>
      some ⟨outer, .after (.object ((key, value) :: before).reverse)⟩
  | _, _ => none

def next? (state : ReadState) (token : Token) : Option ReadState :=
  match state.focus with
  | .value => readValue? state.frames token
  | .firstItem =>
      match state.frames, token with
      | .array [] :: outer, .closeArray => some ⟨outer, .after (.array [])⟩
      | _, _ => readValue? state.frames token
  | .firstKey =>
      match token with
      | .closeObject => some ⟨state.frames, .after (.object [])⟩
      | _ => readKey? state.frames [] token
  | .key before => readKey? state.frames before token
  | .colon before key =>
      match token with
      | .colon => some ⟨.object before key :: state.frames, .value⟩
      | _ => none
  | .after value => readAfter? state.frames value token

/-- The value read, if nothing is open. -/
def result? (state : ReadState) : Option Json :=
  match state.frames, state.focus with
  | [], .after value => some value
  | _, _ => none

end ReadState

def readFrom? (state : ReadState) (tokens : List Token) : Option Json := do
  let final ← tokens.foldlM ReadState.next? state
  final.result?

/-- The one value that a text holds. -/
def read? (text : String) : Option Json := do
  let tokens ← lex? text
  readFrom? .start tokens

end PackageRename.Json
