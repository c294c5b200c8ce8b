import PackageRename.Text.Utf8

/-!
# Paths as written

A path keeps the bytes it was written with.  Its pieces are what stands between
slashes, empty ones included; its components are the pieces that count when two
paths are compared.  An inner `.` and a repeated or final slash are spelling
only, a leading `.` is a component, and `..` is never resolved here.
-/

namespace PackageRename

/-- The bytes of one name in a directory. -/
abbrev Name := List UInt8

def slash : UInt8 := 0x2F

def dot : UInt8 := 0x2E

structure Path where
  bytes : List UInt8
deriving DecidableEq

inductive Component where
  | root
  | current
  | parent
  | name (name : Name)
deriving DecidableEq

/-- The component a piece stands for away from the front of a path. -/
def Component.ofPiece? (piece : Name) : Option Component :=
  if piece = [] then none
  else if piece = [dot] then none
  else if piece = [dot, dot] then some .parent
  else some (.name piece)

namespace Path

def ofString (text : String) : Path :=
  ⟨Utf8.encode text⟩

def text? (path : Path) : Option String :=
  Utf8.decode? path.bytes

def display (path : Path) : String :=
  Utf8.display path.bytes

def pieces (path : Path) : List Name :=
  path.bytes.splitOn slash

def ofPieces (pieces : List Name) : Path :=
  ⟨[slash].intercalate pieces⟩

def isAbsolute (path : Path) : Bool :=
  path.bytes.head? == some slash

/-- What a path opens with before its plain pieces: the root or a leading
`.`. -/
def lead? (path : Path) : Option Component :=
  if path.isAbsolute then some .root
  else if path.bytes.takeWhile (· ≠ slash) = [dot] then some .current
  else none

/-- The pieces after the lead. -/
def body (path : Path) : List Name :=
  if path.lead?.isSome then path.pieces.tail else path.pieces

def components (path : Path) : List Component :=
  path.lead?.toList ++ path.body.filterMap Component.ofPiece?

/-- The path with a given lead and body. -/
def spell : Option Component → List Name → Path
  | none, body => ofPieces body
  | some .root, body => ⟨slash :: (ofPieces body).bytes⟩
  | some _, body => ofPieces ([dot] :: body)

def isSpelling (piece : Name) : Bool :=
  (Component.ofPiece? piece).isNone

/-- Drop pieces at the end that are spelling only. -/
def trimEnd (pieces : List Name) : List Name :=
  (pieces.reverse.dropWhile isSpelling).reverse

/-- Drop pieces up to and including a given number of components. -/
def dropComponents : Nat → List Name → List Name
  | 0, pieces => pieces
  | _ + 1, [] => []
  | count + 1, piece :: rest =>
      if isSpelling piece then dropComponents (count + 1) rest
      else dropComponents count rest

/-- Append the second path, which replaces the first if it is absolute. -/
def join (front back : Path) : Path :=
  if back.isAbsolute then back
  else if front.bytes = [] ∨ front.bytes.getLast? = some slash then
    ⟨front.bytes ++ back.bytes⟩
  else
    ⟨front.bytes ++ slash :: back.bytes⟩

def startsWith (path front : Path) : Bool :=
  front.components.isPrefixOf path.components

/-- Whether the path starts with a base and goes on. -/
def isStrictlyBelow (path base : Path) : Bool :=
  let components := path.components
  base.components.isPrefixOf components && components ≠ base.components

/-- The path below a base, as written but for spelling at its ends; the path
itself if it does not lie below the base.  A base without components leaves the
front of the path alone. -/
def relativeTo (path base : Path) : Path :=
  if path.startsWith base then
    match base.components.length with
    | 0 => spell path.lead? (trimEnd path.body)
    | count + 1 =>
        let below :=
          if path.lead?.isSome then dropComponents count path.body
          else dropComponents (count + 1) path.body
        ofPieces (trimEnd (below.dropWhile isSpelling))
  else
    path

/-- The path without its last component; none for the root and the empty
path. -/
def parent? (path : Path) : Option Path :=
  match trimEnd path.body with
  | [] => if path.lead? = some .current then some ⟨[]⟩ else none
  | piece :: rest =>
      some (spell path.lead? (trimEnd (piece :: rest).dropLast))

/-- Up to a number of repeated parents, nearest first. -/
def ancestorsUpTo : Nat → Path → List Path
  | 0, _ => []
  | count + 1, path =>
      match path.parent? with
      | none => []
      | some parent => parent :: ancestorsUpTo count parent

/-- The repeated parents of a path, nearest first.  Each has one component
less than the one before. -/
def ancestors (path : Path) : List Path :=
  ancestorsUpTo path.components.length path

@[simp]
theorem text?_ofString (text : String) : (ofString text).text? = some text :=
  Utf8.decode?_encode text

theorem ofString_of_text? {path : Path} {text : String}
    (decoded : path.text? = some text) : ofString text = path := by
  unfold ofString
  rw [Utf8.encode_of_decode? decoded]

theorem relativeTo_eq_self {path base : Path}
    (outside : path.startsWith base = false) :
    path.relativeTo base = path := by
  simp [relativeTo, outside]

end Path

end PackageRename
