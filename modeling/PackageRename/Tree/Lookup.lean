import PackageRename.Tree.Basic
import PackageRename.Tree.Fault

/-!
# Looking up paths

A path is followed piece by piece from left to right, from the top of the tree
if it is absolute and from the tree's origin if not.  Whatever is passed
through has to be a directory, links on the way are replaced by their targets,
and `..` leads to the directory above, which for the top is the top.
-/

namespace PackageRename.Tree

/-- Bytes of the longest name. -/
def nameLimit : Nat := 255

/-- Bytes of the longest path. -/
def pathLimit : Nat := 4095

/-- Links that one lookup follows at most. -/
def linkLimit : Nat := 40

/-- Refuses a path that leads nowhere as it is written, however short it
is. -/
def checkWritten (path : Path) : Except Fault Unit :=
  if path.bytes.contains 0 then .error .nulByte
  else if path.bytes = [] then .error .notFound
  else .ok ()

/-- Refuses a path that no operation takes. -/
def checkPath (path : Path) : Except Fault Unit := do
  checkWritten path
  if pathLimit < path.bytes.length then throw .nameTooLong

/-- How a lookup has come down from the top: the names it has followed and what
stands under each, nearest first. -/
abbrev Trail := List (Name × Subtree)

namespace Trail

def place (trail : Trail) : Place :=
  (trail.map Prod.fst).reverse

/-- Whether a name is too long to be looked up at the end of a trail: the name
itself, or the absolute path with it, where that may not exceed a limit. -/
def overruns (limit : Option Nat) (trail : Trail) (name : Name) : Bool :=
  nameLimit < name.length ||
    limit.any (· < Place.spelledLength (trail.place ++ [name]))

/-- Follow names that are known to lead down from what stands at the trail's
end. -/
def extend? (trail : Trail) : Subtree → Place → Option Trail
  | _, [] => some trail
  | subtree, name :: rest =>
      match subtree.entries.lookup name with
      | none => none
      | some inner => extend? ((name, inner) :: trail) inner rest

end Trail

/-- What stands at the end of a trail. -/
def reached (tree : Tree) : Trail → Subtree
  | [] => tree.top
  | (_, inner) :: _ => inner

/-- Follow pieces from the end of a trail.  On a link, `onLink` goes on with
the trail to the directory that holds it, its target and the pieces that are
left. -/
def descend (tree : Tree) (limit : Option Nat)
    (onLink : Trail → Path → List Name → Except Fault Trail) :
    Trail → List Name → Except Fault Trail
  | trail, [] => .ok trail
  | trail, piece :: rest =>
      match tree.reached trail with
      | .directory _ entries =>
          if piece = [] ∨ piece = [dot] then
            descend tree limit onLink trail rest
          else if piece = [dot, dot] then
            descend tree limit onLink trail.tail rest
          else if trail.overruns limit piece then
            .error .nameTooLong
          else
            match entries.lookup piece with
            | none => .error .notFound
            | some (.link target _) => onLink trail target rest
            | some inner =>
                descend tree limit onLink ((piece, inner) :: trail) rest
      | _ => .error .notDirectory

/-- Follow pieces and up to a number of links. -/
def descendThrough (tree : Tree) (limit : Option Nat) :
    (links : Nat) → Trail → List Name → Except Fault Trail
  | 0 => tree.descend limit fun _ _ _ => .error .tooManyLinks
  | links + 1 => tree.descend limit fun trail target rest =>
      if target.bytes = [] then .error .notFound
      else
        let start := if target.isAbsolute then [] else trail
        tree.descendThrough limit links start (target.pieces ++ rest)

/-- The place that pieces of a path lead to, from the top if the path is
absolute and from the tree's origin if not.  The absolute paths of the places on
the way may be limited. -/
def followWithin (tree : Tree) (limit : Option Nat) (path : Path)
    (pieces : List Name) : Except Fault Place := do
  let start := if path.isAbsolute then [] else tree.origin
  let some trail := Trail.extend? [] tree.top start | throw .notFound
  let reached ← tree.descendThrough limit linkLimit trail pieces
  return reached.place

/-- The place that pieces of a path lead to, wherever that is. -/
def follow (tree : Tree) (path : Path) (pieces : List Name) :
    Except Fault Place :=
  tree.followWithin none path pieces

/-- The place a path leads to, with every link followed. -/
def resolve (tree : Tree) (path : Path) : Except Fault Place := do
  checkPath path
  tree.follow path path.pieces

/-- The place a path leads to when each place on the way is looked up by its
absolute path.  So it does not matter how long the path is written, but none of
the places may have an absolute path that is too long. -/
def canonical (tree : Tree) (path : Path) : Except Fault Place := do
  checkWritten path
  tree.followWithin (some pathLimit) path path.pieces

/-- Where the last name of a path stands or would stand: the name itself is
not followed. -/
structure Slot where
  parent : Place
  name : Name
  /-- The path goes on with a slash after the name. -/
  trailing : Bool

namespace Slot

def place (slot : Slot) : Place :=
  slot.parent ++ [slot.name]

/-- The name is `.` or `..`, or there is none: the path names a directory that
has its own name elsewhere, or the top. -/
def isDotted (slot : Slot) : Bool :=
  slot.name = [] || slot.name = [dot] || slot.name = [dot, dot]

end Slot

/-- The slot of a path. -/
def slot (tree : Tree) (path : Path) : Except Fault Slot := do
  checkPath path
  let named := (path.pieces.reverse.dropWhile (· = [])).reverse
  let parent ← tree.follow path named.dropLast
  if tree.hasDirectory parent then
    return {
      parent
      name := named.getLast?.getD []
      trailing := named.length < path.pieces.length }
  throw .notDirectory

/-- The node in a slot, if any. -/
def nodeIn? (tree : Tree) (slot : Slot) : Except Fault (Option Node) :=
  if nameLimit < slot.name.length then .error .nameTooLong
  else .ok (tree.node? slot.place)

/-- What kind of node a path names.  A link in the last place is not followed,
unless a slash follows it. -/
def kindOf (tree : Tree) (path : Path) : Except Fault Kind := do
  let slot ← tree.slot path
  if slot.trailing || slot.isDotted then
    let place ← tree.resolve path
    return ((tree.node? place).map Node.kind).getD .file
  match ← tree.nodeIn? slot with
  | none => throw .notFound
  | some node => return node.kind

def isDirectory (tree : Tree) (path : Path) : Bool :=
  match tree.resolve path with
  | .ok place => tree.hasDirectory place
  | .error _ => false

def pathExists (tree : Tree) (path : Path) : Bool :=
  (tree.resolve path).isOk

/-- The file a path leads to, with its place. -/
def fileAt (tree : Tree) (path : Path) : Except Fault (Place × File) := do
  let place ← tree.resolve path
  match tree.node? place with
  | some (.file file) => return (place, file)
  | some (.directory _) => throw .isDirectory
  | some (.link _ _) => throw .tooManyLinks
  | none => throw .notFound

/-- Names and kinds of a directory's entries, in the order of the names. -/
def list (tree : Tree) (path : Path) : Except Fault (List (Name × Kind)) := do
  let place ← tree.resolve path
  if tree.hasDirectory place then
    return (tree.childrenOf place).map fun (name, node) => (name, node.kind)
  throw .notDirectory

end PackageRename.Tree
