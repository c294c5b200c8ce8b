import PackageRename.Options
import PackageRename.Tree.Lookup

/-!
# Changing a tree through paths

Making, removing and renaming directories, and writing files.  Each operation
checks what it needs in a fixed order, reports the first fault, and leaves the
tree as it was if there is one.  Only `createDirectories` may stop half way:
the directories it has made by then stay.
-/

namespace PackageRename.Tree

def makeDirectory (tree : Tree) (path : Path) : Except Fault Tree := do
  let slot ← tree.slot path
  if slot.isDotted then throw .alreadyExists
  match ← tree.nodeIn? slot with
  | some _ => throw .alreadyExists
  | none => return tree.insert slot.parent slot.name .made

/-- Make the first directory of the list; where the way to it is missing, make
the others first.  They are a path and its ancestors, nearest first. -/
def createAlong (tree : Tree) : List Path → Except Fault Unit × Tree
  | [] => (.error .notFound, tree)
  | path :: above =>
      if path.bytes = [] then (.ok (), tree)
      else
        match tree.makeDirectory path with
        | .ok made => (.ok (), made)
        | .error .notFound =>
            match tree.createAlong above with
            | (.error fault, reached) => (.error fault, reached)
            | (.ok (), reached) =>
                match reached.makeDirectory path with
                | .ok made => (.ok (), made)
                | .error fault =>
                    if reached.isDirectory path then (.ok (), reached)
                    else (.error fault, reached)
        | .error fault =>
            if tree.isDirectory path then (.ok (), tree)
            else (.error fault, tree)

/-- Make a directory and those on the way to it. -/
def createDirectories (tree : Tree) (path : Path) :
    Except Fault Unit × Tree :=
  tree.createAlong (path :: path.ancestors)

/-- Remove an empty directory. -/
def removeDirectory (tree : Tree) (path : Path) : Except Fault Tree := do
  let slot ← tree.slot path
  if slot.name = [dot, dot] then throw .notEmpty
  if slot.name = [dot] then throw .invalidArgument
  if slot.name = [] then throw .busy
  match ← tree.nodeIn? slot with
  | none => throw .notFound
  | some (.directory _) =>
      if tree.isEmptyDirectory slot.place then
        return tree.remove slot.place
      throw .notEmpty
  | some _ => throw .notDirectory

/-- Whether one node may take the place of another: only an empty directory
gives way to a directory, and a directory to nothing else. -/
def checkReplaced (tree : Tree) (moved : Node) (target : Place) :
    Except Fault Unit :=
  match tree.node? target, moved with
  | none, _ => .ok ()
  | some (.directory _), .directory _ =>
      if tree.isEmptyDirectory target then .ok () else .error .notEmpty
  | some _, .directory _ => .error .notDirectory
  | some (.directory _), _ => .error .isDirectory
  | some _, _ => .ok ()

/-- Whether a place holds another name of a node. -/
def sharesNode (tree : Tree) (node : Node) (place : Place) : Bool :=
  node.share?.isSome && (tree.node? place).bind Node.share? = node.share?

/-- Move what has one name to another name.  A link in the last place is moved
itself.  Between two names of one node there is nothing to do. -/
def rename (tree : Tree) (source target : Path) : Except Fault Tree := do
  if source.bytes.contains 0 || target.bytes.contains 0 then throw .nulByte
  let old ← tree.slot source
  let new ← tree.slot target
  if old.isDotted || new.isDotted then throw .busy
  let some moved ← tree.nodeIn? old | throw .notFound
  let _ ← tree.nodeIn? new
  if !moved.isDirectory && (old.trailing || new.trailing) then
    throw .notDirectory
  if old.place.isPrefixOf new.parent then throw .invalidArgument
  if new.place.isPrefixOf old.parent then throw .notEmpty
  if old.place = new.place ∨ tree.sharesNode moved new.place then return tree
  tree.checkReplaced moved new.place
  return (tree.remove new.place).move old.place new.parent new.name

/-- Bytes of the name of a temporary file. -/
def temporaryLength : Nat := 10

/-- Where a new file can take the place of the one that a path leads to.  It is
made under a temporary name in the same directory and renamed then, both by
absolute paths. -/
def replacedBy (tree : Tree) (path : Path) : Except Fault Place := do
  let place ← tree.canonical path
  if pathLimit < Place.spelledLength place.dropLast + 1 + temporaryLength then
    throw .temporaryTooLong
  return place

/-- Give the file at a place new contents.  Written in place, they show under
all its names; otherwise a new file takes this one name and keeps the mode. -/
def writeAt (tree : Tree) (place : Place) (file : File)
    (contents : List UInt8) (strategy : WriteStrategy) : Tree :=
  match strategy with
  | .inPlace =>
      tree.changeFile place file fun present =>
        { present with contents, written := true }
  | .atomic =>
      tree.replace place
        (.file { file with contents, share := none, written := true })

/-- Give the file that a path leads to new contents. -/
def write (tree : Tree) (path : Path) (place : Place) (file : File)
    (contents : List UInt8) (strategy : WriteStrategy) : Except Fault Tree :=
  match strategy with
  | .inPlace => .ok (tree.writeAt place file contents .inPlace)
  | .atomic => do
      let target ← tree.replacedBy path
      return tree.writeAt target file contents .atomic

/-- Forget which files have been written. -/
def clearWritten (tree : Tree) : Tree :=
  tree.mapFiles fun file => { file with written := false }

end PackageRename.Tree
