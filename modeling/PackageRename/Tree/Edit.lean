import PackageRename.Tree.Operations

/-!
# Editing a tree from outside

Edits made by whoever owns the tree while a job may be looking at it.  Missing
directories on the way to a new entry are made; a file that is there already
gets the new contents and mode.
-/

namespace PackageRename.Tree

/-- What an edit puts at a path. -/
inductive Placement where
  | file (contents : List UInt8) (mode : Nat)
  | directory
  | link (target : Path)
  /-- One more name for the file or link at another path. -/
  | hardLink (source : Path)
deriving DecidableEq

/-- An edit removes what lies at some paths, links not followed, and then puts
entries in order. -/
structure Edit where
  removals : List Path
  placements : List (Path × Placement)
deriving DecidableEq

/-- A number that no file or link carries. -/
def freshShare (tree : Tree) : Nat :=
  tree.nodes.foldl (fun fresh (_, node) =>
    max fresh ((node.share?.map (· + 1)).getD 0)) 0

/-- Add a node under the last name of a path, unless something is there. -/
def place (tree : Tree) (path : Path) (node : Node) : Tree :=
  match tree.slot path with
  | .ok slot => tree.insert slot.parent slot.name node
  | .error _ => tree

/-- Add a node where a path would lead: a link in the last place that leads to
nothing is followed. -/
def placeThrough (tree : Tree) (node : Node) : (links : Nat) → Path → Tree
  | 0, _ => tree
  | links + 1, path =>
      match tree.slot path with
      | .error _ => tree
      | .ok slot =>
          match tree.node? slot.place with
          | some (.link target _) =>
              let directory := Path.ofPieces ([] :: slot.parent)
              tree.placeThrough node links (directory.join target)
          | _ => tree.insert slot.parent slot.name node

/-- Overwrite a file under all its names. -/
def overwrite (tree : Tree) (place : Place) (file : File)
    (contents : List UInt8) (mode : Nat) : Tree :=
  tree.changeFile place file fun present =>
    { present with contents, mode, written := false }

/-- Add a name for what stands at a place. -/
def addName (tree : Tree) (path : Path) (place : Place) (node : Node) : Tree :=
  let shared := node.withShare (node.share?.getD tree.freshShare)
  (tree.replace place shared).place path shared

def put (tree : Tree) (path : Path) (placement : Placement) : Tree :=
  let tree :=
    match path.parent? with
    | some parent => (tree.createDirectories parent).2
    | none => tree
  match placement with
  | .directory => (tree.createDirectories path).2
  | .link target => tree.place path (.link target none)
  | .file contents mode =>
      match tree.fileAt path with
      | .ok (place, file) => tree.overwrite place file contents mode
      | .error _ =>
          tree.placeThrough (.file (File.fresh contents mode)) linkLimit path
  | .hardLink source =>
      match tree.slot source with
      | .error _ => tree
      | .ok slot =>
          match tree.node? slot.place with
          | none => tree
          | some (.directory _) => tree
          | some node => tree.addName path slot.place node

/-- Remove what a path names, with all in it. -/
def removePath (tree : Tree) (path : Path) : Tree :=
  match tree.slot path with
  | .ok slot => if slot.isDotted then tree else tree.remove slot.place
  | .error _ => tree

def edit (tree : Tree) (edit : Edit) : Tree :=
  edit.placements.foldl (fun tree (path, placement) => tree.put path placement)
    (edit.removals.foldl removePath tree)

end PackageRename.Tree
