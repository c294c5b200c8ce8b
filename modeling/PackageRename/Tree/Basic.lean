import PackageRename.Tree.Subtree

/-!
# File trees

A tree is a top directory with all that lies below it, so nothing stands below
a file, a link or a missing place.  Seen from outside it gives each place at
most one node.

Four primitives build all changes: giving a name in a directory to a subtree,
removing what lies at and below a place, moving what lies there, and changing
files where they stand.
-/

namespace PackageRename

structure Tree where
  /-- Where a path that is not absolute starts. -/
  origin : Place
  /-- What the top directory holds. -/
  entries : Entries
  ordered : (Subtree.directory Node.madeMode entries).Ordered

namespace Tree

def top (tree : Tree) : Subtree :=
  .directory Node.madeMode tree.entries

/-- What stands at a place, with all below it. -/
def subtree? (tree : Tree) (place : Place) : Option Subtree :=
  tree.top.at? place

/-- The node at a place. -/
def node? (tree : Tree) (place : Place) : Option Node :=
  (tree.subtree? place).map Subtree.node

def hasDirectory (tree : Tree) (place : Place) : Bool :=
  (tree.node? place).any Node.isDirectory

/-- The entries of a directory in the order of their names. -/
def childrenOf (tree : Tree) (place : Place) : List (Name × Node) :=
  match tree.subtree? place with
  | some subtree => subtree.entries.map fun entry => (entry.1, entry.2.node)
  | none => []

def isEmptyDirectory (tree : Tree) (place : Place) : Bool :=
  tree.hasDirectory place && (tree.childrenOf place).isEmpty

/-- All places below the top that hold a node. -/
def nodes (tree : Tree) : List (Place × Node) :=
  Subtree.entryNodes [] tree.entries

/-- A tree in which nothing but the top exists. -/
def empty (origin : Place) : Tree where
  origin
  entries := []
  ordered := .ofNode .made

/-- Give a name in a directory to a subtree, in place of what had it before.
Without such a directory nothing changes. -/
def graft (tree : Tree) (parent : Place) (name : Name) (inner : Subtree)
    (innerOrdered : inner.Ordered) : Tree where
  origin := tree.origin
  entries := tree.entries.changeAt (Entries.set name inner) parent
  ordered := tree.ordered.changeAt (fun ordered => ordered.set innerOrdered)
    parent

/-- Add an entry to a directory that has none of that name. -/
def insert (tree : Tree) (parent : Place) (name : Name) (node : Node) : Tree :=
  if (tree.node? (parent ++ [name])).isNone then
    tree.graft parent name (.ofNode node) (.ofNode node)
  else
    tree

/-- Put a node in place of what stands at and below a place. -/
def replace (tree : Tree) (place : Place) (node : Node) : Tree :=
  match place.getLast? with
  | none => tree
  | some name =>
      tree.graft place.dropLast name (.ofNode node) (.ofNode node)

/-- Remove what lies at and below a place.  The top stays. -/
def remove (tree : Tree) (place : Place) : Tree :=
  match place.getLast? with
  | none => tree
  | some name =>
      { tree with
        entries := tree.entries.changeAt (Entries.erase name) place.dropLast
        ordered := tree.ordered.changeAt (fun ordered => ordered.erase)
          place.dropLast }

/-- Move what lies at and below a place to a name in a directory that lies
elsewhere. -/
def move (tree : Tree) (old parent : Place) (name : Name) : Tree :=
  match found : tree.subtree? old with
  | none => tree
  | some inner =>
      (tree.remove old).graft parent name inner (tree.ordered.at? found)

/-- Change files where they stand.  Names, directories and links stay. -/
def mapFiles (tree : Tree) (change : File → File) : Tree where
  origin := tree.origin
  entries := Subtree.mapEntries change tree.entries
  ordered := tree.ordered.mapFiles change

/-- Change the file at a place under all its names. -/
def changeFile (tree : Tree) (place : Place) (file : File)
    (change : File → File) : Tree :=
  match file.share with
  | none => tree.replace place (.file (change file))
  | some share =>
      tree.mapFiles fun present =>
        if present.share = some share then change present else present

end Tree

end PackageRename
