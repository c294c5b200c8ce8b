import PackageRename.Tree.Lookup

/-!
# Walking a tree

A walk visits what lies at and below a path: each directory before its
contents, the contents in the order of their names.  Links are followed, and
keep their own paths.  A directory is listed when the walk enters it; the kind
of what is no link is taken from the listing, even if the tree has changed
since.
-/

namespace PackageRename.Tree

/-- What a walk comes upon. -/
inductive Visited where
  | directory (path : Path)
  | file (path : Path)
  /-- A link that leads nowhere or back to a directory being walked, or a
  directory that cannot be listed. -/
  | failure (path : Path) (fault : Fault)
deriving DecidableEq

def leadsTo (tree : Tree) (path : Path) (place : Place) : Bool :=
  match tree.resolve path with
  | .ok reached => reached = place
  | .error _ => false

/-- What a listed entry is to a walk inside the directories `above`. -/
def classify (tree : Tree) (above : List Path) (path : Path) :
    Kind → Visited
  | .directory => .directory path
  | .file => .file path
  | .link =>
      match tree.resolve path with
      | .error fault => .failure path fault
      | .ok place =>
          if tree.hasDirectory place then
            if above.any fun ancestor => tree.leadsTo ancestor place then
              .failure path .linkLoop
            else
              .directory path
          else
            .file path

variable {m : Type → Type} [Monad m]

/-- Visit something and then what lies in it.  Each level makes the path
longer, so that a path is too long to be listed before the depth is used up. -/
def walkFrom (current : m Tree) (visit : Visited → m Unit) :
    (depth : Nat) → (above : List Path) → Visited → m Unit
  | _, _, .file path => visit (.file path)
  | _, _, .failure path fault => visit (.failure path fault)
  | 0, _, .directory path => do
      visit (.directory path)
      visit (.failure path .nameTooLong)
  | depth + 1, above, .directory path => do
      visit (.directory path)
      match (← current).list path with
      | .error fault => visit (.failure path fault)
      | .ok children =>
          children.forM fun (name, kind) => do
            let tree ← current
            walkFrom current visit depth (path :: above)
              (tree.classify (path :: above) (path.join ⟨name⟩) kind)

/-- Visit what lies at and below a path of a tree that may change on the
way. -/
def walk (current : m Tree) (visit : Visited → m Unit) (root : Path) :
    m Unit := do
  let tree ← current
  match tree.kindOf root with
  | .error fault => visit (.failure root fault)
  | .ok kind =>
      walkFrom current visit pathLimit [] (tree.classify [] root kind)

end PackageRename.Tree
