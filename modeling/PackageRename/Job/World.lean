import PackageRename.Log
import PackageRename.Report
import PackageRename.Tree.Lookup

/-!
# The world jobs run in

Jobs share a file tree, the set of package roots that have a job in flight, and
a log.  A root is claimed under the place it leads to, so that two spellings of
one directory are one claim.
-/

namespace PackageRename

/-- What a claim on a package root is made under: a path, told by its
components. -/
def RootKey := List Component
deriving DecidableEq

/-- The absolute path of a place. -/
def RootKey.absolute (place : Place) : RootKey := .root :: place.map .name

/-- A root is claimed under the absolute path of the place that it leads to.  A
root that leads nowhere is claimed as it is written. -/
def RootKey.of (root : Path) (tree : Tree) : RootKey :=
  match tree.canonical root with
  | .ok place => absolute place
  | .error _ => root.components

structure World where
  tree : Tree
  held : List RootKey
  log : List LogRecord

namespace World

/-- A tree with no job in flight and nothing logged. -/
def ofTree (tree : Tree) : World := ⟨tree, [], []⟩

def note (world : World) (severity : Severity) (message : String) : World :=
  { world with log := world.log ++ [⟨severity, message⟩] }

/-- Claim a key that no job holds. -/
def acquire? (world : World) (key : RootKey) : Option World :=
  if key ∈ world.held then none
  else some { world with held := key :: world.held }

def release (world : World) (key : RootKey) : World :=
  { world with held := world.held.erase key }

end World

end PackageRename
