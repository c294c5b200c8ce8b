import PackageRename.Path

/-!
# Files, links and directories

What can stand at a place of a file tree.  A file or a link may have several
names; all names of one carry the same `share`.  A directory has a mode as a
file has, and one that is made gets the mode of new ones.
-/

namespace PackageRename

/-- A place in a tree: the names that lead to it from the top. -/
abbrev Place := List Name

/-- Bytes of the absolute path of a place: a slash before each name.  Only the
top has one more. -/
def Place.spelledLength : Place → Nat
  | [] => 0
  | name :: rest => name.length + 1 + spelledLength rest

/-- A regular file.  `written` marks contents that an operation has put
there. -/
structure File where
  contents : List UInt8
  mode : Nat
  share : Option Nat
  written : Bool
deriving DecidableEq

namespace File

def ownerMode : Nat := 0o644

/-- A file is read-only when none of its write bits is set. -/
def isReadOnly (file : File) : Bool :=
  file.mode &&& 0o222 == 0

def fresh (contents : List UInt8) (mode : Nat) : File where
  contents
  mode
  share := none
  written := false

end File

/-- What stands at one place, without what lies below it. -/
inductive Node where
  | directory (mode : Nat)
  | file (file : File)
  | link (target : Path) (share : Option Nat)
deriving DecidableEq

/-- What a directory listing tells about an entry. -/
inductive Kind where
  | directory
  | file
  | link
deriving DecidableEq

namespace Node

/-- The mode of new directories: all rights but those that the process masks
out, which are usually the rights of others to write. -/
def madeMode : Nat := 0o755

/-- A directory as it is made. -/
def made : Node := directory madeMode

def isDirectory : Node → Bool
  | directory _ => true
  | file _ => false
  | link _ _ => false

def kind : Node → Kind
  | directory _ => .directory
  | file _ => .file
  | link _ _ => .link

/-- What the names of one file or link have in common.  Directories have one
name only. -/
def share? : Node → Option Nat
  | directory _ => none
  | file present => present.share
  | link _ share => share

def withShare (share : Nat) : Node → Node
  | directory mode => directory mode
  | file present => file { present with share := some share }
  | link target _ => link target (some share)

def mapFile (change : File → File) : Node → Node
  | directory mode => directory mode
  | file present => file (change present)
  | link target share => link target share

end Node

end PackageRename
