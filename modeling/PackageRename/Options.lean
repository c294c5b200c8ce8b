/-!
# Options of a rename

Where the parts of a decoded package lie, and how a changed file is written.
-/

namespace PackageRename

inductive WriteStrategy where
  /-- A new file with the new contents takes the old one's place. -/
  | atomic
  /-- The new contents go into the existing file. -/
  | inPlace
deriving DecidableEq

/-- The directory and file names are relative to the package root.  Every
directory of the root whose name starts with the bytecode prefix is a bytecode
root. -/
structure Options where
  resourceDirectory : String
  manifestFile : String
  bytecodePrefix : String
  writeStrategy : WriteStrategy
deriving DecidableEq

namespace Options

def standard : Options where
  resourceDirectory := "res"
  manifestFile := "AndroidManifest.xml"
  bytecodePrefix := "smali"
  writeStrategy := .atomic

def isBytecodeRoot (options : Options) (name : String) : Bool :=
  options.bytecodePrefix.toList.isPrefixOf name.toList

end Options

end PackageRename
