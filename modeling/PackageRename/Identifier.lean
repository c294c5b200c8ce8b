import PackageRename.Path
import PackageRename.Substitution

/-!
# Package identifiers

A package is named by a dotted name such as `com.example.app`.  Type
descriptors and directories use its path form `com/example/app`, which is
always derived from the name.  Names are neither checked nor normalised.
-/

namespace PackageRename

structure Identifier where
  name : String
deriving DecidableEq

/-- The character that opens an object type descriptor. -/
def descriptorSigil : Char := 'L'

/-- The written forms of an identifier that a stage substitutes. -/
structure Forms where
  dotted : Bool
  descriptor : Bool

namespace Forms

def dottedOnly : Forms := ⟨true, false⟩

def both : Forms := ⟨true, true⟩

/-- Bit 0 selects the dotted form and bit 1 the descriptor form. -/
def ofBits (bits : Nat) : Forms :=
  ⟨bits.testBit 0, bits.testBit 1⟩

end Forms

namespace Identifier

/-- The slash separated form. -/
def path (identifier : Identifier) : String :=
  identifier.name.map fun character =>
    if character = '.' then '/' else character

def isEmpty (identifier : Identifier) : Bool :=
  identifier.name = ""

/-- The path form behind the sigil, without a class name. -/
def descriptor (identifier : Identifier) : String :=
  String.ofList (descriptorSigil :: identifier.path.toList)

/-- Whether the other package is nested inside this one: its path goes on with
a slash where this one's ends. -/
def isAncestorOf (outer inner : Identifier) : Bool :=
  let stem := Utf8.encode outer.path
  let whole := Utf8.encode inner.path
  stem.length < whole.length && stem.isPrefixOf whole &&
    whole[stem.length]? == some slash

/-- The substitutions that turn one identifier into another.  The descriptor
form comes first, so that it is applied before the dotted form. -/
def substitutions (source target : Identifier) (forms : Forms) :
    List Substitution :=
  (if forms.descriptor then [⟨source.descriptor, target.descriptor⟩] else []) ++
    (if forms.dotted then [⟨source.name, target.name⟩] else [])

/-- The directory of the package below a base directory. -/
def directoryIn (identifier : Identifier) (base : Path) : Path :=
  base.join (Path.ofString identifier.path)

end Identifier

end PackageRename
