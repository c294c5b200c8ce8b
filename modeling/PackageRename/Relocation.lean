import PackageRename.FileUpdate
import PackageRename.Identifier

/-!
# Moving a package directory

A bytecode root holds the directory of a package at the path form of its name.
Renaming the package moves that directory.  Where one name lies inside the
other, the directory is parked beside both on the way.
-/

namespace PackageRename

/-- The directories of a package root that hold bytecode, in the order of their
names.  Links to directories count. -/
def bytecodeRoots (root : Path) (options : Options) (tree : Tree) :
    Except Fault (List String) := do
  let listed ← tree.list root
  return listed.filterMap fun (name, _) => do
    let path : Path := ⟨name⟩
    guard (tree.isDirectory (root.join path))
    let text ← path.text?
    guard (options.isBytecodeRoot text)
    return text

/-- The name under which a package directory is parked. -/
def stagingName : String := ".apkclone-staging"

/-- Rename a directory, making the directories on the way to its new path. -/
def placeDirectory (source target : Path) (tree : Tree) :
    Except Fault Unit × Tree :=
  let (made, reached) :=
    match target.parent? with
    | some parent => tree.createDirectories parent
    | none => (.ok (), tree)
  match made with
  | .error fault => (.error fault, reached)
  | .ok () =>
      match reached.rename source target with
      | .ok renamed => (.ok (), renamed)
      | .error fault => (.error fault, reached)

/-- Remove directories as long as they are empty, and none that is the base or
lies outside it. -/
def pruneAlong (base : Path) : List Path → Tree → Tree
  | [], tree => tree
  | directory :: above, tree =>
      if directory.isStrictlyBelow base then
        match tree.removeDirectory directory with
        | .ok pruned => pruneAlong base above pruned
        | .error _ => tree
      else
        tree

/-- Remove the directories above a moved one that the move has left empty. -/
def pruneAbove (base moved : Path) (tree : Tree) : Tree :=
  pruneAlong base moved.ancestors tree

/-- Move the directory of one package below a base to that of another.  Answers
false if there is none. -/
def movePackage (base : Path) (source target : Identifier) (tree : Tree) :
    Effect Bool :=
  let old := source.directoryIn base
  let new := target.directoryIn base
  if tree.isDirectory old then
    if source.isAncestorOf target || target.isAncestorOf source then
      let staging := base.join (Path.ofString stagingName)
      if tree.pathExists staging then
        .fail tree (.move old staging .stagingOccupied)
      else
        match tree.rename old staging with
        | .error fault => .fail tree (.move old staging fault)
        | .ok parked =>
            match placeDirectory staging new (pruneAbove base old parked) with
            | (.ok (), placed) => .succeed placed true
            | (.error fault, reached) =>
                let (restored, back) := placeDirectory staging old reached
                { answer := .error (.move old new fault)
                  tree := back
                  log := match restored with
                    | .ok () => []
                    | .error stuck => [⟨.error,
                        s!"Unable to restore {old.display} from " ++
                          s!"{staging.display}: {stuck.message}"⟩] }
    else
      match placeDirectory old new tree with
      | (.ok (), placed) => .succeed (pruneAbove base old placed) true
      | (.error fault, reached) => .fail reached (.move old new fault)
  else
    .succeed tree false

end PackageRename
