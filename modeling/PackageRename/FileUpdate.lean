import PackageRename.Log
import PackageRename.Report
import PackageRename.Substitution
import PackageRename.Tree.Operations

/-!
# Updating one file

A file is read whole, its substitutions are applied to the text, and it is
written only if the text has changed.  A file that is not text is left alone,
unless one of the sought texts stands in its bytes.
-/

namespace PackageRename

/-- Why an operation on one file or directory failed. -/
inductive FileError where
  | io (path : Path) (fault : Fault)
  /-- The file is not text and would need a substitution. -/
  | undecodable (path : Path)
  | move (source target : Path) (fault : Fault)
deriving DecidableEq

namespace FileError

def fault? : FileError → Option Fault
  | io _ fault => some fault
  | undecodable _ => none
  | move _ _ fault => some fault

/-- The description without the path. -/
def message : FileError → String
  | io _ fault => fault.message
  | undecodable _ => "contents are not valid UTF-8 text"
  | move _ _ fault => fault.message

/-- The path the error is reported for. -/
def subject : FileError → Path
  | io path _ => path
  | undecodable path => path
  | move source _ _ => source

def display : FileError → String
  | io path fault => s!"I/O error on {path.display}: {fault.message}"
  | undecodable path => s!"{path.display} is not valid UTF-8 text"
  | move source target fault =>
      s!"unable to move {source.display} to {target.display}: {fault.message}"

end FileError

/-- What an operation on one file or directory answers, the tree it leaves, and
what it logs. -/
structure Effect (α : Type) where
  answer : Except FileError α
  tree : Tree
  log : List LogRecord

namespace Effect

def succeed {α : Type} (tree : Tree) (value : α) : Effect α :=
  ⟨.ok value, tree, []⟩

def fail {α : Type} (tree : Tree) (error : FileError) : Effect α :=
  ⟨.error error, tree, []⟩

end Effect

/-- Apply substitutions to the file a path leads to. -/
def updateFile (path : Path) (substitutions : List Substitution)
    (strategy : WriteStrategy) (tree : Tree) : Effect Outcome :=
  match tree.fileAt path with
  | .error fault => .fail tree (.io path fault)
  | .ok (place, file) =>
      match Utf8.decode? file.contents with
      | none =>
          if substitutions.any (·.occursInBytes file.contents) then
            .fail tree (.undecodable path)
          else
            .succeed tree .unchanged
      | some text =>
          let (updated, replacements) :=
            Substitution.applyAll substitutions text
          if replacements = 0 ∨ updated = text then
            .succeed tree .unchanged
          else if file.isReadOnly then
            .fail tree (.io path .readOnly)
          else
            match tree.write path place file (Utf8.encode updated) strategy with
            | .error fault => .fail tree (.io path fault)
            | .ok written =>
                { answer := .ok (.changed replacements)
                  tree := written
                  log := [⟨.debug,
                    s!"{path.display}: {replacements} replacements"⟩] }

end PackageRename
