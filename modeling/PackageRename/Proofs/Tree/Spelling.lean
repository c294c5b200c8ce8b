import PackageRename.Proofs.FileUpdate
import PackageRename.Proofs.Tree.Pieces
import PackageRename.Proofs.Tree.Reshaping
import PackageRename.Proofs.Tree.Visits

/-!
# What a spelling names

Two spellings of a path lead to the same file, and a path that ends like that of
a directory is never taken for the path of anything else.
-/

namespace PackageRename

open PackageRename.Path

namespace Tree

variable {tree : Tree} {path other : Path}

theorem fileAt_eq_of_components (same : path.components = other.components)
    (sameEnd : EndsInSpelling path.pieces ↔ EndsInSpelling other.pieces)
    (sameFit : path.bytes.length ≤ pathLimit ↔
      other.bytes.length ≤ pathLimit) :
    tree.fileAt path = tree.fileAt other := by
  rw [fileAt, fileAt, resolve_eq_of_components same sameEnd sameFit]

/-- No spelling of a directory's path leads to a file. -/
theorem fileAt_ne_ok_of_components (same : path.components = other.components)
    (isDirectory : tree.isDirectory other = true) (found : Place × File) :
    tree.fileAt path ≠ .ok found := by
  intro isFile
  obtain ⟨resolved, isNode⟩ := fileAt_eq_ok.mp isFile
  rw [Tree.isDirectory] at isDirectory
  split at isDirectory
  · rename_i home otherResolved
    rw [place_eq_of_components same resolved otherResolved] at isNode
    rw [hasDirectory, isNode] at isDirectory
    cases isDirectory
  · cases isDirectory

theorem Slot.IsOf.seeks_directory {slot : Slot} (isOf : slot.IsOf tree path)
    (ends : EndsInSpelling path.pieces) :
    (slot.trailing || slot.isDotted) = true := by
  obtain ⟨last, isLast, spelling⟩ := ends
  obtain ⟨front, isPieces⟩ : ∃ front, path.pieces = front ++ [last] :=
    ⟨_, (List.dropLast_append_getLast? last isLast).symm⟩
  rcases isSpelling_iff.mp spelling with rfl | rfl
  · have shorter : (unslashed path.pieces).length < path.pieces.length := by
      rw [unslashed, isPieces, List.reverse_append, List.length_reverse,
        List.length_append]
      have kept := (List.dropWhile_sublist (fun piece => decide (piece = []))
        (l := front.reverse)).length_le
      rw [List.length_reverse] at kept
      exact Nat.lt_succ_of_le kept
    rw [isOf.trailing, decide_eq_true shorter, Bool.true_or]
  · have isName : slot.name = [dot] := by
      rw [isOf.name, unslashed, isPieces]
      simp
    rw [Slot.isDotted, isName]
    exact Bool.or_true _

/-- A directory whose path ends like that of a directory is seen as one. -/
theorem kindOf_eq_directory {kind : Kind} (ends : EndsInSpelling path.pieces)
    (isDirectory : tree.isDirectory path = true)
    (found : tree.kindOf path = .ok kind) : kind = .directory := by
  obtain ⟨slot, isSlot, found⟩ := bind_eq_ok.mp found
  rw [if_pos ((Slot.isOf isSlot).seeks_directory ends)] at found
  obtain ⟨place, resolved, found⟩ := bind_eq_ok.mp found
  rw [Tree.isDirectory, resolved] at isDirectory
  cases found
  rw [kind_of_hasDirectory isDirectory]
  rfl

end Tree

end PackageRename
