import PackageRename.Proofs.Tree.Based

/-!
# Where a lookup looks

The places whose nodes decide what a lookup comes to, whether it succeeds or
not.  Trees that agree there lead the path to the same place.
-/

namespace PackageRename

namespace Tree

variable {tree other : Tree} {path : Path} {place : Place}
variable {hidden : Place → Prop}

/-- The places at which one looks for what pieces lead to. -/
def soughtFrom (tree : Tree) : Place → List Name → List Place
  | place, [] => [place]
  | place, piece :: rest =>
      if tree.hasDirectory place then
        place ::
          if piece = [] ∨ piece = [dot] then tree.soughtFrom place rest
          else if piece = [dot, dot] then tree.soughtFrom place.dropLast rest
          else tree.soughtFrom (place ++ [piece]) rest
      else [place]

def sought (tree : Tree) (path : Path) : List Place :=
  tree.soughtFrom (tree.startOf path) path.pieces

theorem mem_soughtFrom_start (place : Place) (pieces : List Name) :
    place ∈ tree.soughtFrom place pieces := by
  cases pieces with
  | nil => exact List.mem_singleton_self place
  | cons piece rest =>
      rw [soughtFrom]
      split
      · exact List.mem_cons_self
      · exact List.mem_singleton_self place

/-- Looking at places where the trees agree, one finds the same. -/
theorem SameKinds.enter_eq (same : SameKinds hidden tree other)
    {pieces : List Name}
    (avoids : ∀ inner ∈ tree.soughtFrom place pieces, ¬ hidden inner) :
    other.enter place pieces = tree.enter place pieces := by
  induction pieces generalizing place with
  | nil => rfl
  | cons piece rest induction =>
      have seen : ¬ hidden place := avoids place (mem_soughtFrom_start _ _)
      rw [soughtFrom] at avoids
      rw [Tree.enter, Tree.enter, same.hasDirectory seen]
      split
      · rename_i directory
        rw [if_pos directory] at avoids
        have later := fun inner member =>
          avoids inner (List.mem_cons_of_mem _ member)
        split
        · rename_i spelling
          rw [if_pos spelling] at later
          exact induction later
        · rename_i notSpelling
          rw [if_neg notSpelling] at later
          split
          · rename_i isParent
            rw [if_pos isParent] at later
            exact induction later
          · rename_i notParent
            rw [if_neg notParent] at later
            have nextSeen : ¬ hidden (place ++ [piece]) :=
              later _ (mem_soughtFrom_start _ _)
            rw [same.isSome nextSeen, induction later]
      · rfl

/-- A path leads to the same place in trees that agree where its lookup
looks. -/
theorem SameKinds.resolve_iff (same : SameKinds hidden tree other)
    (free : tree.IsLinkFree) (otherFree : other.IsLinkFree)
    (origin : other.origin = tree.origin)
    (avoids : ∀ inner ∈ tree.sought path, ¬ hidden inner) :
    other.resolve path = .ok place ↔ tree.resolve path = .ok place := by
  have isStart := startOf_eq origin path
  have seen : ¬ hidden (tree.startOf path) :=
    avoids _ (mem_soughtFrom_start _ _)
  rw [resolve_eq_ok free, resolve_eq_ok otherFree, isStart, same.isSome seen,
    same.enter_eq avoids]

end Tree

end PackageRename
