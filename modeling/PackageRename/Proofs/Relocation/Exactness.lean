import PackageRename.Proofs.Relocation.Package
import PackageRename.Proofs.Relocation.Views
import PackageRename.Proofs.Tree.Finding

/-!
# What a move does

Everything that a move of a package directory changes, told by what has been in
the tree before: the directory and all in it has the new place, directories have
been made on the way there, and directories that only led to the old place are
gone.
-/

namespace PackageRename

namespace Tree

variable {tree final : Tree} {base : Path} {place old new : Place}

section Moving

variable {source target : List Name}

theorem CanMove.open_above (can : tree.CanMove base place source target)
    (directory : tree.hasDirectory place = true) {other : Place}
    (above : other <+: place ++ target) (outside : ¬ place ++ source <+: other) :
    tree.node? other = none ∨ tree.hasDirectory other = true := by
  rcases reaches_or_ends above with early | ⟨front, isOther, isFront⟩
  · exact .inr (hasDirectory_upward directory early)
  · subst isOther
    rw [List.prefix_append_right_inj] at outside
    exact can.opened front isFront outside

/-- Below the new place there has been nothing but directories that lead to the
old one. -/
theorem CanMove.isDeserted_below (can : tree.CanMove base place source target)
    {rest : List Name} (nonempty : rest ≠ [])
    (present : (tree.node? (place ++ target ++ rest)).isSome)
    (outside : ¬ place ++ source <+: place ++ target ++ rest) :
    tree.IsDeserted place (place ++ source) (place ++ target ++ rest) := by
  simp only [List.append_assoc] at present outside ⊢
  rw [List.prefix_append_right_inj] at outside
  refine ⟨inside_append_iff.mpr (by simp [nonempty]), ?_, ?_⟩
  · rw [List.prefix_append_right_inj]
    exact (can.vacant rest nonempty present).resolve_right outside
  · rintro inner ⟨more, rfl⟩ innerPresent
    simp only [List.append_assoc] at innerPresent ⊢
    rw [List.prefix_append_right_inj, List.prefix_append_right_inj]
    exact can.vacant (rest ++ more) (by simp [nonempty]) innerPresent

variable (isRelocated : tree.HasRelocated place (place ++ source)
  (place ++ target) final)
variable (can : tree.CanMove base place source target)
variable (root : tree.hasDirectory place = true)
variable (directory : tree.hasDirectory (place ++ source) = true)

include isRelocated

theorem HasRelocated.comes {other : Place} {node : Node}
    (isNode : final.node? other = some node) :
    place ++ target <+: other ∨
      (node = .made ∧ other <+: place ++ target ∧
        (tree.node? other = none ∨ place ++ source <+: other ∨
          tree.IsPruned place (place ++ source) (place ++ target) other)) ∨
      (¬ place ++ source <+: other ∧ tree.node? other = some node) := by
  by_cases arrived : place ++ target <+: other
  · exact .inl arrived
  refine .inr ?_
  rcases isRelocated.cases_of_isSome (by rw [isNode]; rfl) with
    ⟨rest, isOther, -⟩ | ⟨above, -⟩ | ⟨outside, same⟩
  · exact absurd ⟨rest, isOther.symm⟩ arrived
  · have different : other ≠ place ++ target :=
      fun same => arrived (same ▸ List.prefix_refl _)
    by_cases anew : place ++ source <+: other ∨
        tree.IsPruned place (place ++ source) (place ++ target) other
    · rw [isRelocated.remade other above different anew] at isNode
      exact .inl ⟨(Option.some.inj isNode).symm, above, .inr anew⟩
    · obtain ⟨outside, spared⟩ := not_or.mp anew
      rw [isRelocated.onWay other above different outside spared] at isNode
      cases before : tree.node? other with
      | none =>
          rw [before] at isNode
          exact .inl ⟨(Option.some.inj isNode).symm, above, .inl rfl⟩
      | some present =>
          rw [before] at isNode
          exact .inr ⟨outside, isNode⟩
  · exact .inr ⟨outside, same.symm.trans isNode⟩

include can directory

include root

theorem HasRelocated.stays {other : Place} {node : Node}
    (outside : ¬ place ++ source <+: other)
    (isNode : tree.node? other = some node)
    (noDirectory : node.isDirectory = false) :
    final.node? other = some node := by
  -- Nothing but a directory leads to the old or to the new place.
  have notDirectory : ¬ tree.hasDirectory other = true := by
    rw [hasDirectory, isNode]
    exact Bool.eq_false_iff.mp noDirectory
  have notAbove : ¬ other <+: place ++ source :=
    fun above => notDirectory (hasDirectory_upward directory above)
  have notOnWay : ¬ other <+: place ++ target := by
    intro onWay
    rcases can.open_above root onWay outside with missing | isDirectory
    · rw [isNode] at missing
      cases missing
    · exact notDirectory isDirectory
  have notBelow : ¬ place ++ target <+: other := by
    rintro ⟨rest, rfl⟩
    by_cases atNew : rest = []
    · exact notOnWay (by rw [atNew, List.append_nil])
    · exact notAbove (can.isDeserted_below atNew (by rw [isNode]; rfl)
        outside).above
  rw [isRelocated.kept other notBelow notOnWay outside
    fun isDeserted => notAbove isDeserted.above]
  exact isNode

end Moving

end Tree

end PackageRename
