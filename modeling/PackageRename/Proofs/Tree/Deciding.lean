import Mathlib.Data.List.Infix
import PackageRename.Proofs.Tree.Based
import PackageRename.Proofs.Tree.Directories
import PackageRename.Tree.Edit

/-!
# Conditions that can be evaluated

What holds at every place of a tree holds of all entries of the list of its
nodes, and a lookup comes through finitely many places.  So conditions on all
places can be evaluated for a given tree.
-/

namespace PackageRename

/-- The file that a node is, if it is one. -/
def Node.file? : Node → Option File
  | file present => some present
  | _ => none

namespace Subtree

theorem mem_entryNodes {front : Place} {entries : Entries} {name : Name}
    {inner : Subtree} (found : entries.lookup name = some inner)
    {entry : Place × Node}
    (member : entry ∈ nodesFrom (front ++ [name]) inner) :
    entry ∈ entryNodes front entries := by
  induction entries with
  | nil => cases found
  | cons head rest induction =>
      obtain ⟨first, held⟩ := head
      rw [entryNodes, List.mem_append]
      by_cases same : name = first
      · subst same
        rw [List.lookup_cons_self, Option.some.injEq] at found
        subst found
        exact .inl member
      · have unequal : (name == first) = false := by simpa using same
        rw [List.lookup_cons, unequal] at found
        exact .inr (induction found)

theorem mem_nodesFrom (front : Place) {subtree inner : Subtree} {place : Place}
    (found : subtree.at? place = some inner) :
    (front ++ place, inner.node) ∈ nodesFrom front subtree := by
  induction place generalizing subtree front with
  | nil =>
      rw [at?_nil, Option.some.injEq] at found
      subst found
      rw [List.append_nil]
      cases subtree with
      | directory entries => exact List.mem_cons_self
      | file present => exact List.mem_singleton_self _
      | link target share => exact List.mem_singleton_self _
  | cons name rest induction =>
      rw [at?_cons] at found
      obtain ⟨held, isHeld, isInner⟩ := Option.bind_eq_some_iff.mp found
      have member := induction (front ++ [name]) isInner
      rw [List.append_assoc, List.singleton_append] at member
      cases subtree with
      | directory entries =>
          exact List.mem_cons_of_mem _ (mem_entryNodes isHeld member)
      | file present => cases isHeld
      | link target share => cases isHeld

end Subtree

namespace Tree

variable {tree : Tree} {path : Path} {place : Place} {node : Node}

theorem mem_nodes (isNode : tree.node? place = some node)
    (nonempty : place ≠ []) : (place, node) ∈ tree.nodes := by
  rw [node?, subtree?] at isNode
  obtain ⟨inner, found, isInner⟩ := Option.map_eq_some_iff.mp isNode
  have member := Subtree.mem_nodesFrom [] found
  rw [isInner, List.nil_append, top, Subtree.nodesFrom] at member
  rcases List.mem_cons.mp member with atTop | below
  · exact absurd (congrArg Prod.fst atTop) nonempty
  · exact below

theorem linkless_of_nodes
    (unlinked : ∀ entry ∈ tree.nodes, entry.2.kind ≠ .link) (place : Place)
    (target : Path) (share : Option Nat) :
    tree.node? place ≠ some (.link target share) := by
  intro isLink
  have nonempty : place ≠ [] := by
    intro empty
    rw [empty, node?_nil] at isLink
    cases isLink
  exact unlinked _ (mem_nodes isLink nonempty) rfl

/-- A tree is free of links if no entry is one or shares its file. -/
theorem isLinkFree_of_nodes
    (unlinked : ∀ entry ∈ tree.nodes,
      entry.2.kind ≠ .link ∧ entry.2.share? = none) : tree.IsLinkFree := by
  constructor
  · exact linkless_of_nodes fun entry member => (unlinked entry member).1
  · intro first second file other isFirst isSecond shared same
    have nonempty : first ≠ [] := by
      intro empty
      rw [empty, node?_nil] at isFirst
      cases isFirst
    have unshared : file.share = none := (unlinked _ (mem_nodes isFirst nonempty)).2
    rw [unshared] at shared
    cases shared

theorem hasLegalNames_of_nodes
    (legal : ∀ entry ∈ tree.nodes, ∀ name ∈ entry.1, name.IsLegal) :
    tree.HasLegalNames := by
  intro place present name member
  obtain ⟨node, isNode⟩ := Option.isSome_iff_exists.mp present
  exact legal _ (mem_nodes isNode (List.ne_nil_of_mem member)) name member

/-- The places that a lookup comes through, one for each of its prefixes. -/
def passed (tree : Tree) (path : Path) : List Place :=
  path.pieces.inits.filterMap fun front => (tree.follow path front).toOption

theorem mem_passed (passes : tree.Passes path place) :
    place ∈ tree.passed path := by
  obtain ⟨front, isPrefix, isReached⟩ := passes
  refine List.mem_filterMap.mpr ⟨front, (List.mem_inits _ _).mpr isPrefix, ?_⟩
  rw [isReached]
  rfl

instance (outer inner : Place) : Decidable (Inside outer inner) :=
  inferInstanceAs (Decidable (_ ∧ _))

instance (first second : Place) : Decidable (Apart first second) :=
  inferInstanceAs (Decidable (_ ∧ _))

/-- The tree with more files, and directories on the way to them. -/
def withFiles (tree : Tree) (files : List (String × String)) : Tree :=
  tree.edit ⟨[], files.map fun (path, text) =>
    (Path.ofString path, .file (Utf8.encode text) File.ownerMode)⟩

/-- The tree that holds files with the given texts, and directories on the way
to them. -/
def holding (files : List (String × String)) : Tree :=
  (Tree.empty []).withFiles files

/-- A place whose absolute path leaves little room for more. -/
def farPlace : Place :=
  List.replicate 16 (List.replicate 253 0x64)

/-- A tree whose paths start at that place. -/
def farTree : Tree :=
  (farPlace.foldl (fun (tree, above) name =>
    (tree.insert above name .made, above ++ [name]))
    (Tree.empty farPlace, [])).1

end Tree

end PackageRename
