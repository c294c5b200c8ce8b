import PackageRename.Tree.Node

/-!
# Subtrees

What stands at a place together with all that lies below it.  A directory lists
its entries in ascending order of their names, each name once, so that two
subtrees that look the same everywhere are the same.
-/

namespace PackageRename

inductive Subtree where
  | directory (mode : Nat) (entries : List (Name × Subtree))
  | file (file : File)
  | link (target : Path) (share : Option Nat)

/-- Whether one name comes before another is decided byte by byte. -/
instance Name.decidableLt : (first second : Name) → Decidable (first < second)
  | _, [] => .isFalse (List.not_lt_nil _)
  | [], _ :: _ => .isTrue (List.nil_lt_cons _ _)
  | byte :: rest, other :: others =>
      if smaller : byte < other then
        .isTrue (List.cons_lt_cons_iff.mpr (.inl smaller))
      else if same : byte = other then
        match Name.decidableLt rest others with
        | .isTrue before =>
            .isTrue (List.cons_lt_cons_iff.mpr (.inr ⟨same, before⟩))
        | .isFalse notBefore =>
            .isFalse fun less =>
              (List.cons_lt_cons_iff.mp less).elim smaller fun tails =>
                notBefore tails.2
      else
        .isFalse fun less =>
          (List.cons_lt_cons_iff.mp less).elim smaller fun tails =>
            same tails.1

/-- The entries of a directory with what lies below them. -/
abbrev Entries := List (Name × Subtree)

namespace Entries

/-- Give a name to a subtree, in place of what had the name before. -/
def set (name : Name) (inner : Subtree) : Entries → Entries
  | [] => [(name, inner)]
  | (key, present) :: rest =>
      if key == name then (name, inner) :: rest
      else if name < key then (name, inner) :: (key, present) :: rest
      else (key, present) :: set name inner rest

def erase (name : Name) (entries : Entries) : Entries :=
  entries.filter fun entry => entry.1 != name

def Ascending (entries : Entries) : Prop :=
  entries.Pairwise fun first second => first.1 < second.1

/-- Change the entries of a directory some way below.  Without such a directory
nothing changes. -/
def changeAt (change : Entries → Entries) : Place → Entries → Entries
  | [], entries => change entries
  | name :: rest, entries =>
      match entries.lookup name with
      | some (.directory mode inner) =>
          entries.set name (.directory mode (changeAt change rest inner))
      | _ => entries

end Entries

namespace Subtree

def ofNode : Node → Subtree
  | .directory mode => directory mode []
  | .file present => file present
  | .link target share => link target share

def node : Subtree → Node
  | directory mode _ => .directory mode
  | file present => .file present
  | link target share => .link target share

def entries : Subtree → Entries
  | directory _ entries => entries
  | file _ => []
  | link _ _ => []

/-- The subtree some way below. -/
def at? : Place → Subtree → Option Subtree
  | [], subtree => some subtree
  | name :: rest, subtree => (subtree.entries.lookup name).bind (at? rest)

mutual

/-- Change files where they stand.  Names, directories and links stay. -/
def mapFiles (change : File → File) : Subtree → Subtree
  | directory mode entries => directory mode (mapEntries change entries)
  | file present => file (change present)
  | link target share => link target share

def mapEntries (change : File → File) :
    List (Name × Subtree) → List (Name × Subtree)
  | [] => []
  | (name, inner) :: rest =>
      (name, mapFiles change inner) :: mapEntries change rest

end

mutual

/-- All nodes of a subtree with their places, where the subtree stands at a
given place. -/
def nodesFrom (place : Place) : Subtree → List (Place × Node)
  | directory mode entries =>
      (place, .directory mode) :: entryNodes place entries
  | file present => [(place, .file present)]
  | link target share => [(place, .link target share)]

def entryNodes (place : Place) : List (Name × Subtree) → List (Place × Node)
  | [] => []
  | (name, inner) :: rest =>
      nodesFrom (place ++ [name]) inner ++ entryNodes place rest

end

/-- Every directory lists its entries in order. -/
inductive Ordered : Subtree → Prop
  | directory {mode : Nat} {entries : Entries} (ascending : entries.Ascending)
      (inner : ∀ entry ∈ entries, Ordered entry.2) :
      Ordered (.directory mode entries)
  | file (present : File) : Ordered (.file present)
  | link (target : Path) (share : Option Nat) : Ordered (.link target share)

end Subtree

/-! ### Order is kept -/

private theorem Name.lt_of_not_lt {first second : Name}
    (notBefore : ¬ first < second) (different : second ≠ first) :
    second < first := by
  have weak : second ≤ first := notBefore
  exact (List.le_iff_lt_or_eq.mp weak).resolve_right different

namespace Entries

theorem mem_set {name : Name} {inner : Subtree} {entries : Entries}
    {entry : Name × Subtree} (member : entry ∈ entries.set name inner) :
    entry = (name, inner) ∨ entry ∈ entries := by
  induction entries with
  | nil => exact Or.inl (List.mem_singleton.mp member)
  | cons head rest induction =>
      obtain ⟨key, present⟩ := head
      rw [set] at member
      split at member
      · rcases List.mem_cons.mp member with new | old
        · exact Or.inl new
        · exact Or.inr (List.mem_cons_of_mem _ old)
      · split at member
        · exact List.mem_cons.mp member
        · rcases List.mem_cons.mp member with first | later
          · exact Or.inr (first ▸ List.mem_cons_self)
          · exact (induction later).imp_right (List.mem_cons_of_mem _)

theorem Ascending.set {name : Name} {inner : Subtree} {entries : Entries}
    (ascending : entries.Ascending) : (entries.set name inner).Ascending := by
  induction entries with
  | nil => exact List.pairwise_singleton _ _
  | cons head rest induction =>
      obtain ⟨key, present⟩ := head
      obtain ⟨above, restAscending⟩ := List.pairwise_cons.mp ascending
      rw [Entries.set]
      split
      next same =>
        rw [beq_iff_eq] at same
        subst same
        exact List.pairwise_cons.mpr ⟨above, restAscending⟩
      next different =>
        split
        next before =>
          refine List.pairwise_cons.mpr ⟨?_, ascending⟩
          intro entry member
          rcases List.mem_cons.mp member with first | later
          · exact first ▸ before
          · exact List.lt_trans before (above entry later)
        next notBefore =>
          refine List.pairwise_cons.mpr ⟨?_, induction restAscending⟩
          intro entry member
          rcases mem_set member with new | old
          · rw [beq_iff_eq] at different
            exact new ▸ Name.lt_of_not_lt notBefore different
          · exact above entry old

theorem Ascending.erase {name : Name} {entries : Entries}
    (ascending : entries.Ascending) : (entries.erase name).Ascending :=
  List.Pairwise.filter _ ascending

theorem mem_of_lookup {name : Name} {inner : Subtree}
    {entries : Entries} (found : entries.lookup name = some inner) :
    (name, inner) ∈ entries := by
  rcases List.lookup_eq_some_iff.mp found with ⟨before, after, split, _⟩
  rw [split]
  exact List.mem_append_right _ List.mem_cons_self

end Entries

namespace Subtree

theorem Ordered.ofNode (node : Node) : (ofNode node).Ordered := by
  cases node with
  | directory mode =>
      exact .directory List.Pairwise.nil
        (fun _ member => absurd member List.not_mem_nil)
  | file present => exact .file present
  | link target share => exact .link target share

theorem Ordered.ascending {mode : Nat} {entries : Entries}
    (ordered : (Subtree.directory mode entries).Ordered) : entries.Ascending := by
  cases ordered with
  | directory ascending _ => exact ascending

theorem Ordered.inner {mode : Nat} {entries : Entries}
    (ordered : (Subtree.directory mode entries).Ordered) :
    ∀ entry ∈ entries, entry.2.Ordered := by
  cases ordered with
  | directory _ inner => exact inner

theorem Ordered.lookup {subtree : Subtree} (ordered : subtree.Ordered)
    {name : Name} {inner : Subtree}
    (found : subtree.entries.lookup name = some inner) : inner.Ordered := by
  cases ordered with
  | directory _ innerOrdered =>
      exact innerOrdered _ (Entries.mem_of_lookup found)
  | file _ => cases found
  | link _ _ => cases found

theorem Ordered.at? {subtree inner : Subtree} (ordered : subtree.Ordered)
    {place : Place} (found : subtree.at? place = some inner) :
    inner.Ordered := by
  induction place generalizing subtree with
  | nil =>
      cases found
      exact ordered
  | cons name rest induction =>
      obtain ⟨next, isNext, below⟩ := Option.bind_eq_some_iff.mp found
      exact induction (ordered.lookup isNext) below

theorem Ordered.set {mode : Nat} {entries : Entries}
    (ordered : (Subtree.directory mode entries).Ordered) {name : Name}
    {inner : Subtree} (innerOrdered : inner.Ordered) :
    (Subtree.directory mode (entries.set name inner)).Ordered := by
  refine .directory ordered.ascending.set ?_
  intro entry member
  rcases Entries.mem_set member with new | old
  · exact new ▸ innerOrdered
  · exact ordered.inner entry old

theorem Ordered.erase {mode : Nat} {entries : Entries}
    (ordered : (Subtree.directory mode entries).Ordered) {name : Name} :
    (Subtree.directory mode (entries.erase name)).Ordered :=
  .directory ordered.ascending.erase fun entry member =>
    ordered.inner entry (List.mem_filter.mp member).1

theorem Ordered.changeAt {change : Entries → Entries}
    (keeps : ∀ {mode : Nat} {entries : Entries},
      (Subtree.directory mode entries).Ordered →
      (Subtree.directory mode (change entries)).Ordered)
    (place : Place) {mode : Nat} {entries : Entries}
    (ordered : (Subtree.directory mode entries).Ordered) :
    (Subtree.directory mode (entries.changeAt change place)).Ordered := by
  induction place generalizing mode entries with
  | nil => exact keeps ordered
  | cons name rest induction =>
      rw [Entries.changeAt]
      split
      next innerMode inner found =>
        exact ordered.set
          (induction (ordered.inner _ (Entries.mem_of_lookup found)))
      next => exact ordered

private theorem mem_mapEntries {change : File → File} {entries : Entries}
    {entry : Name × Subtree} (member : entry ∈ mapEntries change entries) :
    ∃ present ∈ entries, entry = (present.1, mapFiles change present.2) := by
  induction entries with
  | nil => cases member
  | cons head rest induction =>
      obtain ⟨name, inner⟩ := head
      rcases List.mem_cons.mp member with first | later
      · exact ⟨_, List.mem_cons_self, first⟩
      · obtain ⟨present, inRest, isEntry⟩ := induction later
        exact ⟨present, List.mem_cons_of_mem _ inRest, isEntry⟩

private theorem ascending_mapEntries (change : File → File)
    {entries : Entries} (ascending : entries.Ascending) :
    Entries.Ascending (mapEntries change entries) := by
  induction entries with
  | nil => exact List.Pairwise.nil
  | cons head rest induction =>
      obtain ⟨name, inner⟩ := head
      obtain ⟨above, restAscending⟩ := List.pairwise_cons.mp ascending
      refine List.pairwise_cons.mpr ⟨?_, induction restAscending⟩
      intro entry member
      obtain ⟨present, inRest, isEntry⟩ := mem_mapEntries member
      exact isEntry ▸ above present inRest

theorem Ordered.mapFiles (change : File → File) {subtree : Subtree}
    (ordered : subtree.Ordered) : (subtree.mapFiles change).Ordered := by
  induction ordered with
  | directory ascending _ induction =>
      refine .directory (ascending_mapEntries change ascending) ?_
      intro entry member
      obtain ⟨present, inEntries, isEntry⟩ := mem_mapEntries member
      exact isEntry ▸ induction present inEntries
  | file present => exact .file (change present)
  | link target share => exact .link target share

end Subtree

end PackageRename
