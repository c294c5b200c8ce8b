import PackageRename.Tree.Basic

/-!
# The primitives seen through `node?`

What each primitive change does to the node at every place, and that a tree is
determined by its origin and its nodes.
-/

namespace PackageRename

/-! ### Entries -/

namespace Entries

@[simp]
theorem lookup_set_self (name : Name) (inner : Subtree) (entries : Entries) :
    (entries.set name inner).lookup name = some inner := by
  induction entries with
  | nil => simp [set]
  | cons head rest induction =>
      obtain ⟨key, present⟩ := head
      rw [set]
      split
      next => simp
      next different =>
        split
        next => simp
        next =>
          have unequal : (name == key) = false := by
            rw [beq_eq_false_iff_ne]
            exact fun same => different (beq_iff_eq.mpr same.symm)
          rw [List.lookup_cons, unequal]
          exact induction

theorem lookup_set_of_ne {name other : Name} (different : other ≠ name)
    (inner : Subtree) (entries : Entries) :
    (entries.set name inner).lookup other = entries.lookup other := by
  have unequal : (other == name) = false := by simpa using different
  induction entries with
  | nil => simp [set, List.lookup_cons, unequal]
  | cons head rest induction =>
      obtain ⟨key, present⟩ := head
      rw [set]
      split
      next same =>
        rw [beq_iff_eq] at same
        subst same
        simp [List.lookup_cons, unequal]
      next =>
        split
        next => rw [List.lookup_cons, unequal]
        next => rw [List.lookup_cons, List.lookup_cons, induction]

theorem lookup_erase (name other : Name) (entries : Entries) :
    (entries.erase name).lookup other =
      if other = name then none else entries.lookup other := by
  induction entries with
  | nil => simp [erase]
  | cons head rest induction =>
      obtain ⟨key, present⟩ := head
      rw [erase] at induction
      by_cases kept : key = name
      · subst kept
        rw [erase, List.filter_cons_of_neg (by simp), induction,
          List.lookup_cons]
        by_cases same : other = key
        · simp [same]
        · have unequal : (other == key) = false := by simpa using same
          simp [same, unequal]
      · rw [erase, List.filter_cons_of_pos (by simpa using kept),
          List.lookup_cons, List.lookup_cons, induction]
        by_cases same : other = key
        · subst same
          simp [kept]
        · have unequal : (other == key) = false := by simpa using same
          simp [unequal]

theorem lookup_mapEntries (change : File → File) (name : Name)
    (entries : Entries) :
    (Subtree.mapEntries change entries).lookup name =
      (entries.lookup name).map (Subtree.mapFiles change) := by
  induction entries with
  | nil => rfl
  | cons head rest induction =>
      obtain ⟨key, present⟩ := head
      rw [Subtree.mapEntries, List.lookup_cons, List.lookup_cons, induction]
      cases name == key <;> rfl

private theorem lookup_of_below {name : Name} {entries : Entries}
    (above : ∀ entry ∈ entries, name < entry.1) :
    entries.lookup name = none := by
  rw [List.lookup_eq_none_iff]
  intro entry member
  have before := above entry member
  rw [bne_iff_ne]
  intro same
  rw [same] at before
  exact List.lt_irrefl _ before

/-- Entries in order are determined by what their names are given to. -/
theorem eq_of_lookup {left right : Entries} (leftAscending : left.Ascending)
    (rightAscending : right.Ascending)
    (same : ∀ name, left.lookup name = right.lookup name) : left = right := by
  induction left generalizing right with
  | nil =>
      cases right with
      | nil => rfl
      | cons head rest =>
          obtain ⟨key, inner⟩ := head
          have found := same key
          simp at found
  | cons head rest induction =>
      obtain ⟨key, inner⟩ := head
      obtain ⟨above, restAscending⟩ := List.pairwise_cons.mp leftAscending
      cases right with
      | nil =>
          have found := same key
          simp at found
      | cons other others =>
          obtain ⟨otherKey, otherInner⟩ := other
          obtain ⟨otherAbove, othersAscending⟩ :=
            List.pairwise_cons.mp rightAscending
          have keys : key = otherKey := by
            apply Classical.byContradiction
            intro different
            have inOthers : (key, inner) ∈ others := by
              have found := same key
              have unequal : (key == otherKey) = false := by
                simpa using different
              rw [List.lookup_cons_self, List.lookup_cons, unequal] at found
              exact mem_of_lookup found.symm
            have inRest : (otherKey, otherInner) ∈ rest := by
              have found := same otherKey
              have unequal : (otherKey == key) = false := by
                simpa using fun same => different same.symm
              rw [List.lookup_cons_self, List.lookup_cons, unequal] at found
              exact mem_of_lookup found
            exact List.lt_irrefl _
              (List.lt_trans (otherAbove _ inOthers) (above _ inRest))
          subst keys
          have inners : inner = otherInner := by
            have found := same key
            rw [List.lookup_cons_self, List.lookup_cons_self] at found
            exact Option.some.inj found
          subst inners
          rw [induction restAscending othersAscending]
          intro name
          by_cases isKey : name = key
          · subst isKey
            rw [lookup_of_below above, lookup_of_below otherAbove]
          · have found := same name
            have unequal : (name == key) = false := by simpa using isKey
            rw [List.lookup_cons, List.lookup_cons, unequal] at found
            exact found

end Entries

/-! ### Subtrees -/

namespace Subtree

@[simp]
theorem node_ofNode (node : Node) : (ofNode node).node = node := by
  cases node <;> rfl

@[simp]
theorem at?_nil (subtree : Subtree) : subtree.at? [] = some subtree := rfl

theorem at?_cons (subtree : Subtree) (name : Name) (rest : Place) :
    subtree.at? (name :: rest) =
      (subtree.entries.lookup name).bind (at? rest) := rfl

theorem at?_append (subtree : Subtree) (front back : Place) :
    subtree.at? (front ++ back) = (subtree.at? front).bind (at? back) := by
  induction front generalizing subtree with
  | nil => rfl
  | cons name rest induction =>
      rw [List.cons_append, at?_cons, at?_cons, Option.bind_assoc]
      congr 1
      funext inner
      exact induction inner

theorem at?_ofNode (node : Node) {place : Place} (below : place ≠ []) :
    (ofNode node).at? place = none := by
  cases place with
  | nil => exact absurd rfl below
  | cons name rest => cases node <;> rfl

theorem at?_mapFiles (change : File → File) (subtree : Subtree)
    (place : Place) :
    (subtree.mapFiles change).at? place =
      (subtree.at? place).map (mapFiles change) := by
  induction place generalizing subtree with
  | nil => rfl
  | cons name rest induction =>
      cases subtree with
      | directory mode entries =>
          rw [at?_cons, at?_cons, mapFiles]
          simp only [Subtree.entries, Entries.lookup_mapEntries]
          cases entries.lookup name with
          | none => rfl
          | some inner => exact induction inner
      | file present => rfl
      | link target share => rfl

theorem node_mapFiles (change : File → File) (subtree : Subtree) :
    (subtree.mapFiles change).node = subtree.node.mapFile change := by
  cases subtree <;> rfl

theorem eq_directory_of_node {subtree : Subtree} {mode : Nat}
    (isDirectory : subtree.node = .directory mode) :
    subtree = directory mode subtree.entries := by
  cases subtree with
  | directory present entries =>
      cases isDirectory
      rfl
  | file present => cases isDirectory
  | link target share => cases isDirectory

/-- Places below a changed directory. -/
theorem at?_changeAt {change : Entries → Entries} {parent : Place}
    {top mode : Nat} {entries inner : Entries}
    (found : (directory top entries).at? parent = some (directory mode inner))
    (rest : Place) :
    (directory top (entries.changeAt change parent)).at? (parent ++ rest) =
      (directory mode (change inner)).at? rest := by
  induction parent generalizing top entries with
  | nil =>
      cases found
      rfl
  | cons name more induction =>
      rw [at?_cons] at found
      obtain ⟨next, isNext, below⟩ := Option.bind_eq_some_iff.mp found
      cases next with
      | directory nextMode nextEntries =>
          simp only [Subtree.entries] at isNext
          rw [Entries.changeAt, isNext]
          simp only [List.cons_append, at?_cons, Subtree.entries,
            Entries.lookup_set_self, Option.bind_some]
          exact induction below
      | file present =>
          cases more with
          | nil => cases below
          | cons _ _ => cases below
      | link target share =>
          cases more with
          | nil => cases below
          | cons _ _ => cases below

/-- Places elsewhere than below the directory to be changed. -/
theorem node_changeAt {change : Entries → Entries} {parent place : Place}
    (outside : ¬ parent <+: place) (mode : Nat) (entries : Entries) :
    ((directory mode (entries.changeAt change parent)).at? place).map node =
      ((directory mode entries).at? place).map node := by
  induction parent generalizing mode entries place with
  | nil => exact absurd List.nil_prefix outside
  | cons name rest induction =>
      cases place with
      | nil => rfl
      | cons first more =>
          rw [Entries.changeAt]
          split
          next innerMode inner found =>
            simp only [at?_cons, Subtree.entries]
            by_cases same : first = name
            · subst same
              rw [Entries.lookup_set_self, found]
              exact induction
                (fun below => outside (List.cons_prefix_cons.mpr ⟨rfl, below⟩))
                innerMode inner
            · rw [Entries.lookup_set_of_ne same]
          next => rfl

/-- Without a directory to be changed nothing changes. -/
theorem node_changeAt_of_missing {change : Entries → Entries} {parent : Place}
    {mode : Nat} {entries : Entries}
    (missing : ∀ present,
      ((directory mode entries).at? parent).map node ≠ some (.directory present))
    (place : Place) :
    ((directory mode (entries.changeAt change parent)).at? place).map node =
      ((directory mode entries).at? place).map node := by
  induction parent generalizing mode entries place with
  | nil => exact absurd rfl (missing mode)
  | cons name rest induction =>
      cases place with
      | nil => rfl
      | cons first more =>
          rw [Entries.changeAt]
          split
          next innerMode inner found =>
            simp only [at?_cons, Subtree.entries]
            by_cases same : first = name
            · subst same
              rw [Entries.lookup_set_self, found]
              simp only [at?_cons, Subtree.entries, found] at missing
              exact induction missing more
            · rw [Entries.lookup_set_of_ne same]
          next => rfl

/-- Subtrees in order that hold the same nodes are the same. -/
theorem eq_of_node {left right : Subtree} (leftOrdered : left.Ordered)
    (rightOrdered : right.Ordered)
    (same : ∀ place, (left.at? place).map node = (right.at? place).map node) :
    left = right := by
  induction leftOrdered generalizing right with
  | @directory mode entries ascending _ induction =>
      have top := same []
      simp only [at?_nil, Option.map_some, Option.some.injEq] at top
      have isDirectory := eq_directory_of_node top.symm
      rw [isDirectory] at rightOrdered same ⊢
      congr 1
      refine Entries.eq_of_lookup ascending rightOrdered.ascending ?_
      intro name
      have below : ∀ place,
          ((entries.lookup name).bind (at? place)).map node =
            ((right.entries.lookup name).bind (at? place)).map node :=
        fun place => same (name :: place)
      generalize isLeft : entries.lookup name = leftInner at below ⊢
      generalize isRight : right.entries.lookup name = rightInner at below ⊢
      cases leftInner with
      | none =>
          cases rightInner with
          | none => rfl
          | some found => cases below []
      | some found =>
          cases rightInner with
          | none => cases below []
          | some other =>
              exact congrArg some (induction _ (Entries.mem_of_lookup isLeft)
                (rightOrdered.lookup isRight) below)
  | file present =>
      have top := same []
      cases right <;> simp_all [node]
  | link target share =>
      have top := same []
      cases right <;> simp_all [node]

end Subtree

/-! ### Trees -/

namespace Tree

@[simp]
theorem node?_nil (tree : Tree) : tree.node? [] = some .made := rfl

/-- A directory has some mode. -/
theorem hasDirectory_iff_node? {tree : Tree} {place : Place} :
    tree.hasDirectory place = true ↔
      ∃ mode, tree.node? place = some (.directory mode) := by
  rw [hasDirectory]
  cases tree.node? place with
  | none => simp
  | some node => cases node <;> simp [Node.isDirectory]

theorem hasDirectory_iff {tree : Tree} {place : Place} :
    tree.hasDirectory place = true ↔
      ∃ mode entries, tree.subtree? place = some (.directory mode entries) := by
  rw [hasDirectory_iff_node?]
  refine exists_congr fun mode => ?_
  rw [node?, Option.map_eq_some_iff]
  constructor
  · rintro ⟨subtree, found, isDirectory⟩
    exact ⟨_, by rw [found, ← Subtree.eq_directory_of_node isDirectory]⟩
  · rintro ⟨entries, found⟩
    exact ⟨_, found, rfl⟩

/-- Two trees with the same origin and the same nodes are the same. -/
theorem eq_of_node? {left right : Tree} (origin : left.origin = right.origin)
    (same : ∀ place, left.node? place = right.node? place) : left = right := by
  have tops := Subtree.eq_of_node left.ordered right.ordered same
  obtain ⟨_, _, _⟩ := left
  obtain ⟨_, _, _⟩ := right
  cases tops
  cases origin
  rfl

/-- Nothing lies at or below a missing place. -/
theorem node?_append_of_missing {tree : Tree} {place : Place}
    (missing : tree.node? place = none) (rest : Place) :
    tree.node? (place ++ rest) = none := by
  rw [node?, Option.map_eq_none_iff] at missing ⊢
  rw [subtree?, Subtree.at?_append]
  rw [subtree?] at missing
  rw [missing]
  rfl

/-- A node other than a directory has nothing below it. -/
theorem node?_append_of_not_directory {tree : Tree} {place rest : Place}
    (closed : tree.hasDirectory place = false) (below : rest ≠ []) :
    tree.node? (place ++ rest) = none := by
  rw [node?, Option.map_eq_none_iff, subtree?, Subtree.at?_append]
  rw [hasDirectory, node?, subtree?] at closed
  cases found : tree.top.at? place with
  | none => rfl
  | some subtree =>
      rw [found] at closed
      cases rest with
      | nil => exact absurd rfl below
      | cons name more =>
          cases subtree with
          | directory mode entries => cases closed
          | file present => rfl
          | link target share => rfl

/-- Below the name there is what was grafted, elsewhere what was there. -/
theorem node?_graft {tree : Tree} {parent : Place} {name : Name}
    {inner : Subtree} {innerOrdered : inner.Ordered}
    (directory : tree.hasDirectory parent = true) (place : Place) :
    (tree.graft parent name inner innerOrdered).node? place =
      if parent ++ [name] <+: place then
        (inner.at? (place.drop (parent ++ [name]).length)).map Subtree.node
      else tree.node? place := by
  obtain ⟨mode, entries, found⟩ := hasDirectory_iff.mp directory
  by_cases below : parent <+: place
  · obtain ⟨rest, isPlace⟩ := below
    subst isPlace
    rw [node?, subtree?, top, graft, Subtree.at?_changeAt found, node?,
      subtree?, Subtree.at?_append]
    rw [subtree?] at found
    rw [found]
    simp only [List.prefix_append_right_inj, Option.bind_some]
    cases rest with
    | nil => simp [Subtree.node]
    | cons first more =>
        rw [Subtree.at?_cons, Subtree.at?_cons]
        simp only [Subtree.entries]
        by_cases same : first = name
        · subst same
          rw [if_pos (by simp), Entries.lookup_set_self]
          simp
        · rw [if_neg (by simpa using fun equal => same equal.symm),
            Entries.lookup_set_of_ne same]
  · rw [if_neg fun longer => below ((List.prefix_append _ _).trans longer)]
    exact Subtree.node_changeAt below _ _

theorem node?_insert {tree : Tree} {parent : Place} {name : Name}
    {node : Node} (directory : tree.hasDirectory parent = true)
    (missing : tree.node? (parent ++ [name]) = none) (place : Place) :
    (tree.insert parent name node).node? place =
      if place = parent ++ [name] then some node else tree.node? place := by
  rw [insert, if_pos (by rw [missing]; rfl), node?_graft directory]
  by_cases below : parent ++ [name] <+: place
  · obtain ⟨rest, isPlace⟩ := below
    subst isPlace
    rw [if_pos (List.prefix_append _ _), List.drop_left]
    cases rest with
    | nil => simp
    | cons first more =>
        rw [if_neg (by simp), Subtree.at?_ofNode node (List.cons_ne_nil _ _),
          node?_append_of_missing missing]
        rfl
  · rw [if_neg below, if_neg]
    intro same
    exact below (same ▸ List.prefix_refl _)

/-- A replaced node takes all that was below it along. -/
theorem node?_replace {tree : Tree} {parent : Place} {name : Name}
    {node : Node} (directory : tree.hasDirectory parent = true)
    (place : Place) :
    (tree.replace (parent ++ [name]) node).node? place =
      if place = parent ++ [name] then some node
      else if parent ++ [name] <+: place then none
      else tree.node? place := by
  have isGraft : tree.replace (parent ++ [name]) node =
      tree.graft parent name (.ofNode node) (.ofNode node) := by
    simp [replace]
  rw [isGraft, node?_graft directory]
  by_cases below : parent ++ [name] <+: place
  · obtain ⟨rest, isPlace⟩ := below
    subst isPlace
    rw [if_pos (List.prefix_append _ _), List.drop_left]
    cases rest with
    | nil => simp
    | cons first more =>
        rw [if_neg (by simp), if_pos (List.prefix_append _ _),
          Subtree.at?_ofNode node (List.cons_ne_nil _ _)]
        rfl
  · rw [if_neg below, if_neg below, if_neg]
    intro same
    exact below (same ▸ List.prefix_refl _)

theorem node?_remove {tree : Tree} {removed : Place} (inside : removed ≠ [])
    (place : Place) :
    (tree.remove removed).node? place =
      if removed <+: place then none else tree.node? place := by
  rcases List.eq_nil_or_concat removed with atTop | ⟨parent, name, isRemoved⟩
  · exact absurd atTop inside
  · rw [List.concat_eq_append] at isRemoved
    subst isRemoved
    have isChange : (tree.remove (parent ++ [name])).entries =
        tree.entries.changeAt (Entries.erase name) parent := by
      simp [remove]
    rw [node?, subtree?, top, isChange]
    by_cases directory : tree.hasDirectory parent = true
    · obtain ⟨mode, entries, found⟩ := hasDirectory_iff.mp directory
      by_cases below : parent <+: place
      · obtain ⟨rest, isPlace⟩ := below
        subst isPlace
        rw [Subtree.at?_changeAt found, node?, subtree?, Subtree.at?_append]
        rw [subtree?] at found
        rw [found]
        simp only [List.prefix_append_right_inj, Option.bind_some]
        cases rest with
        | nil => simp [Subtree.node]
        | cons first more =>
            rw [Subtree.at?_cons, Subtree.at?_cons]
            simp only [Subtree.entries, Entries.lookup_erase]
            by_cases same : first = name
            · subst same
              simp
            · rw [if_neg same,
                if_neg (by simpa using fun equal => same equal.symm)]
      · rw [if_neg fun longer => below ((List.prefix_append _ _).trans longer)]
        exact Subtree.node_changeAt below _ _
    · have missing : ∀ mode, tree.node? parent ≠ some (.directory mode) :=
        fun mode found => directory (hasDirectory_iff_node?.mpr ⟨mode, found⟩)
      rw [Subtree.node_changeAt_of_missing missing]
      by_cases below : parent ++ [name] <+: place
      · obtain ⟨rest, isPlace⟩ := below
        subst isPlace
        rw [if_pos (List.prefix_append _ _), List.append_assoc]
        exact node?_append_of_not_directory (Bool.eq_false_iff.mpr directory)
          (by simp)
      · rw [if_neg below]
        rfl

/-- Places below the target of a move hold what was below its source, places
below the source hold nothing, and all others are as they were. -/
theorem node?_move {tree : Tree} {old parent : Place} {name : Name}
    (inside : old ≠ []) (present : (tree.node? old).isSome = true)
    (directory : tree.hasDirectory parent = true)
    (apart : ¬ old <+: parent) (place : Place) :
    (tree.move old parent name).node? place =
      if parent ++ [name] <+: place then
        tree.node? (old ++ place.drop (parent ++ [name]).length)
      else if old <+: place then none
      else tree.node? place := by
  have kept : (tree.remove old).hasDirectory parent = true := by
    rw [hasDirectory, node?_remove inside, if_neg apart]
    exact directory
  rw [move]
  split
  next missing =>
    rw [node?, missing] at present
    cases present
  next inner found =>
    rw [node?_graft kept, node?_remove inside]
    simp only [node?, subtree?] at found ⊢
    rw [Subtree.at?_append, found]
    rfl

theorem node?_mapFiles (tree : Tree) (change : File → File) (place : Place) :
    (tree.mapFiles change).node? place =
      (tree.node? place).map (Node.mapFile change) := by
  have isTop : (tree.mapFiles change).top = tree.top.mapFiles change := rfl
  rw [node?, subtree?, isTop, Subtree.at?_mapFiles, node?, subtree?,
    Option.map_map, Option.map_map]
  congr 1
  funext subtree
  exact Subtree.node_mapFiles change subtree

end Tree

end PackageRename
