import Mathlib.Data.List.Nodup
import PackageRename.Proofs.Tree.Based

/-!
# What a walk visits

A walk of an unchanging tree visits a list of things that can be read off the
tree.  Below a base these are the files and directories inside it, each once,
and a failure for every directory whose path is too long to be listed.
-/

namespace PackageRename

namespace Tree

/-- What a walk of an unchanging tree visits, from something it has come
upon. -/
def visitsFrom (tree : Tree) :
    (depth : Nat) → (above : List Path) → Visited → List Visited
  | _, _, .file path => [.file path]
  | _, _, .failure path fault => [.failure path fault]
  | 0, _, .directory path => [.directory path, .failure path .nameTooLong]
  | depth + 1, above, .directory path =>
      .directory path ::
        match tree.list path with
        | .error fault => [.failure path fault]
        | .ok children =>
            children.flatMap fun (name, kind) =>
              tree.visitsFrom depth (path :: above)
                (tree.classify (path :: above) (path.join ⟨name⟩) kind)

/-- What a walk of an unchanging tree visits. -/
def visits (tree : Tree) (root : Path) : List Visited :=
  match tree.kindOf root with
  | .error fault => [.failure root fault]
  | .ok kind => tree.visitsFrom pathLimit [] (tree.classify [] root kind)

variable {tree : Tree} {base : Path} {place : Place}

/-! ### Children -/

theorem lookup_of_mem_ascending {entries : Entries} (ascending : entries.Ascending)
    {name : Name} {inner : Subtree} (member : (name, inner) ∈ entries) :
    entries.lookup name = some inner := by
  induction entries with
  | nil => cases member
  | cons head rest induction =>
      obtain ⟨above, restAscending⟩ := List.pairwise_cons.mp ascending
      rcases List.mem_cons.mp member with first | later
      · rw [← first, List.lookup_cons_self]
      · have before := above (name, inner) later
        have unequal : (name == head.1) = false := by
          rw [beq_eq_false_iff_ne]
          intro same
          rw [same] at before
          exact List.lt_irrefl _ before
        rw [List.lookup_cons, unequal]
        exact induction restAscending later

theorem node?_concat (name : Name) :
    tree.node? (place ++ [name]) = (tree.subtree? place).bind fun subtree =>
      (subtree.entries.lookup name).map Subtree.node := by
  rw [node?, subtree?, Subtree.at?_append, subtree?]
  cases tree.top.at? place with
  | none => rfl
  | some subtree =>
      rw [Option.bind_some, Option.bind_some, Subtree.at?_cons]
      cases subtree.entries.lookup name <;> rfl

theorem ascending_entries {subtree : Subtree}
    (found : tree.subtree? place = some subtree) : subtree.entries.Ascending := by
  have ordered := tree.ordered.at? found
  cases ordered with
  | directory ascending inner => exact ascending
  | file present => exact List.Pairwise.nil
  | link target share => exact List.Pairwise.nil

theorem mem_childrenOf {name : Name} {node : Node} :
    (name, node) ∈ tree.childrenOf place ↔
      tree.node? (place ++ [name]) = some node := by
  rw [childrenOf, node?_concat]
  cases found : tree.subtree? place with
  | none => simp
  | some subtree =>
      have ascending := ascending_entries found
      rw [Option.bind_some, Option.map_eq_some_iff]
      constructor
      · intro member
        obtain ⟨⟨key, inner⟩, inEntries, same⟩ := List.mem_map.mp member
        cases same
        exact ⟨inner, lookup_of_mem_ascending ascending inEntries, rfl⟩
      · rintro ⟨inner, isEntry, isNode⟩
        exact List.mem_map.mpr
          ⟨(name, inner), Entries.mem_of_lookup isEntry, by rw [← isNode]⟩

theorem ascending_childrenOf (tree : Tree) (place : Place) :
    ((tree.childrenOf place).map Prod.fst).Pairwise (· < ·) := by
  rw [childrenOf]
  cases found : tree.subtree? place with
  | none => exact List.Pairwise.nil
  | some subtree =>
      simp only [List.map_map]
      exact List.pairwise_map.mpr (ascending_entries found)

theorem nodup_childrenOf (tree : Tree) (place : Place) :
    ((tree.childrenOf place).map Prod.fst).Nodup := by
  refine (ascending_childrenOf tree place).imp ?_
  intro first second before same
  rw [same] at before
  exact List.lt_irrefl _ before

theorem mem_names_childrenOf {name : Name} :
    name ∈ (tree.childrenOf place).map Prod.fst ↔
      (tree.node? (place ++ [name])).isSome := by
  rw [Option.isSome_iff_exists]
  constructor
  · intro member
    obtain ⟨child, isChild, isName⟩ := List.mem_map.mp member
    exact ⟨child.2, mem_childrenOf.mp (isName ▸ isChild)⟩
  · rintro ⟨node, isNode⟩
    exact List.mem_map.mpr ⟨(name, node), mem_childrenOf.mpr isNode, rfl⟩

/-- Which names a directory lists, and in which order, depends only on which
places hold something. -/
theorem names_childrenOf_eq {other : Tree}
    (same : ∀ name, (other.node? (place ++ [name])).isSome =
      (tree.node? (place ++ [name])).isSome) :
    (other.childrenOf place).map Prod.fst =
      (tree.childrenOf place).map Prod.fst := by
  have isPerm : ((other.childrenOf place).map Prod.fst).Perm
      ((tree.childrenOf place).map Prod.fst) := by
    refine (List.perm_ext_iff_of_nodup (nodup_childrenOf other place)
      (nodup_childrenOf tree place)).mpr fun name => ?_
    rw [mem_names_childrenOf, mem_names_childrenOf, same]
  refine isPerm.eq_of_pairwise ?_ (ascending_childrenOf other place)
    (ascending_childrenOf tree place)
  intro first second _ _ before after
  exact absurd (List.lt_trans before after) (List.lt_irrefl _)

/-! ### Listing -/

theorem LeadsTo.list (leads : tree.LeadsTo base place) {names : List Name}
    (fits : (base.below names).bytes.length ≤ pathLimit)
    (directory : tree.hasDirectory (place ++ names) = true) :
    tree.list (base.below names) =
      .ok ((tree.childrenOf (place ++ names)).map fun child =>
        (child.1, child.2.kind)) := by
  rw [Tree.list, leads.resolve fits (hasDirectory_isSome directory)]
  simp [bind, Except.bind, directory, pure, Except.pure]

theorem LeadsTo.list_of_long (leads : tree.LeadsTo base place)
    {names : List Name} (plain : Path.ArePlain names)
    (long : pathLimit < (base.below names).bytes.length) :
    tree.list (base.below names) = .error .nameTooLong := by
  rw [Tree.list, leads.resolve_of_long plain long]
  rfl

/-! ### The visits below a base -/

variable {depth : Nat} {above : List Path} {names : List Name}

theorem LeadsTo.classify (leads : tree.LeadsTo base place) {node : Node}
    (isNode : tree.node? (place ++ names) = some node)
    (above : List Path) (path : Path) :
    tree.classify above path node.kind =
      if node.isDirectory then .directory path else .file path := by
  cases node with
  | directory mode => rfl
  | file present => rfl
  | link target share => exact absurd isNode (leads.free.linkless _ _ _)

/-- A directory with a path that can be followed is visited before what its
entries lead to. -/
theorem LeadsTo.visitsFrom_directory (leads : tree.LeadsTo base place)
    (fits : (base.below names).bytes.length ≤ pathLimit)
    (directory : tree.hasDirectory (place ++ names) = true) :
    tree.visitsFrom (depth + 1) above (.directory (base.below names)) =
      .directory (base.below names) ::
        (tree.childrenOf (place ++ names)).flatMap fun child =>
          tree.visitsFrom depth (base.below names :: above)
            (if child.2.isDirectory then
              .directory (base.below (names ++ [child.1]))
            else .file (base.below (names ++ [child.1]))) := by
  rw [visitsFrom, leads.list fits directory]
  simp only [List.flatMap_map]
  congr 1
  apply List.flatMap_congr
  rintro ⟨name, node⟩ member
  have isNode := mem_childrenOf.mp member
  rw [List.append_assoc] at isNode
  rw [leads.classify isNode, Path.below_concat]

theorem LeadsTo.visitsFrom_of_long (leads : tree.LeadsTo base place)
    (plain : Path.ArePlain names)
    (long : pathLimit < (base.below names).bytes.length) :
    tree.visitsFrom depth above (.directory (base.below names)) =
      [.directory (base.below names),
        .failure (base.below names) .nameTooLong] := by
  cases depth with
  | zero => rw [visitsFrom]
  | succ depth =>
      rw [visitsFrom, leads.list_of_long plain long]

/-- What a walk below a base can come upon. -/
inductive Encounter (tree : Tree) (base : Path) (place : Place)
    (names : List Name) : Visited → Prop
  | directory (present : tree.hasDirectory (place ++ names) = true) :
      Encounter tree base place names (.directory (base.below names))
  | file {file : File} (present : tree.node? (place ++ names) = some (.file file)) :
      Encounter tree base place names (.file (base.below names))
  | failure (present : tree.hasDirectory (place ++ names) = true)
      (long : pathLimit < (base.below names).bytes.length) :
      Encounter tree base place names (.failure (base.below names) .nameTooLong)

theorem LeadsTo.file_of_child (leads : tree.LeadsTo base place) {name : Name}
    {node : Node} (member : (name, node) ∈ tree.childrenOf (place ++ names))
    (noDirectory : ¬ node.isDirectory = true) :
    ∃ file, tree.node? (place ++ (names ++ [name])) = some (.file file) := by
  have isNode := mem_childrenOf.mp member
  rw [List.append_assoc] at isNode
  cases node with
  | directory mode => exact absurd rfl noDirectory
  | file present => exact ⟨present, isNode⟩
  | link target share => exact absurd isNode (leads.free.linkless _ _ _)

theorem directory_of_child {name : Name} {node : Node}
    (member : (name, node) ∈ tree.childrenOf (place ++ names))
    (isDirectory : node.isDirectory = true) :
    tree.hasDirectory (place ++ (names ++ [name])) = true := by
  have isNode := mem_childrenOf.mp member
  rw [List.append_assoc] at isNode
  rw [hasDirectory, isNode]
  exact isDirectory

/-- One name further down less depth is needed. -/
theorem LeadsTo.deeper (leads : tree.LeadsTo base place) {name : Name}
    (inner : tree.hasDirectory (place ++ (names ++ [name])) = true)
    (deep : pathLimit < (base.below names).bytes.length + (depth + 1)) :
    pathLimit < (base.below (names ++ [name])).bytes.length + depth := by
  have longer := Path.length_below (base.below names)
    (leads.plain_names (hasDirectory_isSome inner)).right
  rw [← Path.below_append, List.length_singleton] at longer
  omega

/-- Where the path is too long, a walk comes upon a directory and fails. -/
theorem LeadsTo.encounter_of_long (leads : tree.LeadsTo base place)
    (directory : tree.hasDirectory (place ++ names) = true)
    (long : pathLimit < (base.below names).bytes.length) {visited : Visited}
    (member : visited ∈
      tree.visitsFrom depth above (.directory (base.below names))) :
    tree.Encounter base place names visited := by
  rw [leads.visitsFrom_of_long
    (leads.plain_names (hasDirectory_isSome directory)) long] at member
  rcases List.mem_cons.mp member with isDirectory | isFailure
  · rw [isDirectory]
    exact .directory directory
  · rw [List.mem_singleton.mp isFailure]
    exact .failure directory long

/-- What is visited for an entry lies at or below that entry, if this is so
where the entry is a directory. -/
theorem LeadsTo.encounter_of_child (leads : tree.LeadsTo base place)
    {name : Name} {node : Node} {visited : Visited}
    (isChild : (name, node) ∈ tree.childrenOf (place ++ names))
    (below : tree.hasDirectory (place ++ (names ++ [name])) = true →
      visited ∈ tree.visitsFrom depth above
        (.directory (base.below (names ++ [name]))) →
      ∃ rest, tree.Encounter base place (names ++ [name] ++ rest) visited)
    (member : visited ∈ tree.visitsFrom depth above
      (if node.isDirectory then .directory (base.below (names ++ [name]))
      else .file (base.below (names ++ [name])))) :
    ∃ rest, tree.Encounter base place (names ++ name :: rest) visited := by
  split at member
  · rename_i isDirectory
    obtain ⟨rest, encounter⟩ :=
      below (directory_of_child isChild isDirectory) member
    refine ⟨rest, ?_⟩
    rwa [List.append_assoc, List.singleton_append] at encounter
  · rename_i noDirectory
    obtain ⟨file, isFile⟩ := leads.file_of_child isChild noDirectory
    rw [visitsFrom, List.mem_singleton] at member
    rw [member]
    exact ⟨[], .file isFile⟩

/-- Deep enough, a walk ends where paths become too long. -/
theorem LeadsTo.encounter_of_mem (leads : tree.LeadsTo base place)
    (directory : tree.hasDirectory (place ++ names) = true)
    (deep : pathLimit < (base.below names).bytes.length + depth)
    {visited : Visited}
    (member : visited ∈
      tree.visitsFrom depth above (.directory (base.below names))) :
    ∃ rest, tree.Encounter base place (names ++ rest) visited := by
  have atTop : ∀ {found}, tree.Encounter base place names found →
      ∃ rest, tree.Encounter base place (names ++ rest) found :=
    fun encounter => ⟨[], by rwa [List.append_nil]⟩
  induction depth generalizing names above with
  | zero => exact atTop (leads.encounter_of_long directory deep member)
  | succ depth induction =>
      by_cases long : pathLimit < (base.below names).bytes.length
      · exact atTop (leads.encounter_of_long directory long member)
      · rw [leads.visitsFrom_directory (Nat.le_of_not_lt long) directory]
          at member
        rcases List.mem_cons.mp member with isDirectory | inside
        · rw [isDirectory]
          exact atTop (.directory directory)
        · obtain ⟨⟨name, node⟩, isChild, fromChild⟩ :=
            List.mem_flatMap.mp inside
          obtain ⟨rest, encounter⟩ := leads.encounter_of_child isChild
            (fun inner further => induction inner (leads.deeper inner deep)
              further fun encounter => ⟨[], by rwa [List.append_nil]⟩)
            fromChild
          exact ⟨name :: rest, encounter⟩

/-- What is visited in a directory inside is visited. -/
theorem LeadsTo.mem_visitsFrom_of_inner (leads : tree.LeadsTo base place)
    {name : Name} {visited : Visited}
    (fits : (base.below names).bytes.length ≤ pathLimit)
    (inner : tree.hasDirectory (place ++ (names ++ [name])) = true)
    (member : visited ∈ tree.visitsFrom depth (base.below names :: above)
      (.directory (base.below (names ++ [name])))) :
    visited ∈
      tree.visitsFrom (depth + 1) above (.directory (base.below names)) := by
  rw [leads.visitsFrom_directory fits (hasDirectory_upward inner (by simp))]
  obtain ⟨mode, isDirectory⟩ := hasDirectory_iff_node?.mp inner
  refine List.mem_cons_of_mem _
    (List.mem_flatMap.mpr ⟨(name, .directory mode), ?_, ?_⟩)
  · rw [mem_childrenOf, List.append_assoc]
    exact isDirectory
  · exact member

/-- A file is visited if its directory can be listed. -/
theorem LeadsTo.file_mem_visitsFrom (leads : tree.LeadsTo base place)
    (names : List Name) {front : List Name} {last : Name} {file : File}
    (isFile : tree.node? (place ++ (names ++ (front ++ [last]))) =
      some (.file file))
    (fits : (base.below (names ++ front)).bytes.length ≤ pathLimit)
    (deep : pathLimit < (base.below names).bytes.length + depth) :
    .file (base.below (names ++ (front ++ [last]))) ∈
      tree.visitsFrom depth above (.directory (base.below names)) := by
  induction front generalizing names depth above with
  | nil =>
      rw [List.append_nil] at fits
      rw [List.nil_append, ← List.append_assoc] at isFile
      cases depth with
      | zero => exact absurd deep (Nat.not_lt.mpr fits)
      | succ depth =>
          rw [leads.visitsFrom_directory fits
            (hasDirectory_of_node?_concat isFile)]
          apply List.mem_cons_of_mem
          refine List.mem_flatMap.mpr
            ⟨(last, .file file), mem_childrenOf.mpr isFile, ?_⟩
          rw [if_neg (by rintro ⟨⟩), visitsFrom]
          exact List.mem_singleton_self _
  | cons name more induction =>
      have plain := leads.plain_names (by rw [isFile]; rfl)
      rw [← List.append_assoc] at plain
      have namesFit : (base.below names).bytes.length ≤ pathLimit :=
        Nat.le_trans (Path.length_below_le_append plain.left) fits
      have isSplit : names ++ (name :: more ++ [last]) =
          (names ++ [name]) ++ (more ++ [last]) := by simp
      rw [isSplit] at isFile ⊢
      have inner : tree.hasDirectory (place ++ (names ++ [name])) = true := by
        rw [← List.append_assoc] at isFile
        exact hasDirectory_of_append (by rw [isFile]; rfl) (by simp)
      cases depth with
      | zero => exact absurd deep (Nat.not_lt.mpr namesFit)
      | succ depth =>
          refine leads.mem_visitsFrom_of_inner namesFit inner
            (induction _ isFile ?_ (leads.deeper inner deep))
          simpa using fits

/-- Some failure is visited if a directory has a path that is too long. -/
theorem LeadsTo.failure_mem_visitsFrom (leads : tree.LeadsTo base place)
    (names : List Name) {rest : List Name}
    (directory : tree.hasDirectory (place ++ (names ++ rest)) = true)
    (long : pathLimit < (base.below (names ++ rest)).bytes.length) :
    ∃ path fault, Visited.failure path fault ∈
      tree.visitsFrom depth above (.directory (base.below names)) := by
  have plain := leads.plain_names (hasDirectory_isSome directory)
  induction rest generalizing names depth above with
  | nil =>
      rw [List.append_nil] at long
      rw [leads.visitsFrom_of_long plain.left long]
      exact ⟨_, _, List.mem_cons_of_mem _ (List.mem_singleton_self _)⟩
  | cons name more induction =>
      have isSplit : names ++ name :: more = (names ++ [name]) ++ more := by
        simp
      rw [isSplit] at directory long plain
      have inner : tree.hasDirectory (place ++ (names ++ [name])) = true :=
        hasDirectory_upward directory (by simp)
      by_cases namesLong : pathLimit < (base.below names).bytes.length
      · rw [leads.visitsFrom_of_long plain.left.left namesLong]
        exact ⟨_, _, List.mem_cons_of_mem _ (List.mem_singleton_self _)⟩
      · cases depth with
        | zero =>
            rw [visitsFrom]
            exact ⟨_, _, List.mem_cons_of_mem _ (List.mem_singleton_self _)⟩
        | succ depth =>
            obtain ⟨path, fault, member⟩ := @induction depth
              (base.below names :: above) (names ++ [name]) directory long plain
            exact ⟨path, fault, leads.mem_visitsFrom_of_inner
              (Nat.le_of_not_lt namesLong) inner member⟩

/-- The path of something a walk comes upon. -/
def Visited.path : Visited → Path
  | .directory path => path
  | .file path => path
  | .failure path _ => path

theorem Encounter.path {visited : Visited}
    (encounter : tree.Encounter base place names visited) :
    visited.path = base.below names := by
  cases encounter <;> rfl

theorem Encounter.present {visited : Visited}
    (encounter : tree.Encounter base place names visited) :
    (tree.node? (place ++ names)).isSome := by
  cases encounter with
  | directory present => exact hasDirectory_isSome present
  | file present =>
      rw [present]
      rfl
  | failure present long => exact hasDirectory_isSome present

theorem LeadsTo.names_unique (leads : tree.LeadsTo base place)
    {others : List Name} {visited : Visited}
    (encounter : tree.Encounter base place names visited)
    (again : tree.Encounter base place others visited) : names = others :=
  Path.below_injective (leads.plain_names encounter.present)
    (leads.plain_names again.present) (encounter.path.symm.trans again.path)

/-- Nothing is visited twice. -/
theorem LeadsTo.nodup_visitsFrom (leads : tree.LeadsTo base place)
    (directory : tree.hasDirectory (place ++ names) = true)
    (deep : pathLimit < (base.below names).bytes.length + depth) :
    (tree.visitsFrom depth above (.directory (base.below names))).Nodup := by
  have plain := leads.plain_names (hasDirectory_isSome directory)
  induction depth generalizing names above with
  | zero =>
      rw [visitsFrom]
      simp
  | succ depth induction =>
      by_cases long : pathLimit < (base.below names).bytes.length
      · rw [leads.visitsFrom_of_long plain long]
        simp
      have fits := Nat.le_of_not_lt long
      have ofChild : ∀ child ∈ tree.childrenOf (place ++ names), ∀ visited,
          visited ∈ tree.visitsFrom depth (base.below names :: above)
            (if child.2.isDirectory then
              .directory (base.below (names ++ [child.1]))
            else .file (base.below (names ++ [child.1]))) →
          ∃ rest, tree.Encounter base place (names ++ child.1 :: rest)
            visited :=
        fun child isChild visited member => leads.encounter_of_child isChild
          (fun inner => leads.encounter_of_mem inner (leads.deeper inner deep))
          member
      rw [leads.visitsFrom_directory fits directory, List.nodup_cons,
        List.nodup_flatMap]
      refine ⟨?_, ?_, ?_⟩
      · intro member
        obtain ⟨child, isChild, fromChild⟩ := List.mem_flatMap.mp member
        obtain ⟨rest, encounter⟩ := ofChild child isChild _ fromChild
        have atTop : tree.Encounter base place names
            (.directory (base.below names)) := .directory directory
        have same := leads.names_unique encounter atTop
        simp at same
      · rintro ⟨name, node⟩ isChild
        simp only
        split
        · rename_i isDirectory
          have inner := directory_of_child isChild isDirectory
          exact induction inner (leads.deeper inner deep)
            (leads.plain_names (hasDirectory_isSome inner))
        · rw [visitsFrom]
          exact List.nodup_singleton _
      · have distinct := List.pairwise_map.mp
          (nodup_childrenOf tree (place ++ names))
        refine List.Pairwise.imp_of_mem ?_ distinct
        intro first second isFirst isSecond different visited inFirst inSecond
        obtain ⟨rest, encounter⟩ := ofChild first isFirst visited inFirst
        obtain ⟨others, again⟩ := ofChild second isSecond visited inSecond
        have same := leads.names_unique encounter again
        rw [List.append_cancel_left_eq, List.cons.injEq] at same
        exact different same.1

/-! ### The visits of a whole walk -/

/-- The kind of what a path leads to, where nothing is a link. -/
theorem kindOf_of_resolved (free : tree.IsLinkFree) {path : Path} {node : Node}
    (resolved : tree.resolve path = .ok place)
    (isNode : tree.node? place = some node) :
    tree.kindOf path = .ok node.kind := by
  obtain ⟨slot, next, isOf, takes⟩ := exists_slot resolved
  rw [kindOf, isOf.found]
  simp only [bind, Except.bind]
  split
  · rw [resolved]
    simp [isNode, pure, Except.pure]
  · rename_i plainly
    rw [Bool.or_eq_true, not_or] at plainly
    obtain ⟨untrailed, notDotted⟩ := plainly
    simp only [Slot.isDotted, Bool.or_eq_true, decide_eq_true_eq, not_or]
      at notDotted
    obtain ⟨isNext, short, -⟩ :=
      takes.of_undotted (not_or.mpr notDotted.1) notDotted.2
    subst isNext
    -- With nothing behind it, the name in the slot is where the path leads.
    have isPlace : slot.place = place := by
      obtain ⟨-, present, entered⟩ := (resolve_eq_ok free).mp resolved
      have follows := isOf.follows
      rw [follow_eq_enter free, if_pos present] at follows
      rw [isOf.pieces (Bool.not_eq_true _ ▸ untrailed), enter_append, follows]
        at entered
      obtain ⟨-, reached, again, isReached⟩ := enter_cons_eq_ok.mp entered
      cases isReached
      exact takes.unique again
    simp only [nodeIn?, if_neg (Nat.not_lt.mpr short), isPlace, isNode]
    rfl

theorem LeadsTo.visits (leads : tree.LeadsTo base place) :
    tree.visits base = tree.visitsFrom pathLimit [] (.directory base) := by
  obtain ⟨mode, isDirectory⟩ := hasDirectory_iff_node?.mp leads.directory
  rw [Tree.visits, kindOf_of_resolved leads.free leads.resolved isDirectory]
  rfl

theorem LeadsTo.deep (leads : tree.LeadsTo base place) :
    pathLimit < (base.below []).bytes.length + pathLimit := by
  have written : 0 < base.bytes.length := List.length_pos_iff.mpr leads.written
  rw [Path.below_nil]
  omega

theorem LeadsTo.encounter_of_mem_visits (leads : tree.LeadsTo base place)
    {visited : Visited} (member : visited ∈ tree.visits base) :
    ∃ names, tree.Encounter base place names visited := by
  rw [leads.visits] at member
  have directory : tree.hasDirectory (place ++ []) = true := by
    rw [List.append_nil]
    exact leads.directory
  obtain ⟨rest, encounter⟩ := leads.encounter_of_mem directory leads.deep member
  exact ⟨_, encounter⟩

theorem LeadsTo.nodup_visits (leads : tree.LeadsTo base place) :
    (tree.visits base).Nodup := by
  rw [leads.visits]
  have directory : tree.hasDirectory (place ++ []) = true := by
    rw [List.append_nil]
    exact leads.directory
  exact leads.nodup_visitsFrom directory leads.deep

/-- Every file in a directory with a path that can be followed is visited. -/
theorem LeadsTo.file_mem_visits_of_parent (leads : tree.LeadsTo base place)
    {file : File} (isFile : tree.node? (place ++ names) = some (.file file))
    (fits : (base.below names.dropLast).bytes.length ≤ pathLimit) :
    .file (base.below names) ∈ tree.visits base := by
  obtain ⟨front, last, isNames⟩ := (List.eq_nil_or_concat names).resolve_left
    (ne_nil_of_file leads.directory isFile)
  rw [List.concat_eq_append] at isNames
  subst isNames
  rw [List.dropLast_concat] at fits
  rw [leads.visits]
  exact leads.file_mem_visitsFrom [] isFile fits leads.deep

/-- Every file with a path that can be followed is visited. -/
theorem LeadsTo.file_mem_visits (leads : tree.LeadsTo base place)
    {file : File} (isFile : tree.node? (place ++ names) = some (.file file))
    (fits : (base.below names).bytes.length ≤ pathLimit) :
    .file (base.below names) ∈ tree.visits base := by
  have plain := leads.plain_names (by rw [isFile]; rfl)
  refine leads.file_mem_visits_of_parent isFile (Nat.le_trans ?_ fits)
  obtain ⟨rest, isNames⟩ := List.dropLast_prefix names
  rw [← isNames] at plain
  have shorter := @Path.length_below_le_append base names.dropLast rest plain
  rwa [isNames] at shorter

theorem LeadsTo.failure_mem_visits (leads : tree.LeadsTo base place)
    (directory : tree.hasDirectory (place ++ names) = true)
    (long : pathLimit < (base.below names).bytes.length) :
    ∃ path fault, Visited.failure path fault ∈ tree.visits base := by
  rw [leads.visits]
  exact leads.failure_mem_visitsFrom [] directory long

/-! ### Two walks side by side -/

section Related

variable {m n : Type → Type} [Monad m] [Monad n]

/-- What holds between the visits of two walks and is kept when parts are put
together holds between the walks: `good` is what is known of the trees that both
look at, and `allowed` of what they come upon in them. -/
theorem walk_related (related : m Unit → n Unit → Prop) {good : Tree → Prop}
    {allowed : Visited → Prop} {current : m Tree} {other : n Tree}
    {visit : Visited → m Unit} {visitOther : Visited → n Unit} {root : Path}
    (ends : related (pure ()) (pure ()))
    (goesOn : ∀ {part next : m Unit} {otherPart otherNext : n Unit},
      related part otherPart → related next otherNext →
      related (part >>= fun _ => next) (otherPart >>= fun _ => otherNext))
    (looks : ∀ {next : Tree → m Unit} {otherNext : Tree → n Unit},
      (∀ tree, good tree → related (next tree) (otherNext tree)) →
      related (current >>= next) (other >>= otherNext))
    (each : ∀ visited, allowed visited →
      related (visit visited) (visitOther visited))
    (starts : ∀ tree kind, good tree → tree.kindOf root = .ok kind →
      allowed (tree.classify [] root kind))
    (misses : ∀ tree fault, good tree → tree.kindOf root = .error fault →
      allowed (.failure root fault))
    (enters : ∀ tree later above path children entry, good tree → good later →
      allowed (.directory path) → tree.list path = .ok children →
      entry ∈ children →
      allowed (later.classify above (path.join ⟨entry.1⟩) entry.2))
    (stops : ∀ path fault, allowed (.directory path) →
      allowed (.failure path fault)) :
    related (walk current visit root) (walk other visitOther root) := by
  -- by the depth that is left, and in each directory by the rest of its listing
  have further : ∀ depth above visited, allowed visited →
      related (walkFrom current visit depth above visited)
        (walkFrom other visitOther depth above visited) := by
    intro depth
    induction depth with
    | zero =>
        intro above visited isAllowed
        cases visited with
        | file path => exact each _ isAllowed
        | failure path fault => exact each _ isAllowed
        | directory path =>
            exact goesOn (each _ isAllowed) (each _ (stops _ _ isAllowed))
    | succ depth induction =>
        intro above visited isAllowed
        cases visited with
        | file path => exact each _ isAllowed
        | failure path fault => exact each _ isAllowed
        | directory path =>
            refine goesOn (each _ isAllowed) (looks fun tree isGood => ?_)
            cases listed : tree.list path with
            | error fault => exact each _ (stops _ _ isAllowed)
            | ok children =>
                have inside : ∀ rest : List (Name × Kind),
                    (∀ entry ∈ rest, entry ∈ children) →
                    related
                      (rest.forM fun entry => do
                        let found ← current
                        walkFrom current visit depth (path :: above)
                          (found.classify (path :: above)
                            (path.join ⟨entry.1⟩) entry.2))
                      (rest.forM fun entry => do
                        let found ← other
                        walkFrom other visitOther depth (path :: above)
                          (found.classify (path :: above)
                            (path.join ⟨entry.1⟩) entry.2)) := by
                  intro rest
                  induction rest with
                  | nil => exact fun _ => ends
                  | cons entry others inner =>
                      intro members
                      have member := members entry List.mem_cons_self
                      refine goesOn (looks fun later isLater => ?_)
                        (inner fun other isOther =>
                          members other (List.mem_cons_of_mem _ isOther))
                      exact induction _ _ (enters tree later _ path children
                        entry isGood isLater isAllowed listed member)
                exact inside children fun _ member => member
  refine looks fun tree isGood => ?_
  cases isKind : tree.kindOf root with
  | error fault => exact each _ (misses tree fault isGood isKind)
  | ok kind => exact further _ _ _ (starts tree kind isGood isKind)

end Related

end Tree

end PackageRename
