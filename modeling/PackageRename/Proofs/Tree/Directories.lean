import Mathlib.Data.List.Induction
import PackageRename.Proofs.Tree.Ground

/-!
# Making, removing and renaming directories below a base

What the operations on directories do under a base, place by place: when they
succeed, and which nodes the tree has afterwards.
-/

namespace PackageRename

namespace Tree

variable {tree : Tree} {base : Path} {place : Place}

/-! ### Empty directories -/

theorem isEmptyDirectory_iff :
    tree.isEmptyDirectory place = true ↔
      tree.hasDirectory place = true ∧
        ∀ rest, rest ≠ [] → tree.node? (place ++ rest) = none := by
  rw [isEmptyDirectory, Bool.and_eq_true, childrenOf]
  apply and_congr_right
  intro directory
  obtain ⟨mode, entries, found⟩ := hasDirectory_iff.mp directory
  have below : ∀ name rest, tree.node? (place ++ name :: rest) =
      ((entries.lookup name).bind (Subtree.at? rest)).map Subtree.node := by
    intro name rest
    rw [node?, subtree?, Subtree.at?_append]
    rw [subtree?] at found
    rw [found]
    rfl
  simp only [found, List.isEmpty_iff, List.map_eq_nil_iff, Subtree.entries]
  constructor
  · intro empty rest some
    cases rest with
    | nil => exact absurd rfl some
    | cons name more =>
        rw [below, empty]
        rfl
  · intro missing
    cases entries with
    | nil => rfl
    | cons entry rest =>
        have absent := missing [entry.1] (by simp)
        rw [below, List.lookup_cons_self] at absent
        cases absent

/-! ### Slots -/

private theorem named_concat {pieces : List Name} {last : Name}
    (written : last ≠ []) :
    ((pieces ++ [last]).reverse.dropWhile (· = [])).reverse =
      pieces ++ [last] := by
  simp [written]

/-- The slot of a path below a base lies where its names lead. -/
theorem LeadsInto.slot (leads : tree.LeadsInto base place) {front : List Name}
    {last : Name} (plain : Path.ArePlain (front ++ [last])) :
    tree.slot (base.below (front ++ [last])) =
      if pathLimit < (base.below (front ++ [last])).bytes.length then
        .error .nameTooLong
      else
        (tree.enter place front).bind fun parent =>
          if tree.hasDirectory parent then .ok ⟨parent, last, false⟩
          else .error .notDirectory := by
  have nonempty : front ++ [last] ≠ [] := by simp
  have isPieces : (base.below (front ++ [last])).pieces =
      base.stem ++ (front ++ [last]) := Path.pieces_below nonempty plain
  have named : ((base.stem ++ (front ++ [last])).reverse.dropWhile
      (· = [])).reverse = (base.stem ++ front) ++ [last] := by
    rw [← List.append_assoc, named_concat plain.last.nonempty]
  have isParent : tree.follow (base.below (front ++ [last]))
      (base.stem ++ front) = tree.enter place front :=
    leads.follow_stem (Path.isAbsolute_below plain) plain.left
  rw [Tree.slot, checkPath_below leads.nulless nonempty plain]
  split
  · rfl
  · simp only [bind, Except.bind, pure, Except.pure, isPieces, named,
      List.dropLast_concat, isParent]
    cases tree.enter place front with
    | error fault => rfl
    | ok parent =>
        have isLast : (base.stem ++ front ++ [last]).getLast?.getD [] = last := by
          simp
        rw [isLast, List.append_assoc]
        simp only [Nat.lt_irrefl, decide_false]
        rfl

theorem LeadsInto.slot_of_long (leads : tree.LeadsInto base place)
    {front : List Name} {last : Name} (plain : Path.ArePlain (front ++ [last]))
    (long : pathLimit < (base.below (front ++ [last])).bytes.length) :
    tree.slot (base.below (front ++ [last])) = .error .nameTooLong := by
  rw [leads.slot plain, if_pos long]

theorem LeadsInto.slot_of_directory (leads : tree.LeadsInto base place)
    {front : List Name} {last : Name} (plain : Path.ArePlain (front ++ [last]))
    (fits : (base.below (front ++ [last])).bytes.length ≤ pathLimit)
    (directory : tree.hasDirectory (place ++ front) = true) :
    tree.slot (base.below (front ++ [last])) =
      .ok ⟨place ++ front, last, false⟩ := by
  have present := hasDirectory_isSome directory
  rw [leads.slot plain, if_neg (Nat.not_lt.mpr fits),
    enter_of_present plain.left (leads.short_names present) present]
  simp [Except.bind, directory]

theorem Slot.not_isDotted {slot : Slot} (plain : slot.name.IsPlain) :
    slot.isDotted = false := by
  simp [Slot.isDotted, plain.nonempty, plain.notCurrent, plain.notParent]

/-! ### Making one directory -/

theorem LeadsInto.makeDirectory (leads : tree.LeadsInto base place)
    {front : List Name} {last : Name} (plain : Path.ArePlain (front ++ [last]))
    (fits : (base.below (front ++ [last])).bytes.length ≤ pathLimit)
    (directory : tree.hasDirectory (place ++ front) = true) :
    tree.makeDirectory (base.below (front ++ [last])) =
      if nameLimit < last.length then .error .nameTooLong
      else if (tree.node? (place ++ (front ++ [last]))).isSome then
        .error .alreadyExists
      else .ok (tree.insert (place ++ front) last .made) := by
  rw [Tree.makeDirectory, leads.slot_of_directory plain fits directory]
  have named : Slot.isDotted ⟨place ++ front, last, false⟩ = false :=
    Slot.not_isDotted plain.last
  simp only [bind, Except.bind, named,
    Bool.false_eq_true, ↓reduceIte, nodeIn?, Slot.place, List.append_assoc]
  by_cases long : nameLimit < last.length
  · rw [if_pos long, if_pos long]
  · rw [if_neg long, if_neg long]
    cases tree.node? (place ++ (front ++ [last])) <;> rfl

/-- A path to something that exists is no path to a new directory. -/
theorem makeDirectory_of_resolved (resolved : tree.resolve base = .ok place) :
    tree.makeDirectory base = .error .alreadyExists := by
  obtain ⟨slot, next, isOf, takes⟩ := exists_slot resolved
  rw [Tree.makeDirectory, isOf.found]
  simp only [bind, Except.bind, Slot.isDotted]
  cases takes with
  | stay spelling => simp [spelling, throw, throwThe, MonadExceptOf.throw]
  | rise isParent => simp [isParent, throw, throwThe, MonadExceptOf.throw]
  | enter _ _ short present =>
      obtain ⟨node, isNode⟩ := Option.isSome_iff_exists.mp present
      simp [nodeIn?, Nat.not_lt.mpr short, Slot.place, isNode, throw, throwThe,
        MonadExceptOf.throw]

/-! ### Making the directories on the way -/

/-- The tree with a directory at a place and all directories on the way.  Those
that are new have the mode of new ones. -/
structure HasMade (tree : Tree) (target : Place) (made : Tree) : Prop where
  origin : made.origin = tree.origin
  hasDirectory : made.hasDirectory target = true
  node? : ∀ place, made.node? place =
    if place <+: target then some ((tree.node? place).getD .made)
    else tree.node? place

theorem some_getD_of_hasDirectory (directory : tree.hasDirectory place = true) :
    some ((tree.node? place).getD .made) = tree.node? place := by
  obtain ⟨mode, isDirectory⟩ := hasDirectory_iff_node?.mp directory
  rw [isDirectory]
  rfl

theorem hasMade_self (directory : tree.hasDirectory place = true) :
    tree.HasMade place tree := by
  refine ⟨rfl, directory, fun other => ?_⟩
  split
  · rename_i isPrefix
    exact (some_getD_of_hasDirectory
      (hasDirectory_upward directory isPrefix)).symm
  · rfl

theorem HasMade.eq_of_hasDirectory {target : Place} {made : Tree}
    (isMade : tree.HasMade target made)
    (directory : tree.hasDirectory target = true) : made = tree := by
  refine eq_of_node? isMade.origin fun other => ?_
  exact (isMade.node? other).trans ((hasMade_self directory).node? other).symm

theorem origin_insert (parent : Place) (name : Name) (node : Node) :
    (tree.insert parent name node).origin = tree.origin := by
  rw [insert]
  split <;> rfl

theorem hasMade_insert {parent : Place} {name : Name}
    (directory : tree.hasDirectory parent = true)
    (missing : tree.node? (parent ++ [name]) = none) :
    tree.HasMade (parent ++ [name]) (tree.insert parent name .made) := by
  refine ⟨origin_insert _ _ _, ?_, fun other => ?_⟩
  · rw [hasDirectory, node?_insert directory missing, if_pos rfl]
    rfl
  rw [node?_insert directory missing]
  by_cases same : other = parent ++ [name]
  · rw [if_pos same, if_pos (same ▸ List.prefix_refl _), same, missing]
    rfl
  · rw [if_neg same]
    split
    · rename_i isPrefix
      rcases List.prefix_concat_iff.mp isPrefix with whole | earlier
      · exact absurd whole same
      · exact (some_getD_of_hasDirectory
          (hasDirectory_upward directory earlier)).symm
    · rfl

namespace HasMade

variable {target : Place} {made : Tree}

/-- What has been a directory still is. -/
theorem keeps {other : Place} (isMade : tree.HasMade target made)
    (directory : tree.hasDirectory other = true) :
    made.hasDirectory other = true := by
  by_cases isPrefix : other <+: target
  · exact hasDirectory_upward isMade.hasDirectory isPrefix
  · rw [Tree.hasDirectory, isMade.node?, if_neg isPrefix]
    exact directory

/-- Nothing changes behind the directory. -/
theorem node?_behind (isMade : tree.HasMade target made) {rest : List Name}
    (nonempty : rest ≠ []) :
    made.node? (target ++ rest) = tree.node? (target ++ rest) := by
  rw [isMade.node?, if_neg (by simpa using nonempty)]

theorem trans {further : Place} {final : Tree}
    (isMade : tree.HasMade target made) (onward : made.HasMade further final)
    (longer : target <+: further) : tree.HasMade further final := by
  refine ⟨onward.origin.trans isMade.origin, onward.hasDirectory,
    fun place => ?_⟩
  rw [onward.node?, isMade.node?]
  by_cases above : place <+: target
  · have further := above.trans longer
    rw [if_pos above, if_pos further, if_pos further, Option.getD_some]
  · rw [if_neg above]

theorem isGround {names : List Name}
    (isMade : tree.HasMade (place ++ names) made)
    (ground : tree.IsGround base place) (plain : Path.ArePlain names)
    (short : ∀ name ∈ names, name.length ≤ nameLimit) :
    made.IsGround base place := by
  refine ground.transfer isMade.origin ?_ ?_ ?_
  · intro other outside
    rw [isMade.node?]
    split
    · rename_i isPrefix
      rcases reaches_or_ends isPrefix with above | ⟨rest, isOther, -⟩
      · exact some_getD_of_hasDirectory
          (hasDirectory_upward ground.directory above)
      · subst isOther
        cases rest with
        | nil =>
            rw [List.append_nil]
            exact some_getD_of_hasDirectory ground.directory
        | cons name more =>
            exact absurd (inside_append_iff.mpr (List.cons_ne_nil _ _)) outside
    · rfl
  · intro inner target share isLink
    by_cases isPrefix : place ++ inner <+: place ++ names
    · have directory := hasDirectory_upward isMade.hasDirectory isPrefix
      rw [Tree.hasDirectory, isLink] at directory
      cases directory
    · rw [isMade.node?, if_neg isPrefix] at isLink
      exact ground.linkless inner target share isLink
  · intro inner present name member
    rw [isMade.node?] at present
    split at present
    · rename_i isPrefix
      have inNames := ((List.prefix_append_right_inj place).mp isPrefix).subset
        member
      exact ⟨plain name inNames, short name inNames⟩
    · exact ground.legal inner present name member

end HasMade

theorem isOpen_of_hasDirectory {names : List Name}
    (directory : tree.hasDirectory (place ++ names) = true) :
    tree.IsOpen place names :=
  fun _ isPrefix => .inr (hasDirectory_upward directory
    ((List.prefix_append_right_inj place).mpr isPrefix))

theorem isOpen_concat_iff {front : List Name} {last : Name} :
    tree.IsOpen place (front ++ [last]) ↔
      tree.IsOpen place front ∧
        (tree.node? (place ++ (front ++ [last])) = none ∨
          tree.hasDirectory (place ++ (front ++ [last])) = true) := by
  constructor
  · exact fun opened => ⟨opened.left, opened _ (List.prefix_refl _)⟩
  · rintro ⟨opened, ends⟩ first isPrefix
    rcases List.prefix_concat_iff.mp isPrefix with whole | earlier
    · rw [whole]
      exact ends
    · exact opened first earlier

/-- What is kept whenever one of the directories is made is kept by making them
all. -/
theorem createAlong_keeps {keeps : Tree → Prop} {paths : List Path}
    (start : keeps tree)
    (step : ∀ path ∈ paths, ∀ before made, keeps before →
      before.makeDirectory path = .ok made → keeps made) :
    keeps (tree.createAlong paths).2 := by
  induction paths generalizing tree with
  | nil => exact start
  | cons path above induction =>
      obtain ⟨here, further⟩ := List.forall_mem_cons.mp step
      rw [createAlong]
      split
      · exact start
      split
      · rename_i made isMade
        exact here tree made start isMade
      · have reaches := induction start further
        split
        · rename_i isReached
          rwa [isReached] at reaches
        · rename_i isReached
          rw [isReached] at reaches
          split
          · rename_i made isMade
            exact here _ made reaches isMade
          · split <;> exact reaches
      · split <;> exact start

theorem createAlong_of_made {path : Path} {above : List Path} {made : Tree}
    (written : path.bytes ≠ []) (isMade : tree.makeDirectory path = .ok made) :
    tree.createAlong (path :: above) = (.ok (), made) := by
  rw [createAlong, if_neg written]
  simp only [isMade]

theorem createAlong_of_missing {path : Path} {above : List Path}
    {reached made : Tree} (written : path.bytes ≠ [])
    (missing : tree.makeDirectory path = .error .notFound)
    (isReached : tree.createAlong above = (.ok (), reached))
    (isMade : reached.makeDirectory path = .ok made) :
    tree.createAlong (path :: above) = (.ok (), made) := by
  rw [createAlong, if_neg written]
  simp only [missing, isReached, isMade]

/-- The path leads to a directory, or one can be made there. -/
def AdmitsDirectory (tree : Tree) (path : Path) : Prop :=
  tree.isDirectory path = true ∨ ∃ made, tree.makeDirectory path = .ok made

/-- If the directories are made, there is room for the first: at once, or when
the others are there. -/
theorem admitsDirectory_of_createAlong {path : Path} {above : List Path}
    (written : path.bytes ≠ [])
    (created : (tree.createAlong (path :: above)).1 = .ok ()) :
    tree.AdmitsDirectory path ∨ ∃ reached,
      tree.createAlong above = (.ok (), reached) ∧
        reached.AdmitsDirectory path := by
  rw [createAlong, if_neg written] at created
  split at created
  · rename_i made isMade
    exact .inl (.inr ⟨made, isMade⟩)
  · split at created
    · cases created
    · rename_i reached isReached
      refine .inr ⟨reached, isReached, ?_⟩
      split at created
      · rename_i made isMade
        exact .inr ⟨made, isMade⟩
      · split at created
        · rename_i isDirectory
          exact .inl isDirectory
        · cases created
  · split at created
    · rename_i isDirectory
      exact .inl (.inl isDirectory)
    · cases created

theorem createDirectories_of_isDirectory (written : base.bytes ≠ [])
    (isDirectory : tree.isDirectory base = true) :
    tree.createDirectories base = (.ok (), tree) := by
  rw [createDirectories, createAlong, if_neg written]
  cases resolved : tree.resolve base with
  | error fault =>
      rw [Tree.isDirectory, resolved] at isDirectory
      cases isDirectory
  | ok place =>
      rw [makeDirectory_of_resolved resolved]
      simp only [isDirectory, ↓reduceIte]

theorem LeadsInto.makeDirectory_of_missing (leads : tree.LeadsInto base place)
    {front : List Name} {last : Name} (plain : Path.ArePlain (front ++ [last]))
    (short : ∀ name ∈ front ++ [last], name.length ≤ nameLimit)
    (fits : (base.below (front ++ [last])).bytes.length ≤ pathLimit)
    (opened : tree.IsOpen place front)
    (missing : tree.node? (place ++ front) = none) :
    tree.makeDirectory (base.below (front ++ [last])) = .error .notFound := by
  have frontShort : ∀ name ∈ front, name.length ≤ nameLimit :=
    fun name member => short name (List.mem_append_left _ member)
  have entered : tree.enter place front = .error .notFound := by
    rcases enter_of_missing plain.left frontShort leads.directory missing with
      ⟨-, entered⟩ | ⟨closed, -⟩
    · exact entered
    · exact absurd opened closed
  rw [Tree.makeDirectory, leads.slot plain, if_neg (Nat.not_lt.mpr fits),
    entered]
  rfl

theorem LeadsInto.makeDirectory_of_free (leads : tree.LeadsInto base place)
    {front : List Name} {last : Name} (plain : Path.ArePlain (front ++ [last]))
    (short : last.length ≤ nameLimit)
    (fits : (base.below (front ++ [last])).bytes.length ≤ pathLimit)
    (directory : tree.hasDirectory (place ++ front) = true)
    (missing : tree.node? (place ++ (front ++ [last])) = none) :
    ∃ made, tree.makeDirectory (base.below (front ++ [last])) = .ok made ∧
      tree.HasMade (place ++ (front ++ [last])) made := by
  have isMade := leads.makeDirectory plain fits directory
  rw [if_neg (Nat.not_lt.mpr short), missing, Option.isSome_none,
    if_neg Bool.false_ne_true] at isMade
  rw [← List.append_assoc] at missing ⊢
  exact ⟨_, isMade, hasMade_insert directory missing⟩

/-- Where nothing is in the way, all directories are made. -/
theorem IsGround.createDirectories (ground : tree.IsGround base place)
    {names : List Name} (plain : Path.ArePlain names)
    (short : ∀ name ∈ names, name.length ≤ nameLimit)
    (fits : (base.below names).bytes.length ≤ pathLimit)
    (opened : tree.IsOpen place names) :
    ∃ made, tree.createDirectories (base.under names) = (.ok (), made) ∧
      tree.HasMade (place ++ names) made := by
  induction names using List.reverseRecOn with
  | nil =>
      refine ⟨tree, ?_, hasMade_self (by simpa using ground.directory)⟩
      exact createDirectories_of_isDirectory
        (Path.bytes_home_ne_nil ground.written) ground.isDirectory_home
  | append_singleton front last induction =>
      have nonempty : front ++ [last] ≠ [] := by simp
      have written : (base.below (front ++ [last])).bytes ≠ [] :=
        Path.bytes_below_ne_nil nonempty plain
      have lastShort : last.length ≤ nameLimit := short last (by simp)
      rw [Path.under_of_ne_nil nonempty]
      obtain ⟨frontOpen, missing | present⟩ := isOpen_concat_iff.mp opened
      · rcases frontOpen front (List.prefix_refl _) with
          parentMissing | parentPresent
        · have frontShort : ∀ name ∈ front, name.length ≤ nameLimit :=
            fun name member => short name (List.mem_append_left _ member)
          obtain ⟨reached, isReached, reachedMade⟩ := induction plain.left
            frontShort (Nat.le_trans (Path.length_below_le_append plain) fits)
            frontOpen
          have reachedGround := reachedMade.isGround ground plain.left frontShort
          have stillMissing :
              reached.node? (place ++ (front ++ [last])) = none := by
            rw [← List.append_assoc] at missing ⊢
            rw [reachedMade.node?_behind (List.cons_ne_nil _ _), missing]
          obtain ⟨made, isMade, hasMade⟩ := reachedGround.makeDirectory_of_free
            plain lastShort fits reachedMade.hasDirectory stillMissing
          refine ⟨made, ?_, reachedMade.trans hasMade (by simp)⟩
          rw [Tree.createDirectories, Path.ancestors_below ground.written plain]
          exact createAlong_of_missing written (ground.makeDirectory_of_missing
            plain short fits frontOpen parentMissing) isReached isMade
        · obtain ⟨made, isMade, hasMade⟩ := ground.makeDirectory_of_free plain
            lastShort fits parentPresent missing
          exact ⟨made, createAlong_of_made written isMade, hasMade⟩
      · refine ⟨tree, createDirectories_of_isDirectory written ?_,
          hasMade_self present⟩
        exact (ground.isDirectory plain).mpr ⟨fits, present⟩

/-- Where a file is in the way a directory is refused, but not for lack of the
directories on the way. -/
theorem LeadsInto.makeDirectory_of_blocked (leads : tree.LeadsInto base place)
    {front : List Name} {last : Name} (plain : Path.ArePlain (front ++ [last]))
    (short : ∀ name ∈ front ++ [last], name.length ≤ nameLimit)
    (fits : (base.below (front ++ [last])).bytes.length ≤ pathLimit)
    (blocked : ¬ tree.IsOpen place (front ++ [last])) :
    ∃ fault, fault ≠ .notFound ∧
      tree.makeDirectory (base.below (front ++ [last])) = .error fault := by
  cases parent : tree.hasDirectory (place ++ front) with
  | true =>
      have present :
          (tree.node? (place ++ (front ++ [last]))).isSome = true := by
        rw [Option.isSome_iff_ne_none]
        exact fun missing => blocked (isOpen_concat_iff.mpr
          ⟨isOpen_of_hasDirectory parent, .inl missing⟩)
      refine ⟨.alreadyExists, nofun, ?_⟩
      rw [leads.makeDirectory plain fits parent,
        if_neg (Nat.not_lt.mpr (short last (by simp))), if_pos present]
  | false =>
      have frontShort : ∀ name ∈ front, name.length ≤ nameLimit :=
        fun name member => short name (List.mem_append_left _ member)
      have refused : tree.makeDirectory (base.below (front ++ [last])) =
          .error .notDirectory := by
        rw [Tree.makeDirectory, leads.slot plain, if_neg (Nat.not_lt.mpr fits)]
        cases isNode : tree.node? (place ++ front) with
        | some node =>
            rw [enter_of_present plain.left frontShort (by rw [isNode]; rfl)]
            simp only [Except.bind, parent]
            rfl
        | none =>
            rcases enter_of_missing plain.left frontShort leads.directory isNode
              with ⟨opened, -⟩ | ⟨-, entered⟩
            · refine absurd (isOpen_concat_iff.mpr ⟨opened, .inl ?_⟩) blocked
              rw [← List.append_assoc]
              exact node?_append_of_missing isNode [last]
            · rw [entered]
              rfl
      exact ⟨.notDirectory, nofun, refused⟩

/-- Where a file is in the way, no directory is made. -/
theorem IsGround.createDirectories_of_blocked (ground : tree.IsGround base place)
    {names : List Name} (plain : Path.ArePlain names)
    (short : ∀ name ∈ names, name.length ≤ nameLimit)
    (fits : (base.below names).bytes.length ≤ pathLimit)
    (blocked : ¬ tree.IsOpen place names) :
    ∃ fault, tree.createDirectories (base.under names) =
      (.error fault, tree) := by
  rcases List.eq_nil_or_concat names with empty | ⟨front, last, isNames⟩
  · subst empty
    exact absurd (isOpen_of_hasDirectory (by simpa using ground.directory))
      blocked
  rw [List.concat_eq_append] at isNames
  subst isNames
  have nonempty : front ++ [last] ≠ [] := by simp
  have notDirectory :
      ¬ tree.isDirectory (base.below (front ++ [last])) = true := by
    rw [ground.isDirectory plain]
    exact fun isDirectory => blocked (isOpen_of_hasDirectory isDirectory.2)
  obtain ⟨fault, notMissing, refused⟩ :=
    ground.makeDirectory_of_blocked plain short fits blocked
  refine ⟨fault, ?_⟩
  rw [Path.under_of_ne_nil nonempty, Tree.createDirectories, createAlong,
    if_neg (Path.bytes_below_ne_nil nonempty plain), refused]
  split
  · rename_i made
    cases made
  · rename_i isMissing
    exact absurd (Except.error.inj isMissing) notMissing
  · rename_i isFault
    cases isFault
    rw [if_neg notDirectory]

theorem LeadsInto.makeDirectory_of_closed (leads : tree.LeadsInto base place)
    {front : List Name} {last : Name} (plain : Path.ArePlain (front ++ [last]))
    (closed : tree.hasDirectory (place ++ front) = false) :
    ∃ fault, tree.makeDirectory (base.below (front ++ [last])) =
      .error fault := by
  rw [Tree.makeDirectory, leads.slot plain]
  split
  · exact ⟨_, rfl⟩
  · cases entered : tree.enter place front with
    | error fault => exact ⟨_, rfl⟩
    | ok parent =>
        obtain ⟨isParent, -⟩ := enter_eq_ok plain.left entered
        subst isParent
        simp only [Except.bind, closed]
        exact ⟨_, rfl⟩

/-- Where there is room for a directory, the one above it is there and nothing
else is in its place. -/
theorem IsGround.of_admitsDirectory (ground : tree.IsGround base place)
    {front : List Name} {last : Name} (plain : Path.ArePlain (front ++ [last]))
    (admits : tree.AdmitsDirectory (base.below (front ++ [last]))) :
    last.length ≤ nameLimit ∧
      (base.below (front ++ [last])).bytes.length ≤ pathLimit ∧
      tree.hasDirectory (place ++ front) = true ∧
      (tree.node? (place ++ (front ++ [last])) = none ∨
        tree.hasDirectory (place ++ (front ++ [last])) = true) := by
  rcases admits with isDirectory | ⟨made, isMade⟩
  · obtain ⟨fits, directory⟩ := (ground.isDirectory plain).mp isDirectory
    exact ⟨ground.short_names (hasDirectory_isSome directory) last (by simp),
      fits, hasDirectory_upward directory (by simp), .inr directory⟩
  · have fits :
        (base.below (front ++ [last])).bytes.length ≤ pathLimit := by
      by_contra long
      rw [Tree.makeDirectory,
        ground.slot_of_long plain (Nat.lt_of_not_le long)] at isMade
      cases isMade
    have parent : tree.hasDirectory (place ++ front) = true := by
      by_contra closed
      obtain ⟨fault, refused⟩ := ground.makeDirectory_of_closed plain
        (Bool.eq_false_iff.mpr closed)
      rw [refused] at isMade
      cases isMade
    rw [ground.makeDirectory plain fits parent] at isMade
    split at isMade
    · cases isMade
    · rename_i short
      split at isMade
      · cases isMade
      · rename_i absent
        exact ⟨Nat.le_of_not_lt short, fits, parent,
          .inl (Option.not_isSome_iff_eq_none.mp absent)⟩

/-- If the directories are made, nothing has been in the way. -/
theorem IsGround.of_createDirectories (ground : tree.IsGround base place)
    {names : List Name} (plain : Path.ArePlain names)
    (made : (tree.createDirectories (base.under names)).1 = .ok ()) :
    (∀ name ∈ names, name.length ≤ nameLimit) ∧
      (base.below names).bytes.length ≤ pathLimit ∧
      tree.IsOpen place names := by
  induction names using List.reverseRecOn with
  | nil =>
      exact ⟨by simp, ground.fits,
        isOpen_of_hasDirectory (by simpa using ground.directory)⟩
  | append_singleton front last induction =>
      have nonempty : front ++ [last] ≠ [] := by simp
      rw [Path.under_of_ne_nil nonempty, Tree.createDirectories,
        Path.ancestors_below ground.written plain] at made
      -- Either the way is there, or it has been made before the last directory.
      obtain ⟨frontShort, lastShort, fits, frontOpen, lastOpen⟩ :
          (∀ name ∈ front, name.length ≤ nameLimit) ∧
          last.length ≤ nameLimit ∧
          (base.below (front ++ [last])).bytes.length ≤ pathLimit ∧
          tree.IsOpen place front ∧
          (tree.node? (place ++ (front ++ [last])) = none ∨
            tree.hasDirectory (place ++ (front ++ [last])) = true) := by
        rcases admitsDirectory_of_createAlong
            (Path.bytes_below_ne_nil nonempty plain) made with
          admits | ⟨reached, isReached, admits⟩
        · obtain ⟨short, fits, parent, opened⟩ :=
            ground.of_admitsDirectory plain admits
          exact ⟨ground.short_names (hasDirectory_isSome parent), short, fits,
            isOpen_of_hasDirectory parent, opened⟩
        · obtain ⟨frontShort, frontFits, frontOpen⟩ :=
            induction plain.left (congrArg Prod.fst isReached)
          obtain ⟨again, isAgain, reachedMade⟩ := ground.createDirectories
            plain.left frontShort frontFits frontOpen
          obtain rfl : reached = again :=
            congrArg Prod.snd (isReached.symm.trans isAgain)
          obtain ⟨short, fits, -, opened⟩ :=
            (reachedMade.isGround ground plain.left
              frontShort).of_admitsDirectory plain admits
          rw [← List.append_assoc, Tree.hasDirectory,
            reachedMade.node?_behind (List.cons_ne_nil _ _),
            List.append_assoc] at opened
          exact ⟨frontShort, short, fits, frontOpen, opened⟩
      exact ⟨List.forall_mem_append.mpr
          ⟨frontShort, List.forall_mem_singleton.mpr lastShort⟩, fits,
        isOpen_concat_iff.mpr ⟨frontOpen, lastOpen⟩⟩

/-! ### Removing one directory -/

theorem LeadsInto.removeDirectory (leads : tree.LeadsInto base place)
    {front : List Name} {last : Name}
    (fits : (base.below (front ++ [last])).bytes.length ≤ pathLimit)
    (directory : tree.hasDirectory (place ++ (front ++ [last])) = true) :
    tree.removeDirectory (base.below (front ++ [last])) =
      if tree.isEmptyDirectory (place ++ (front ++ [last])) then
        .ok (tree.remove (place ++ (front ++ [last])))
      else .error .notEmpty := by
  have present := hasDirectory_isSome directory
  have plain := leads.plain_names present
  have short : ¬ nameLimit < last.length :=
    Nat.not_lt.mpr (leads.short_names present last (by simp))
  have parent : tree.hasDirectory (place ++ front) = true :=
    hasDirectory_upward directory (by simp)
  obtain ⟨mode, isDirectory⟩ := hasDirectory_iff_node?.mp directory
  rw [Tree.removeDirectory, leads.slot_of_directory plain fits parent]
  simp only [bind, Except.bind, if_neg plain.last.notParent,
    if_neg plain.last.notCurrent, if_neg plain.last.nonempty, nodeIn?,
    if_neg short, Slot.place, List.append_assoc, isDirectory]
  split <;> rfl

theorem origin_remove (removed : Place) :
    (tree.remove removed).origin = tree.origin := by
  rw [remove]
  split <;> rfl

/-! ### Renaming a directory -/

/-- The mode of a directory does not matter when it is moved. -/
theorem checkReplaced_directory (mode : Nat) (target : Place) :
    tree.checkReplaced (.directory mode) target =
      tree.checkReplaced .made target := by
  unfold checkReplaced
  rcases tree.node? target with _ | (_ | _ | _) <;> rfl

theorem checkReplaced_made_eq_ok {target : Place} :
    tree.checkReplaced .made target = .ok () ↔
      tree.node? target = none ∨ tree.isEmptyDirectory target = true := by
  unfold checkReplaced
  cases isNode : tree.node? target with
  | none => simp
  | some node =>
      cases node with
      | directory mode =>
          cases empty : tree.isEmptyDirectory target <;> simp [Node.made]
      | file present =>
          have noDirectory : tree.isEmptyDirectory target = false := by
            simp [isEmptyDirectory, Tree.hasDirectory, isNode, Node.isDirectory]
          simp [noDirectory, Node.made]
      | link path share =>
          have noDirectory : tree.isEmptyDirectory target = false := by
            simp [isEmptyDirectory, Tree.hasDirectory, isNode, Node.isDirectory]
          simp [noDirectory, Node.made]

/-- The tree with everything at and below a place moved to another. -/
structure HasMoved (tree : Tree) (source target : Place) (moved : Tree) :
    Prop where
  origin : moved.origin = tree.origin
  node? : ∀ place, moved.node? place =
    if target <+: place then tree.node? (source ++ place.drop target.length)
    else if source <+: place then none
    else tree.node? place

/-- Neither place lies at or below the other. -/
def Apart (first second : Place) : Prop :=
  ¬ first <+: second ∧ ¬ second <+: first

theorem Apart.symm {first second : Place} (apart : Apart first second) :
    Apart second first :=
  ⟨apart.2, apart.1⟩

theorem Apart.not_prefix_append {first second rest : Place}
    (apart : Apart first second) : ¬ first <+: second ++ rest := by
  intro isPrefix
  rcases List.prefix_or_prefix_of_prefix isPrefix
    (List.prefix_append second rest) with before | after
  · exact apart.1 before
  · exact apart.2 after

theorem Apart.append_left {front first second : Place} :
    Apart (front ++ first) (front ++ second) ↔ Apart first second := by
  simp [Apart]

theorem hasMoved_move {source parent : Place} {name : Name}
    (present : (tree.node? source).isSome)
    (directory : tree.hasDirectory parent = true)
    (apart : Apart source (parent ++ [name])) :
    tree.HasMoved source (parent ++ [name])
      ((tree.remove (parent ++ [name])).move source parent name) := by
  have inside : source ≠ [] := fun top => apart.1 (top ▸ List.nil_prefix)
  have removed := @node?_remove tree (parent ++ [name]) (by simp)
  have keptSource : ((tree.remove (parent ++ [name])).node? source).isSome := by
    rw [removed, if_neg apart.2]
    exact present
  have keptParent :
      (tree.remove (parent ++ [name])).hasDirectory parent = true := by
    rw [Tree.hasDirectory, removed, if_neg]
    · exact directory
    · simp
  have outside : ¬ source <+: parent :=
    fun isPrefix => apart.1 (isPrefix.trans (List.prefix_append _ _))
  constructor
  · have isMove : ∀ before : Tree,
        (before.move source parent name).origin = before.origin := by
      intro before
      rw [move]
      split
      · rfl
      · exact origin_remove source
    rw [isMove, origin_remove]
  · intro place
    rw [node?_move inside keptSource keptParent outside, removed]
    split
    · rw [if_neg apart.symm.not_prefix_append]
    · split
      · rfl
      · rw [removed, if_neg]
        assumption

theorem LeadsInto.rename (leads : tree.LeadsInto base place)
    {source front : List Name} {last : Name}
    (sourceFits : (base.below source).bytes.length ≤ pathLimit)
    (directory : tree.hasDirectory (place ++ source) = true)
    (plain : Path.ArePlain (front ++ [last]))
    (fits : (base.below (front ++ [last])).bytes.length ≤ pathLimit)
    (parent : tree.hasDirectory (place ++ front) = true)
    (apart : Apart source (front ++ [last])) :
    tree.rename (base.below source) (base.below (front ++ [last])) =
      if nameLimit < last.length then .error .nameTooLong
      else
        (tree.checkReplaced .made (place ++ (front ++ [last]))).bind
          fun _ => .ok ((tree.remove (place ++ (front ++ [last]))).move
            (place ++ source) (place ++ front) last) := by
  rcases List.eq_nil_or_concat source with empty | ⟨above, name, isSource⟩
  · exact absurd List.nil_prefix (empty ▸ apart.1)
  rw [List.concat_eq_append] at isSource
  subst isSource
  have present := hasDirectory_isSome directory
  have sourcePlain := leads.plain_names present
  have sourceShort : ¬ nameLimit < name.length :=
    Nat.not_lt.mpr (leads.short_names present name (by simp))
  have sourceParent : tree.hasDirectory (place ++ above) = true :=
    hasDirectory_upward directory (by simp)
  have clean : ((base.below (above ++ [name])).bytes.contains 0 ||
      (base.below (front ++ [last])).bytes.contains 0) = false := by
    simp [nul_not_mem_below leads.nulless sourcePlain,
      nul_not_mem_below leads.nulless plain]
  have undotted :
      (Slot.isDotted ⟨place ++ above, name, false⟩ ||
        Slot.isDotted ⟨place ++ front, last, false⟩) = false := by
    rw [Slot.not_isDotted sourcePlain.last, Slot.not_isDotted plain.last]
    rfl
  have notInto : (place ++ (above ++ [name])).isPrefixOf (place ++ front) =
      false := by
    rw [Bool.eq_false_iff, ne_eq, List.isPrefixOf_iff_prefix,
      List.prefix_append_right_inj]
    exact fun isPrefix => apart.1 (isPrefix.trans (List.prefix_append _ _))
  have notAbove : (place ++ (front ++ [last])).isPrefixOf (place ++ above) =
      false := by
    rw [Bool.eq_false_iff, ne_eq, List.isPrefixOf_iff_prefix,
      List.prefix_append_right_inj]
    exact fun isPrefix => apart.2 (isPrefix.trans (List.prefix_append _ _))
  obtain ⟨mode, isDirectory⟩ := hasDirectory_iff_node?.mp directory
  have different : ¬ (place ++ (above ++ [name]) = place ++ (front ++ [last]) ∨
      tree.sharesNode (.directory mode) (place ++ (front ++ [last])) =
        true) := by
    rintro (same | shares)
    · rw [List.append_cancel_left_eq] at same
      exact apart.1 (same ▸ List.prefix_refl _)
    · cases shares
  rw [Tree.rename, clean, leads.slot_of_directory sourcePlain sourceFits
    sourceParent, leads.slot_of_directory plain fits parent]
  simp only [bind, Except.bind, undotted, Bool.false_eq_true, ↓reduceIte,
    nodeIn?, if_neg sourceShort, Slot.place, List.append_assoc, isDirectory]
  by_cases long : nameLimit < last.length
  · rw [if_pos long, if_pos long]
  · rw [if_neg long, if_neg long]
    simp only [Node.isDirectory, Bool.not_true, Bool.false_and,
      Bool.false_eq_true, ↓reduceIte, notInto, notAbove, if_neg different,
      checkReplaced_directory mode]
    rfl

theorem LeadsInto.rename_of_long (leads : tree.LeadsInto base place)
    (source : List Name) {front : List Name} {last : Name}
    (plain : Path.ArePlain (front ++ [last]))
    (long : pathLimit < (base.below (front ++ [last])).bytes.length) :
    ∃ fault, tree.rename (base.below source) (base.below (front ++ [last])) =
      .error fault := by
  rw [Tree.rename, leads.slot_of_long plain long]
  simp only [bind, Except.bind]
  split
  · exact ⟨_, rfl⟩
  · cases tree.slot (base.below source) <;> exact ⟨_, rfl⟩

/-- A directory that is renamed is given a name that is free, in a directory. -/
theorem LeadsInto.of_rename (leads : tree.LeadsInto base place)
    {source front : List Name} {last : Name} {renamed : Tree}
    (sourceFits : (base.below source).bytes.length ≤ pathLimit)
    (directory : tree.hasDirectory (place ++ source) = true)
    (plain : Path.ArePlain (front ++ [last]))
    (parent : tree.hasDirectory (place ++ front) = true)
    (apart : Apart source (front ++ [last]))
    (isRenamed : tree.rename (base.below source)
      (base.below (front ++ [last])) = .ok renamed) :
    last.length ≤ nameLimit ∧
      (base.below (front ++ [last])).bytes.length ≤ pathLimit ∧
      (tree.node? (place ++ (front ++ [last])) = none ∨
        tree.isEmptyDirectory (place ++ (front ++ [last])) = true) := by
  have fits : (base.below (front ++ [last])).bytes.length ≤ pathLimit := by
    by_contra long
    obtain ⟨fault, refused⟩ :=
      leads.rename_of_long source plain (Nat.lt_of_not_le long)
    rw [refused] at isRenamed
    cases isRenamed
  rw [leads.rename sourceFits directory plain fits parent apart] at isRenamed
  split at isRenamed
  · cases isRenamed
  · rename_i short
    cases replaces : tree.checkReplaced .made (place ++ (front ++ [last])) with
    | error fault =>
        rw [replaces] at isRenamed
        cases isRenamed
    | ok free =>
        exact ⟨Nat.le_of_not_lt short, fits,
          checkReplaced_made_eq_ok.mp replaces⟩

end Tree

end PackageRename
