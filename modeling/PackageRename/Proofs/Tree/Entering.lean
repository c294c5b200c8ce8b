import PackageRename.Proofs.Path.Below
import PackageRename.Proofs.Tree.Layout

/-!
# Lookups in trees without links

Where there are no links, following a path is entering one place after the
other: what a piece leads to depends only on the place reached so far.  A lookup
therefore depends only on the nodes at the places it passes, and splits where
its pieces do.
-/

namespace PackageRename

/-- A plain name short enough for a directory entry. -/
structure Name.IsLegal (name : Name) : Prop where
  plain : name.IsPlain
  fits : name.length ≤ Tree.nameLimit

instance (name : Name) : Decidable name.IsLegal :=
  decidable_of_iff (name.IsPlain ∧ name.length ≤ Tree.nameLimit)
    ⟨fun ⟨plain, fits⟩ => ⟨plain, fits⟩, fun legal => ⟨legal.plain, legal.fits⟩⟩

namespace Tree

/-- Nothing in the tree is a symbolic link, and no file has two names. -/
structure IsLinkFree (tree : Tree) : Prop where
  linkless : ∀ place target share,
    tree.node? place ≠ some (.link target share)
  unshared : ∀ {first second : Place} {file other : File},
    tree.node? first = some (.file file) →
    tree.node? second = some (.file other) →
    file.share.isSome → file.share = other.share → first = second

/-- Every entry of every directory has a name that a directory can hold. -/
def HasLegalNames (tree : Tree) : Prop :=
  ∀ place, (tree.node? place).isSome → ∀ name ∈ place, Name.IsLegal name

/-- The place that pieces lead to from a place, where no links are in the
way. -/
def enter (tree : Tree) : Place → List Name → Except Fault Place
  | place, [] => .ok place
  | place, piece :: rest =>
      if tree.hasDirectory place then
        if piece = [] ∨ piece = [dot] then tree.enter place rest
        else if piece = [dot, dot] then tree.enter place.dropLast rest
        else if nameLimit < piece.length then .error .nameTooLong
        else if (tree.node? (place ++ [piece])).isSome then
          tree.enter (place ++ [piece]) rest
        else .error .notFound
      else .error .notDirectory

/-- Where relative and absolute paths start. -/
def startOf (tree : Tree) (path : Path) : Place :=
  if path.isAbsolute then [] else tree.origin

variable {tree other : Tree}

/-! ### One piece -/

@[simp]
theorem Trail.overruns_none (trail : Trail) (name : Name) :
    trail.overruns none name = decide (nameLimit < name.length) := by
  simp [Trail.overruns]

theorem enter_of_not_directory {place : Place}
    (closed : tree.hasDirectory place = false) (name : Name)
    (rest : List Name) :
    tree.enter place (name :: rest) = .error .notDirectory := by
  rw [enter, if_neg (by simp [closed])]

/-- A piece takes a lookup from a directory to where it is, one level up or to
an entry. -/
inductive TakesTo (tree : Tree) (place : Place) (piece : Name) : Place → Prop
  | stay : piece = [] ∨ piece = [dot] → TakesTo tree place piece place
  | rise : piece = [dot, dot] → TakesTo tree place piece place.dropLast
  | enter : ¬ (piece = [] ∨ piece = [dot]) → piece ≠ [dot, dot] →
      piece.length ≤ nameLimit → (tree.node? (place ++ [piece])).isSome →
      TakesTo tree place piece (place ++ [piece])

/-- Entering goes on from where the first piece takes it. -/
theorem enter_cons_eq_ok {place goal : Place} {piece : Name}
    {rest : List Name} :
    tree.enter place (piece :: rest) = .ok goal ↔
      tree.hasDirectory place = true ∧
        ∃ next, tree.TakesTo place piece next ∧
          tree.enter next rest = .ok goal := by
  rw [enter]
  constructor
  · intro entered
    split at entered
    case isFalse => cases entered
    rename_i directory
    refine ⟨directory, ?_⟩
    split at entered
    · rename_i spelling
      exact ⟨place, .stay spelling, entered⟩
    rename_i undotted
    split at entered
    · rename_i isParent
      exact ⟨place.dropLast, .rise isParent, entered⟩
    rename_i notParent
    split at entered
    · cases entered
    rename_i short
    split at entered
    · rename_i present
      exact ⟨place ++ [piece],
        .enter undotted notParent (Nat.le_of_not_lt short) present, entered⟩
    · cases entered
  · rintro ⟨directory, next, takes, onward⟩
    rw [if_pos directory]
    cases takes with
    | stay spelling => rw [if_pos spelling, onward]
    | rise isParent =>
        subst isParent
        rw [if_neg (by decide), if_pos rfl, onward]
    | enter undotted notParent fits present =>
        rw [if_neg undotted, if_neg notParent, if_neg (Nat.not_lt.mpr fits),
          if_pos present, onward]

namespace TakesTo

variable {place next : Place} {piece : Name}

/-- Where a piece takes a lookup can be read off it. -/
theorem unique {reached : Place} (takes : tree.TakesTo place piece next)
    (again : other.TakesTo place piece reached) : next = reached := by
  cases takes with
  | stay spelling =>
      cases again with
      | stay _ => rfl
      | rise isParent =>
          subst isParent
          exact absurd spelling (by decide)
      | enter undotted _ _ _ => exact absurd spelling undotted
  | rise isParent =>
      subst isParent
      cases again with
      | stay spelling => exact absurd spelling (by decide)
      | rise _ => rfl
      | enter _ notParent _ _ => exact absurd rfl notParent
  | enter undotted notParent _ _ =>
      cases again with
      | stay spelling => exact absurd spelling undotted
      | rise isParent => exact absurd isParent notParent
      | enter _ _ _ _ => rfl

/-- A name takes a lookup to the entry it names. -/
theorem of_undotted (takes : tree.TakesTo place piece next)
    (undotted : ¬ (piece = [] ∨ piece = [dot]))
    (notParent : piece ≠ [dot, dot]) :
    next = place ++ [piece] ∧ piece.length ≤ nameLimit ∧
      (tree.node? (place ++ [piece])).isSome := by
  cases takes with
  | stay spelling => exact absurd spelling undotted
  | rise isParent => exact absurd isParent notParent
  | enter _ _ fits present => exact ⟨rfl, fits, present⟩

/-- A piece takes a lookup to the same place in a tree in which that place is
taken too. -/
theorem transfer (takes : tree.TakesTo place piece next)
    (same : (tree.node? next).isSome → (other.node? next).isSome) :
    other.TakesTo place piece next := by
  cases takes with
  | stay spelling => exact .stay spelling
  | rise isParent => exact .rise isParent
  | enter undotted notParent fits present =>
      exact .enter undotted notParent fits (same present)

end TakesTo

/-! ### Trails and places -/

/-- Each step of the trail is an entry of the directory before it. -/
def Trail.Leads (tree : Tree) : Trail → Prop
  | [] => True
  | (name, inner) :: rest =>
      Trail.Leads tree rest ∧
        (tree.reached rest).entries.lookup name = some inner

@[simp]
theorem Trail.place_cons (name : Name) (inner : Subtree) (trail : Trail) :
    Trail.place ((name, inner) :: trail) = trail.place ++ [name] := by
  simp [Trail.place]

theorem Trail.Leads.subtree? {trail : Trail} (leads : Trail.Leads tree trail) :
    tree.subtree? trail.place = some (tree.reached trail) := by
  induction trail with
  | nil => rfl
  | cons step rest induction =>
      obtain ⟨name, inner⟩ := step
      have isRest := induction leads.1
      rw [Tree.subtree?] at isRest
      rw [Trail.place_cons, Tree.subtree?, Subtree.at?_append, isRest,
        Option.bind_some, Subtree.at?_cons, leads.2]
      rfl

theorem Trail.Leads.node? {trail : Trail} (leads : Trail.Leads tree trail) :
    tree.node? trail.place = some (tree.reached trail).node := by
  rw [Tree.node?, leads.subtree?]
  rfl

theorem Trail.Leads.node?_concat {trail : Trail}
    (leads : Trail.Leads tree trail) (name : Name) :
    tree.node? (trail.place ++ [name]) =
      ((tree.reached trail).entries.lookup name).map Subtree.node := by
  have isReached := leads.subtree?
  rw [Tree.subtree?] at isReached
  rw [Tree.node?, Tree.subtree?, Subtree.at?_append, isReached,
    Option.bind_some, Subtree.at?_cons]
  cases (tree.reached trail).entries.lookup name <;> rfl

/-- At the end of a trail that has a directory, an entry is what stands under
its name. -/
theorem Trail.Leads.exists_entries {trail : Trail}
    (leads : Trail.Leads tree trail)
    (directory : tree.hasDirectory trail.place = true) :
    ∃ mode entries, tree.reached trail = .directory mode entries ∧
      ∀ name, tree.node? (trail.place ++ [name]) =
        (entries.lookup name).map Subtree.node := by
  have here := leads.node?
  have next := leads.node?_concat
  obtain ⟨mode, isDirectory⟩ := hasDirectory_iff_node?.mp directory
  rw [isDirectory] at here
  cases isReached : tree.reached trail with
  | directory present entries =>
      rw [isReached] at next
      exact ⟨present, entries, rfl, next⟩
  | file file =>
      rw [isReached] at here
      cases here
  | link target share =>
      rw [isReached] at here
      cases here

theorem Trail.Leads.hasDirectory {trail : Trail} {mode : Nat}
    {entries : List (Name × Subtree)} (leads : Trail.Leads tree trail)
    (isReached : tree.reached trail = .directory mode entries) :
    tree.hasDirectory trail.place = true := by
  rw [Tree.hasDirectory, leads.node?, isReached]
  rfl

theorem Trail.Leads.cons {trail : Trail} {mode : Nat}
    {entries : List (Name × Subtree)} {name : Name} {inner : Subtree}
    (leads : Trail.Leads tree trail)
    (isReached : tree.reached trail = .directory mode entries)
    (isEntry : entries.lookup name = some inner) :
    Trail.Leads tree ((name, inner) :: trail) :=
  ⟨leads, by rw [isReached]; exact isEntry⟩

theorem Trail.Leads.tail {trail : Trail} (leads : Trail.Leads tree trail) :
    Trail.Leads tree trail.tail := by
  cases trail with
  | nil => exact leads
  | cons step rest => exact leads.1

theorem Trail.place_tail (trail : Trail) :
    Trail.place trail.tail = trail.place.dropLast := by
  cases trail <;> simp [Trail.place]

theorem extend?_eq_some {subtree : Subtree} {trail reached : Trail}
    {place : Place} (leads : Trail.Leads tree trail)
    (isReached : tree.reached trail = subtree)
    (extended : Trail.extend? trail subtree place = some reached) :
    Trail.Leads tree reached ∧ reached.place = trail.place ++ place := by
  induction place generalizing trail subtree with
  | nil =>
      cases extended
      exact ⟨leads, (List.append_nil _).symm⟩
  | cons name rest induction =>
      rw [Trail.extend?] at extended
      split at extended
      · cases extended
      · rename_i inner found
        have deeper : Trail.Leads tree ((name, inner) :: trail) :=
          ⟨leads, by rw [isReached]; exact found⟩
        have next := induction deeper rfl extended
        exact ⟨next.1, next.2.trans (by simp)⟩

theorem extend?_eq_none {subtree : Subtree} {trail : Trail} {place : Place}
    (stuck : Trail.extend? trail subtree place = none) :
    subtree.at? place = none := by
  induction place generalizing trail subtree with
  | nil => cases stuck
  | cons name rest induction =>
      rw [Trail.extend?] at stuck
      rw [Subtree.at?_cons]
      split at stuck
      · rename_i missing
        rw [missing]
        rfl
      · rename_i inner found
        rw [found]
        exact induction stuck

/-- However many links are left, they matter only where there is a link. -/
theorem exists_descend (tree : Tree) (limit : Option Nat) (links : Nat) :
    ∃ onLink, tree.descendThrough limit links = tree.descend limit onLink := by
  cases links <;> exact ⟨_, rfl⟩

/-- No entry that the pieces come upon is a link. -/
def MeetsNoLink (tree : Tree) (place : Place) (pieces : List Name) : Prop :=
  ∀ front piece, front ++ [piece] <+: pieces → ∀ reached,
    tree.enter place front = .ok reached →
    ∀ target share, tree.node? (reached ++ [piece]) ≠ some (.link target share)

theorem IsLinkFree.meetsNoLink (free : tree.IsLinkFree) (place : Place)
    (pieces : List Name) : tree.MeetsNoLink place pieces :=
  fun _ _ _ _ _ => free.linkless _

namespace MeetsNoLink

variable {place : Place} {piece : Name} {rest : List Name}

theorem head (meets : tree.MeetsNoLink place (piece :: rest)) :
    ∀ target share, tree.node? (place ++ [piece]) ≠ some (.link target share) :=
  meets [] piece (List.cons_prefix_cons.mpr ⟨rfl, List.nil_prefix⟩) place rfl

theorem tail (meets : tree.MeetsNoLink place (piece :: rest))
    (directory : tree.hasDirectory place = true) {next : Place}
    (takes : tree.TakesTo place piece next) : tree.MeetsNoLink next rest := by
  intro front last isPrefix reached entered
  exact meets (piece :: front) last
    (List.cons_prefix_cons.mpr ⟨rfl, isPrefix⟩) reached
    (enter_cons_eq_ok.mpr ⟨directory, next, takes, entered⟩)

end MeetsNoLink

/-- As long as it meets no link, a lookup goes from place to place. -/
theorem descend_eq_enter
    (onLink : Trail → Path → List Name → Except Fault Trail) {trail : Trail}
    (leads : Trail.Leads tree trail) {pieces : List Name}
    (meets : tree.MeetsNoLink trail.place pieces) :
    (tree.descend none onLink trail pieces).map Trail.place =
      tree.enter trail.place pieces := by
  induction pieces generalizing trail with
  | nil => rfl
  | cons piece rest induction =>
      cases directory : tree.hasDirectory trail.place with
      | false =>
          rw [enter_of_not_directory directory, descend]
          split
          · rename_i isReached
            rw [leads.hasDirectory isReached] at directory
            cases directory
          · rfl
      | true =>
          obtain ⟨mode, entries, isReached, next⟩ :=
            leads.exists_entries directory
          rw [descend, enter, if_pos directory]
          simp only [isReached, Trail.overruns_none, decide_eq_true_eq]
          split
          · rename_i spelling
            exact induction leads (meets.tail directory (.stay spelling))
          rename_i undotted
          split
          · rename_i isParent
            have onward := meets.tail directory (.rise isParent)
            rw [← Trail.place_tail] at onward ⊢
            exact induction leads.tail onward
          rename_i notParent
          split
          · rfl
          rename_i fits
          have isNode := next piece
          cases isEntry : entries.lookup piece with
          | none =>
              rw [isEntry] at isNode
              simp [isNode, Except.map]
          | some inner =>
              rw [isEntry] at isNode
              have onward := meets.tail directory (.enter undotted notParent
                (Nat.le_of_not_lt fits) (by rw [isNode]; rfl))
              rw [← Trail.place_cons piece inner] at onward
              have further := induction (leads.cons isReached isEntry) onward
              rw [Trail.place_cons] at further
              cases inner with
              | link target share => exact absurd isNode (meets.head _ _)
              | directory _ _ | file _ => simpa [isNode] using further

theorem descendThrough_eq_enter (links : Nat) {trail : Trail}
    (leads : Trail.Leads tree trail) {pieces : List Name}
    (meets : tree.MeetsNoLink trail.place pieces) :
    (tree.descendThrough none links trail pieces).map Trail.place =
      tree.enter trail.place pieces := by
  obtain ⟨onLink, isDescent⟩ := tree.exists_descend none links
  rw [isDescent]
  exact descend_eq_enter onLink leads meets

/-- Following a path is entering its pieces from where it starts. -/
theorem follow_eq_enter (free : tree.IsLinkFree) (path : Path)
    (pieces : List Name) :
    tree.follow path pieces =
      if (tree.node? (tree.startOf path)).isSome then
        tree.enter (tree.startOf path) pieces
      else .error .notFound := by
  rw [follow, followWithin, startOf]
  generalize (if path.isAbsolute = true then [] else tree.origin) = start
  cases extended : Trail.extend? [] tree.top start with
  | none =>
      have missing := extend?_eq_none extended
      rw [node?, subtree?, missing]
      rfl
  | some trail =>
      have atTop : Trail.Leads tree [] := trivial
      obtain ⟨leads, isPlace⟩ := extend?_eq_some atTop rfl extended
      have isStart : trail.place = start := by simpa [Trail.place] using isPlace
      have entered := descendThrough_eq_enter linkLimit leads
        (free.meetsNoLink _ pieces)
      rw [isStart] at entered
      have present := leads.node?
      rw [isStart] at present
      simp only [present, Option.isSome_some, ↓reduceIte, ← entered]
      cases tree.descendThrough none linkLimit trail pieces <;> rfl

/-! ### Entering names -/

theorem enter_append (place : Place) (front back : List Name) :
    tree.enter place (front ++ back) =
      (tree.enter place front).bind fun reached =>
        tree.enter reached back := by
  induction front generalizing place with
  | nil => rfl
  | cons piece rest induction =>
      rw [List.cons_append, enter, enter]
      split
      · split
        · exact induction place
        · split
          · exact induction place.dropLast
          · split
            · rfl
            · split
              · exact induction (place ++ [piece])
              · rfl
      · rfl

theorem enter_cons {place : Place} (directory : tree.hasDirectory place = true)
    {name : Name} (plain : name.IsPlain) (rest : List Name) :
    tree.enter place (name :: rest) =
      if nameLimit < name.length then .error .nameTooLong
      else if (tree.node? (place ++ [name])).isSome then
        tree.enter (place ++ [name]) rest
      else .error .notFound := by
  rw [enter, if_pos directory, if_neg plain.undotted, if_neg plain.notParent]

/-- What lies above a node is a directory. -/
theorem hasDirectory_of_append {place rest : Place}
    (present : (tree.node? (place ++ rest)).isSome) (below : rest ≠ []) :
    tree.hasDirectory place = true := by
  cases closed : tree.hasDirectory place with
  | true => rfl
  | false =>
      rw [node?_append_of_not_directory closed below] at present
      cases present

theorem isSome_of_isSome_append {place rest : Place}
    (present : (tree.node? (place ++ rest)).isSome) :
    (tree.node? place).isSome := by
  cases isNode : tree.node? place with
  | none =>
      rw [node?_append_of_missing isNode] at present
      cases present
  | some node => rfl

theorem enter_of_present {place : Place} {names : List Name}
    (plain : Path.ArePlain names)
    (fits : ∀ name ∈ names, name.length ≤ nameLimit)
    (present : (tree.node? (place ++ names)).isSome) :
    tree.enter place names = .ok (place ++ names) := by
  induction names generalizing place with
  | nil => rw [List.append_nil, enter]
  | cons name rest induction =>
      have isSplit : place ++ name :: rest = (place ++ [name]) ++ rest := by
        simp
      have directory := hasDirectory_of_append present (by simp)
      rw [isSplit] at present ⊢
      rw [enter_cons directory plain.head,
        if_neg (Nat.not_lt.mpr (fits name List.mem_cons_self)),
        if_pos (isSome_of_isSome_append present)]
      exact induction plain.tail
        (fun other member => fits other (List.mem_cons_of_mem _ member)) present

theorem enter_eq_ok {place reached : Place} {names : List Name}
    (plain : Path.ArePlain names)
    (entered : tree.enter place names = .ok reached) :
    reached = place ++ names ∧ (names = [] ∨ (tree.node? reached).isSome) := by
  induction names generalizing place with
  | nil =>
      cases entered
      exact ⟨(List.append_nil _).symm, .inl rfl⟩
  | cons name rest induction =>
      obtain ⟨-, next, takes, onward⟩ := enter_cons_eq_ok.mp entered
      obtain ⟨isNext, -, present⟩ := takes.of_undotted plain.head.undotted
        plain.head.notParent
      subst isNext
      obtain ⟨isReached, found⟩ := induction plain.tail onward
      refine ⟨by simp [isReached], .inr ?_⟩
      rcases found with empty | found
      · subst empty
        rwa [isReached, List.append_nil]
      · exact found

/-- Everything on the way through the names is missing or a directory. -/
def IsOpen (tree : Tree) (place : Place) (names : List Name) : Prop :=
  ∀ front, front <+: names →
    tree.node? (place ++ front) = none ∨
      tree.hasDirectory (place ++ front) = true

theorem IsOpen.left {place : Place} {front back : List Name}
    (opened : tree.IsOpen place (front ++ back)) :
    tree.IsOpen place front :=
  fun first isPrefix => opened first
    (isPrefix.trans (List.prefix_append front back))

theorem isOpen_cons_iff {place : Place}
    (directory : tree.hasDirectory place = true) {name : Name}
    {rest : List Name} :
    tree.IsOpen place (name :: rest) ↔ tree.IsOpen (place ++ [name]) rest := by
  constructor
  · intro opened front isPrefix
    have further := opened (name :: front)
      (List.cons_prefix_cons.mpr ⟨rfl, isPrefix⟩)
    simpa using further
  · intro opened front isPrefix
    cases front with
    | nil => exact .inr (by simpa using directory)
    | cons first more =>
        obtain ⟨same, tailPrefix⟩ := List.cons_prefix_cons.mp isPrefix
        subst same
        simpa using opened more tailPrefix

theorem isOpen_of_missing {place : Place} {names : List Name}
    (missing : tree.node? place = none) : tree.IsOpen place names :=
  fun front _ => .inl (node?_append_of_missing missing front)

/-- A lookup that comes to nothing tells whether a file is in the way. -/
theorem enter_of_missing {place : Place} {names : List Name}
    (plain : Path.ArePlain names)
    (fits : ∀ name ∈ names, name.length ≤ nameLimit)
    (directory : tree.hasDirectory place = true)
    (missing : tree.node? (place ++ names) = none) :
    (tree.IsOpen place names ∧ tree.enter place names = .error .notFound) ∨
      (¬ tree.IsOpen place names ∧
        tree.enter place names = .error .notDirectory) := by
  induction names generalizing place with
  | nil =>
      rw [hasDirectory, ← List.append_nil place, missing] at directory
      cases directory
  | cons name rest induction =>
      have isSplit : place ++ name :: rest = (place ++ [name]) ++ rest := by
        simp
      rw [isSplit] at missing
      have restFits : ∀ other ∈ rest, other.length ≤ nameLimit :=
        fun other member => fits other (List.mem_cons_of_mem _ member)
      rw [isOpen_cons_iff directory, enter_cons directory plain.head,
        if_neg (Nat.not_lt.mpr (fits name List.mem_cons_self))]
      cases isNode : tree.node? (place ++ [name]) with
      | none =>
          left
          exact ⟨isOpen_of_missing isNode, by simp⟩
      | some node =>
          simp only [Option.isSome_some, ↓reduceIte]
          cases inner : tree.hasDirectory (place ++ [name]) with
          | true => exact induction plain.tail restFits inner missing
          | false =>
              right
              constructor
              · intro opened
                rcases opened [] List.nil_prefix with absent | opens
                · rw [List.append_nil, isNode] at absent
                  cases absent
                · rw [List.append_nil, inner] at opens
                  cases opens
              · cases rest with
                | nil =>
                    rw [List.append_nil, isNode] at missing
                    cases missing
                | cons first more => exact enter_of_not_directory inner _ _

/-! ### Resolving paths below a resolved base -/

variable {base : Path} {place : Place}

theorem checkPath_eq_ok {path : Path} :
    checkPath path = .ok () ↔
      (0 : UInt8) ∉ path.bytes ∧ path.bytes ≠ [] ∧
        path.bytes.length ≤ pathLimit := by
  rw [checkPath, checkWritten]
  by_cases nul : (0 : UInt8) ∈ path.bytes
  · simp [nul, bind, Except.bind]
  · by_cases empty : path.bytes = []
    · simp [empty, bind, Except.bind]
    · by_cases long : pathLimit < path.bytes.length
      · simp [nul, empty, long, bind, Except.bind, throw, throwThe,
          MonadExceptOf.throw]
      · simp [nul, empty, long, bind, Except.bind, pure, Except.pure,
          Nat.le_of_not_lt long]

theorem resolve_eq_ok (free : tree.IsLinkFree) {path : Path} :
    tree.resolve path = .ok place ↔
      checkPath path = .ok () ∧
        (tree.node? (tree.startOf path)).isSome ∧
        tree.enter (tree.startOf path) path.pieces = .ok place := by
  rw [resolve]
  cases checkPath path with
  | error fault => simp [bind, Except.bind]
  | ok done =>
      simp only [bind, Except.bind, follow_eq_enter free, true_and]
      split
      · rename_i present
        simp [present]
      · rename_i missing
        simp [missing]

theorem nul_not_mem_below {names : List Name} (clean : (0 : UInt8) ∉ base.bytes)
    (plain : Path.ArePlain names) :
    (0 : UInt8) ∉ (base.below names).bytes := by
  induction names generalizing base with
  | nil => exact clean
  | cons name rest induction =>
      rw [Path.below_cons]
      apply induction _ plain.tail
      have isSlash : (0 : UInt8) ≠ slash := by decide
      rw [Path.bytes_join_name plain.head]
      split <;> simp [clean, plain.head.nulless, isSlash]

theorem enter_stem
    (entered : tree.enter (tree.startOf base) base.pieces = .ok place)
    (names : List Name) :
    tree.enter (tree.startOf base) (base.stem ++ names) =
      tree.enter place names := by
  by_cases closed : base.IsClosed
  · rw [closed.stem, enter_append, entered]
    rfl
  · rw [Path.pieces_of_not_isClosed closed, enter_append] at entered
    rw [enter_append]
    cases isStem : tree.enter (tree.startOf base) base.stem with
    | error fault =>
        rw [isStem] at entered
        cases entered
    | ok reached =>
        rw [isStem] at entered
        change tree.enter reached [[]] = .ok place at entered
        rw [enter] at entered
        split at entered
        · rw [if_pos (Or.inl rfl), enter] at entered
          cases entered
          rfl
        · cases entered

end Tree

end PackageRename
