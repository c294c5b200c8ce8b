import PackageRename.Proofs.Tree.Canonical
import PackageRename.Proofs.Tree.Ground

/-!
# Bases that stay in place

A path keeps leading to the same directory while the tree changes, as long as
nothing changes that the lookup comes through.  A base is a path to a directory
whose lookup does not come through what lies inside that directory, so it can be
relied on while the directory's contents move.
-/

namespace PackageRename

/-- The file without what its names have in common. -/
def File.unshared (file : File) : File :=
  { file with share := none }

namespace Tree

variable {tree other : Tree} {path : Path} {place : Place}

/-- The lookup of the path comes through the place. -/
def Passes (tree : Tree) (path : Path) (place : Place) : Prop :=
  ∃ front, front <+: path.pieces ∧ tree.follow path front = .ok place

/-- Two trees have the same kinds of nodes everywhere but at hidden places. -/
def SameKinds (hidden : Place → Prop) (tree other : Tree) : Prop :=
  ∀ place, ¬ hidden place →
    (other.node? place).map Node.kind = (tree.node? place).map Node.kind

theorem hasDirectory_eq_kind (tree : Tree) (place : Place) :
    tree.hasDirectory place =
      decide ((tree.node? place).map Node.kind = some .directory) := by
  rw [hasDirectory]
  cases tree.node? place with
  | none => rfl
  | some node => cases node <;> rfl

theorem kind_of_hasDirectory (directory : tree.hasDirectory place = true) :
    (tree.node? place).map Node.kind = some .directory := by
  rw [hasDirectory_eq_kind] at directory
  exact of_decide_eq_true directory

theorem isSome_eq_kind (tree : Tree) (place : Place) :
    (tree.node? place).isSome =
      ((tree.node? place).map Node.kind).isSome := by
  cases tree.node? place <;> rfl

namespace SameKinds

variable {hidden : Place → Prop}

theorem hasDirectory (same : SameKinds hidden tree other)
    (seen : ¬ hidden place) :
    other.hasDirectory place = tree.hasDirectory place := by
  rw [hasDirectory_eq_kind, hasDirectory_eq_kind, same place seen]

theorem isSome (same : SameKinds hidden tree other) (seen : ¬ hidden place) :
    (other.node? place).isSome = (tree.node? place).isSome := by
  rw [isSome_eq_kind, isSome_eq_kind, same place seen]

theorem symm (same : SameKinds hidden tree other) :
    SameKinds hidden other tree :=
  fun place seen => (same place seen).symm

theorem trans {third : Tree} (first : SameKinds hidden tree other)
    (second : SameKinds hidden other third) : SameKinds hidden tree third :=
  fun place seen => (second place seen).trans (first place seen)

theorem mono {narrow : Place → Prop} (same : SameKinds narrow tree other)
    (wider : ∀ place, narrow place → hidden place) :
    SameKinds hidden tree other :=
  fun place seen => same place fun isNarrow => seen (wider place isNarrow)

/-- A lookup that comes through no hidden place succeeds in both trees. -/
theorem enter (same : SameKinds hidden tree other) {start : Place}
    {pieces : List Name}
    (avoids : ∀ front, front <+: pieces → ∀ reached,
      tree.enter start front = .ok reached → ¬ hidden reached)
    (entered : tree.enter start pieces = .ok place) :
    other.enter start pieces = .ok place := by
  induction pieces generalizing start with
  | nil => exact entered
  | cons piece rest induction =>
      have startSeen : ¬ hidden start := avoids [] List.nil_prefix start rfl
      obtain ⟨directory, next, takes, onward⟩ := enter_cons_eq_ok.mp entered
      have enters : ∀ front reached, tree.enter next front = .ok reached →
          tree.enter start (piece :: front) = .ok reached :=
        fun front reached isReached =>
          enter_cons_eq_ok.mpr ⟨directory, next, takes, isReached⟩
      have nextSeen : ¬ hidden next :=
        avoids [piece] (List.cons_prefix_cons.mpr ⟨rfl, List.nil_prefix⟩) next
          (enters [] next rfl)
      refine enter_cons_eq_ok.mpr ⟨?_, next, takes.transfer fun present => ?_,
        induction (fun front isPrefix reached isReached => ?_) onward⟩
      · rw [same.hasDirectory startSeen]
        exact directory
      · rw [same.isSome nextSeen]
        exact present
      · exact avoids (piece :: front)
          (List.cons_prefix_cons.mpr ⟨rfl, isPrefix⟩) reached
          (enters front reached isReached)

end SameKinds

theorem startOf_eq (origin : other.origin = tree.origin) (path : Path) :
    other.startOf path = tree.startOf path := by
  rw [startOf, startOf, origin]

theorem passes_iff (free : tree.IsLinkFree)
    (present : (tree.node? (tree.startOf path)).isSome) :
    tree.Passes path place ↔
      ∃ front, front <+: path.pieces ∧
        tree.enter (tree.startOf path) front = .ok place := by
  rw [Passes]
  simp only [follow_eq_enter free, if_pos present]

/-- A path whose lookup comes through no hidden place leads where it did. -/
theorem SameKinds.resolve {hidden : Place → Prop} (free : tree.IsLinkFree)
    (otherFree : other.IsLinkFree) (origin : other.origin = tree.origin)
    (same : SameKinds hidden tree other)
    (avoids : ∀ passed, tree.Passes path passed → ¬ hidden passed)
    (resolved : tree.resolve path = .ok place) :
    other.resolve path = .ok place ∧
      ∀ passed, other.Passes path passed → tree.Passes path passed := by
  obtain ⟨checked, present, entered⟩ := (resolve_eq_ok free).mp resolved
  have avoidsEntered : ∀ front, front <+: path.pieces → ∀ reached,
      tree.enter (tree.startOf path) front = .ok reached →
        ¬ hidden reached :=
    fun front isPrefix reached isReached => avoids reached
      ((passes_iff free present).mpr ⟨front, isPrefix, isReached⟩)
  have startSeen : ¬ hidden (tree.startOf path) :=
    avoidsEntered [] List.nil_prefix _ rfl
  have isStart := startOf_eq origin path
  have otherPresent : (other.node? (other.startOf path)).isSome := by
    rw [isStart, same.isSome startSeen]
    exact present
  constructor
  · refine (resolve_eq_ok otherFree).mpr ⟨checked, otherPresent, ?_⟩
    rw [isStart]
    exact same.enter avoidsEntered entered
  · intro passed passes
    obtain ⟨front, isPrefix, isPassed⟩ :=
      (passes_iff otherFree otherPresent).mp passes
    obtain ⟨back, isPieces⟩ := isPrefix
    rw [← isPieces, enter_append] at entered
    cases isReached : tree.enter (tree.startOf path) front with
    | error fault =>
        rw [isReached] at entered
        cases entered
    | ok reached =>
        have again := same.enter
          (fun first isFirst => avoidsEntered first
            (isFirst.trans ⟨back, isPieces⟩)) isReached
        rw [isStart, again] at isPassed
        cases isPassed
        exact (passes_iff free present).mpr ⟨front, ⟨back, isPieces⟩, isReached⟩

/-! ### Files with several names -/

/-- The tree without the shares of its files. -/
def unshared (tree : Tree) : Tree :=
  tree.mapFiles File.unshared

/-- Without symbolic links, nothing but shares makes a tree one with links. -/
theorem isLinkFree_unshared (linkless : ∀ place target share,
    tree.node? place ≠ some (.link target share)) :
    tree.unshared.IsLinkFree where
  linkless := by
    intro place target share isLink
    rw [unshared, node?_mapFiles, mapFile_eq_link] at isLink
    exact linkless place target share isLink
  unshared := by
    intro first second file other isFile _ shared _
    rw [Tree.unshared, node?_mapFiles, mapFile_eq_file] at isFile
    obtain ⟨before, -, rfl⟩ := isFile
    cases shared

/-! ### Bases -/

/-- In a tree without links and with legal names, the path leads to a
directory. -/
structure LeadsTo (tree : Tree) (base : Path) (place : Place) : Prop where
  free : tree.IsLinkFree
  legal : tree.HasLegalNames
  resolved : tree.resolve base = .ok place
  directory : tree.hasDirectory place = true

/-- The lookup of the path does not come through what lies inside the directory
that the path leads to. -/
structure IsBase (tree : Tree) (base : Path) (place : Place) : Prop
    extends LeadsTo tree base place where
  aside : ∀ passed, tree.Passes base passed → ¬ Inside place passed

variable {base : Path}

/-- A base stays one while its lookup comes through no hidden place. -/
theorem IsBase.transfer {hidden : Place → Prop}
    (isBase : tree.IsBase base place) (free : other.IsLinkFree)
    (legal : other.HasLegalNames) (origin : other.origin = tree.origin)
    (same : SameKinds hidden tree other)
    (avoids : ∀ passed, tree.Passes base passed → ¬ hidden passed) :
    other.IsBase base place := by
  obtain ⟨resolved, passes⟩ := same.resolve isBase.free free origin avoids
    isBase.resolved
  obtain ⟨checked, present, entered⟩ :=
    (resolve_eq_ok isBase.free).mp isBase.resolved
  have arrives : tree.Passes base place :=
    (passes_iff isBase.free present).mpr
      ⟨base.pieces, List.prefix_refl _, entered⟩
  refine ⟨⟨free, legal, resolved, ?_⟩, ?_⟩
  · rw [same.hasDirectory (avoids place arrives)]
    exact isBase.directory
  · exact fun passed isPassed => isBase.aside passed (passes passed isPassed)

/-- A base stays one while only what lies inside changes. -/
theorem IsBase.transfer_inside (isBase : tree.IsBase base place)
    (free : other.IsLinkFree) (legal : other.HasLegalNames)
    (origin : other.origin = tree.origin)
    (same : SameKinds (Inside place) tree other) :
    other.IsBase base place :=
  isBase.transfer free legal origin same isBase.aside

theorem LeadsTo.leadsInto (leads : tree.LeadsTo base place) :
    tree.LeadsInto base place where
  resolved := leads.resolved
  directory := leads.directory
  linkless names := leads.free.linkless (place ++ names)
  legal _ present name member :=
    leads.legal _ present name (List.mem_append_right _ member)

theorem LeadsTo.plain_names (leads : tree.LeadsTo base place)
    {names : List Name} (present : (tree.node? (place ++ names)).isSome) :
    Path.ArePlain names :=
  leads.leadsInto.plain_names present

theorem LeadsTo.written (leads : tree.LeadsTo base place) : base.bytes ≠ [] :=
  leads.leadsInto.written

theorem LeadsTo.fits (leads : tree.LeadsTo base place) :
    base.bytes.length ≤ pathLimit :=
  leads.leadsInto.fits

/-- What stands below a directory is found under its own path. -/
theorem LeadsTo.resolve (leads : tree.LeadsTo base place) {names : List Name}
    (fits : (base.below names).bytes.length ≤ pathLimit)
    (present : (tree.node? (place ++ names)).isSome) :
    tree.resolve (base.below names) = .ok (place ++ names) :=
  leads.leadsInto.resolve fits present

theorem LeadsTo.resolve_of_long (leads : tree.LeadsTo base place)
    {names : List Name} (plain : Path.ArePlain names)
    (long : pathLimit < (base.below names).bytes.length) :
    tree.resolve (base.below names) = .error .nameTooLong :=
  leads.leadsInto.resolve_of_long plain long

theorem LeadsTo.isDirectory (leads : tree.LeadsTo base place)
    {names : List Name} (plain : Path.ArePlain names) :
    tree.isDirectory (base.below names) = true ↔
      (base.below names).bytes.length ≤ pathLimit ∧
        tree.hasDirectory (place ++ names) = true :=
  leads.leadsInto.isDirectory plain

/-- Whether a file below a directory can be written depends on its place, and on
the way to the directory. -/
theorem LeadsTo.canWrite_iff {strategy : WriteStrategy}
    (leads : tree.LeadsTo base place) {names : List Name} {file : File}
    (isFile : tree.node? (place ++ names) = some (.file file))
    (fits : (base.below names).bytes.length ≤ pathLimit) :
    tree.CanWrite strategy (base.below names) ↔ (strategy = .atomic →
      IsNear (tree.startOf base) base.stem ∧ IsReplaceable (place ++ names)) := by
  have nonempty := ne_nil_of_file leads.directory isFile
  have present : (tree.node? (place ++ names)).isSome := by
    rw [isFile]
    rfl
  have plain := leads.plain_names present
  have isStart : tree.startOf (base.below names) = tree.startOf base := by
    rw [startOf, startOf, Path.isAbsolute_below plain]
  obtain ⟨-, -, entered⟩ := (resolve_eq_ok leads.free).mp leads.resolved
  have atStem := enter_stem entered []
  rw [List.append_nil, enter] at atStem
  rw [canWrite_iff_isNear leads.free (leads.resolve fits present), isStart,
    Path.pieces_below nonempty plain, IsNear, named_append atStem,
    List.forall_mem_append, ← IsNear, ← IsNear, isNear_plain plain nonempty,
    and_assoc, IsReplaceable]

/-- Where there are no links at all, a base is a ground. -/
theorem IsBase.isGround (isBase : tree.IsBase base place) :
    tree.IsGround base place where
  toLeadsInto := isBase.leadsInto
  steady := by
    intro other origin same linkless
    have free : other.unshared.IsLinkFree := by
      refine isLinkFree_unshared fun passed target share isLink => ?_
      by_cases isInside : Inside place passed
      · obtain ⟨rest, isPassed⟩ := isInside.1
        exact linkless rest target share (by rw [isPassed, isLink])
      · rw [same passed isInside] at isLink
        exact isBase.free.linkless passed target share isLink
    have seen : SameKinds (Inside place) tree other.unshared := by
      intro passed isOutside
      rw [unshared, node?_mapFiles, Option.map_map, same passed isOutside]
      congr 1
      funext node
      exact kind_mapFile node
    -- Files with several names do not matter to a lookup.
    have found := (seen.resolve isBase.free free origin isBase.aside
      isBase.resolved).1
    rwa [unshared, resolve_mapFiles] at found

/-- A directory below another is a base, unless the other is looked up through
what lies inside. -/
theorem LeadsTo.below (leads : tree.LeadsTo base place) {names : List Name}
    (fits : (base.below names).bytes.length ≤ pathLimit)
    (directory : tree.hasDirectory (place ++ names) = true)
    (aside : ∀ passed, tree.Passes base passed →
      ¬ Inside (place ++ names) passed) :
    tree.IsBase (base.below names) (place ++ names) := by
  have present := hasDirectory_isSome directory
  have plain := leads.plain_names present
  refine ⟨⟨leads.free, leads.legal, leads.resolve fits present, directory⟩,
    ?_⟩
  rcases List.eq_nil_or_concat names with empty | ⟨front, last, isNames⟩
  · subst empty
    exact aside
  obtain ⟨checked, startPresent, entered⟩ :=
    (resolve_eq_ok leads.free).mp leads.resolved
  have isStart : tree.startOf (base.below names) = tree.startOf base := by
    rw [startOf, startOf, Path.isAbsolute_below plain]
  have nonempty : names ≠ [] := by simp [isNames]
  intro passed passes
  rw [passes_iff leads.free (by rw [isStart]; exact startPresent),
    Path.pieces_below nonempty plain, isStart] at passes
  obtain ⟨first, isPrefix, isPassed⟩ := passes
  rcases reaches_or_ends isPrefix with early | ⟨rest, isFirst, late⟩
  · -- The lookup is still on the way to the directory above.
    have stemPrefix : base.stem <+: base.pieces := by
      by_cases closed : base.IsClosed
      · exact closed.stem ▸ List.prefix_refl _
      · rw [Path.pieces_of_not_isClosed closed]
        exact List.prefix_append _ _
    exact aside passed ((passes_iff leads.free startPresent).mpr
      ⟨first, early.trans stemPrefix, isPassed⟩)
  · rw [isFirst, enter_stem entered] at isPassed
    obtain ⟨isReached, -⟩ := enter_eq_ok
      (fun name member => plain name (late.subset member)) isPassed
    rw [isReached]
    exact not_inside_above ((List.prefix_append_right_inj _).mpr late)

end Tree

end PackageRename
